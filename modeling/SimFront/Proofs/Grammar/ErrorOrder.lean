import SimFront.Proofs.Grammar.Module
import SimFront.Source

/-!
# The order of the errors

The tokens of a text are in order (`lined_tokenize`), so reading reports its errors from left to
right: the one for which strict mode refuses the text is the leftmost, and the errors of the
tokens that could not be read are sorted in between without a change of their order
(`errors_in_order`).
-/

namespace SimFront

open SimFront.Parser

/-! ## The first state -/

/-- Tokens in order are so up to the end of the text behind them. -/
theorem lined_ofTokens {tokens : List Token}
    (hspan : ∀ t ∈ tokens, t.span.start.Reaches t.span.stop)
    (horder : tokens.Pairwise fun t u => t.span.stop.Reaches u.span.start) :
    Lined (.ofTokens tokens) := by
  refine List.pairwise_append.2 ⟨?_, List.pairwise_singleton _ _, fun t ht e he => ?_⟩
  · exact horder.imp_of_mem fun ht _ h => (hspan _ ht).trans h
  · obtain rfl := List.mem_singleton.1 he
    show t.span.start.Reaches ((tokens.getLast?.map (·.span.stop)).getD .start)
    rcases List.eq_nil_or_concat tokens with rfl | ⟨front, last, rfl⟩
    · cases ht
    rw [List.concat_eq_append] at ht horder hspan ⊢
    rw [List.getLast?_concat]
    have hlast : last.span.start.Reaches last.span.stop := hspan last (by simp)
    rcases List.mem_append.1 ht with hfront | hlast'
    · have hbefore := (List.pairwise_append.1 horder).2.2 t hfront last (by simp)
      exact ((hspan t ht).trans hbefore).trans hlast
    · obtain rfl := List.mem_singleton.1 hlast'
      exact hlast

theorem lined_tokenize (text : String) : Lined (.ofTokens (significant (tokenize text))) := by
  have hlaid := laid_tokenize text
  apply lined_ofTokens
  · intro t ht
    exact (hlaid.reaches t (List.mem_of_mem_filter ht)).2
  · exact hlaid.pairwise_reaches.filter _

/-! ## The errors of a text -/

/-- What recovery mode records along tokens in order is in order. -/
theorem parse_inOrder {tokens : List Token} (hs : Lined (.ofTokens (significant tokens)))
    {r : Parse} (hr : parse tokens .recovery = .ok r) :
    r.errors.Pairwise fun e e' => e.span.start.Reaches e'.span.start := by
  have hbelow : Below _ (ParserState.ofTokens (significant tokens)) := ⟨rfl, Nat.lt_succ_self _⟩
  obtain ⟨m, s, es, hrun, -, herrors, -, horder, -⟩ := Grammar.module_reads _ hbelow
  have herrors : s.errors = es := by simpa [ParserState.ofTokens] using herrors
  unfold parse at hr
  rw [hrun, Except.ok.injEq] at hr
  subst hr
  show s.errors.reverse.Pairwise _
  rw [herrors]
  exact List.pairwise_reverse.2 (horder hs).inOrder

/-- Sorting the errors of a source by their offsets leaves those in place that are sorted
already. -/
theorem sublist_errors {text : String} {r : Parse} (hr : parseText text .recovery = .ok r)
    (hsorted : r.errors.Pairwise fun e e' => e.span.start.offset ≤ e'.span.start.offset) :
    r.errors.Sublist (Source.ofText text .recovery).errors ∧
      (Source.ofText text .recovery).errors.Perm
        ((lexicalErrors (tokenize text)).map Source.errorOfToken ++ r.errors) := by
  have herrors : (Source.ofText text .recovery).errors =
      ((lexicalErrors (tokenize text)).map Source.errorOfToken ++ r.errors).mergeSort fun a b =>
        a.span.start.offset ≤ b.span.start.offset := by
    have hr : parse (tokenize text) .recovery = .ok r := hr
    unfold Source.ofText
    dsimp only
    rw [hr]
    rfl
  rw [herrors]
  refine ⟨?_, List.mergeSort_perm _ _⟩
  apply List.sublist_mergeSort
  · intro a b c hab hbc
    simp only [decide_eq_true_eq] at hab hbc ⊢
    omega
  · intro a b
    simp only [Bool.or_eq_true, decide_eq_true_eq]
    omega
  · exact hsorted.imp fun h => decide_eq_true h
  · exact List.sublist_append_right _ _

/-- **Order of errors.**  The errors that recovery mode records for a text start one after the
other.  So strict mode refuses the text with the leftmost of them, if there is one, and among the
errors of the source, which are these and those of the tokens that could not be read, they keep
their order. -/
theorem errors_in_order (text : String) : ∃ r, parseText text .recovery = .ok r ∧
    (r.errors.Pairwise fun e e' => e.span.start ≤ e'.span.start) ∧
    (∀ h, parseText text .strict = .error h ↔ ∃ e es, r.errors = e :: es ∧ h = .refused e ∧
      ∀ e' ∈ es, e.span.start ≤ e'.span.start) ∧
    r.errors.Sublist (Source.ofText text .recovery).errors ∧
    (Source.ofText text .recovery).errors.Perm
      ((lexicalErrors (tokenize text)).map Source.errorOfToken ++ r.errors) := by
  obtain ⟨r, hr, hstrict⟩ := parse_modes (tokenize text)
  have hreaches := parse_inOrder (lined_tokenize text) hr
  have horder : r.errors.Pairwise fun e e' => e.span.start ≤ e'.span.start :=
    hreaches.imp fun h => h.le
  refine ⟨r, hr, horder, fun h => ?_, sublist_errors hr (hreaches.imp fun h => h.offset_le)⟩
  unfold parseText
  rw [hstrict]
  cases herrors : r.errors with
  | nil => simp
  | cons e es =>
    have hleftmost : ∀ e' ∈ es, e.span.start ≤ e'.span.start := by
      rw [herrors] at horder
      exact (List.pairwise_cons.1 horder).1
    constructor
    · rintro ⟨⟩
      exact ⟨e, es, rfl, rfl, hleftmost⟩
    · rintro ⟨e', es', hsame, rfl, -⟩
      rw [List.head?_cons, (List.cons.inj hsame).1]

/-- A number that is too large, reported behind it, and a character that cannot be read between
two missing marks. -/
theorem errors_in_order_mixed :
    let text := "MODULE M; BEGIN x := (99999999999999999999; y := [1 ? ; END MODULE."
    ∃ r, parseText text .recovery = .ok r ∧
      r.errors.map (·.span.start.offset) = [22, 42, 54] ∧
      (r.errors.Pairwise fun e e' => e.span.start ≤ e'.span.start) ∧
      (∃ e ∈ r.errors, parseText text .strict = .error (.refused e) ∧ e.span.start.offset = 22) ∧
      r.errors.Sublist (Source.ofText text .recovery).errors ∧
      (lexicalErrors (tokenize text)).map (·.span.start.offset) = [52] ∧
      (Source.ofText text .recovery).errors.Perm
        ((lexicalErrors (tokenize text)).map Source.errorOfToken ++ r.errors) := by
  intro text
  obtain ⟨r, hr, horder, hstrict, hsublist, hperm⟩ := errors_in_order text
  have hplaces : (parseText text .recovery).toOption.map (·.errors.map (·.span.start.offset)) =
      some [22, 42, 54] := by decide +kernel
  rw [hr] at hplaces
  have hplaces : r.errors.map (·.span.start.offset) = [22, 42, 54] := Option.some.inj hplaces
  refine ⟨r, hr, hplaces, horder, ?_, hsublist, by decide +kernel, hperm⟩
  cases herrors : r.errors with
  | nil =>
    rw [herrors] at hplaces
    cases hplaces
  | cons e es =>
    rw [herrors] at hplaces horder
    refine ⟨e, List.mem_cons_self, ?_, (List.cons.inj hplaces).1⟩
    exact (hstrict _).2 ⟨e, es, herrors, rfl, (List.pairwise_cons.1 horder).1⟩

end SimFront
