import Mathlib.Data.List.TakeWhile
import SimFront.Token.Comment
import SimFront.Token.Scan

/-!
# Comments and lexemes

`Comment.Closed` says without a stack what a comment is: an opener, then text in which every
comment that opens is closed again, then the closer of the same form.  What the stack of open
forms measures is such a comment (`closed_of_length?`).

`Lexeme.read` takes blanks, a closed comment, a name with all the characters that go
on with it, or another token.  So what is not a token is trivia (`Trivia`), and a name
never stands directly before a character that another name could begin with.
-/

namespace SimFront.Comment

/-! ## The grammar of comments -/

/-- What a comment of a form begins with. -/
def Form.opener : Form → List Char
  | brace => ['\x7b']
  | paren => ['(', '*']

/-- What a comment of a form ends with. -/
def Form.closer : Form → List Char
  | brace => ['\x7d']
  | paren => ['*', ')']

/-- The text of a comment after its opener, up to the closer and with it. -/
inductive Tail : Form → List Char → Prop where
  | close (form : Form) : Tail form form.closer
  | nested {form inner : Form} {cs ds : List Char} (comment : Tail inner cs) (rest : Tail form ds) :
      Tail form (inner.opener ++ cs ++ ds)
  /-- A character that begins neither the closer nor a comment. -/
  | plain {form : Form} {c : Char} {cs : List Char} (inside : ¬ form.closer <+: c :: cs)
      (unopened : ∀ inner : Form, ¬ inner.opener <+: c :: cs) (rest : Tail form cs) :
      Tail form (c :: cs)

/-- A whole comment. -/
def Closed (cs : List Char) : Prop := ∃ form tail, Tail form tail ∧ cs = form.opener ++ tail

/-! ## What the stack measures -/

/-- Text that closes comments of some forms, innermost first. -/
inductive Closes : List Form → List Char → Prop where
  | nil : Closes [] []
  | cons {form : Form} {outer : List Form} {cs ds : List Char} (inner : Tail form cs)
      (rest : Closes outer ds) : Closes (form :: outer) (cs ++ ds)

theorem Closes.eq_append {form : Form} {outer : List Form} {cs : List Char}
    (h : Closes (form :: outer) cs) : ∃ ds es, cs = ds ++ es ∧ Tail form ds ∧ Closes outer es := by
  cases h with
  | cons inner rest => exact ⟨_, _, rfl, inner, rest⟩

theorem Closes.nested {form inner : Form} {outer : List Form} {cs : List Char}
    (h : Closes (inner :: form :: outer) cs) : Closes (form :: outer) (inner.opener ++ cs) := by
  obtain ⟨cs, _, rfl, hinner, hrest⟩ := h.eq_append
  obtain ⟨ds, es, rfl, hform, houter⟩ := hrest.eq_append
  have := Closes.cons (hinner.nested hform) houter
  simpa only [List.append_assoc] using this

theorem Closes.plain {form : Form} {outer : List Form} {c : Char} {cs rest : List Char}
    (h : Closes (form :: outer) cs) (hcs : cs <+: rest) (inside : ¬ form.closer <+: c :: rest)
    (unopened : ∀ inner : Form, ¬ inner.opener <+: c :: rest) :
    Closes (form :: outer) (c :: cs) := by
  obtain ⟨cs, ds, rfl, hform, houter⟩ := h.eq_append
  have hprefix : c :: cs <+: c :: rest :=
    List.prefix_cons_inj c |>.2 ((List.prefix_append cs ds).trans hcs)
  exact .cons (.plain (fun h => inside (h.trans hprefix))
    (fun inner h => unopened inner (h.trans hprefix)) hform) houter

theorem closes_of_skip? {stack : List Form} {n m : Nat} {cs : List Char}
    (h : skip? stack n cs = some m) : ∃ k, m = n + k ∧ Closes stack (cs.take k) := by
  induction stack, n, cs using skip?.induct with
  | case1 n cs =>
    simp only [skip?, Option.some.injEq] at h
    exact ⟨0, h.symm, .nil⟩
  | case2 => simp [skip?] at h
  | case3 outer n cs ih =>
    obtain ⟨k, rfl, hk⟩ := ih (by simpa [skip?] using h)
    exact ⟨k + 1, by omega, .cons (.close .brace) hk⟩
  | case4 outer n cs ih =>
    obtain ⟨k, rfl, hk⟩ := ih (by simpa [skip?] using h)
    exact ⟨k + 2, by omega, .cons (.close .paren) hk⟩
  | case5 form outer n cs ih =>
    obtain ⟨k, rfl, hk⟩ := ih (by cases form <;> simpa [skip?] using h)
    exact ⟨k + 1, by omega, hk.nested⟩
  | case6 form outer n cs ih =>
    obtain ⟨k, rfl, hk⟩ := ih (by cases form <;> simpa [skip?] using h)
    exact ⟨k + 2, by omega, hk.nested⟩
  | case7 form outer n c cs hbrace hparen hopen hopen' ih =>
    have hskip : skip? (form :: outer) (n + 1) cs = some m := by
      rw [skip?] at h
      · exact h
      all_goals assumption
    obtain ⟨k, rfl, hk⟩ := ih hskip
    refine ⟨k + 1, by omega, hk.plain (List.take_prefix k cs) ?_ ?_⟩
    · cases form with
      | brace => simpa [Form.closer] using fun h => hbrace rfl h.symm
      | paren =>
        rintro ⟨t, ht⟩
        simp only [Form.closer, List.cons_append, List.nil_append, List.cons.injEq] at ht
        exact hparen t rfl ht.1.symm ht.2.symm
    · rintro (_ | _)
      · simpa [Form.opener] using fun h => hopen h.symm
      · rintro ⟨t, ht⟩
        simp only [Form.opener, List.cons_append, List.nil_append, List.cons.injEq] at ht
        exact hopen' t ht.1.symm ht.2.symm

/-- What is measured as a comment is one that is closed. -/
theorem closed_of_length? {form : Form} {n : Nat} {cs : List Char}
    (h : length? form cs = some n) : Closed (form.opener ++ cs.take n) := by
  obtain ⟨k, rfl, hk⟩ := closes_of_skip? h
  rw [Nat.zero_add]
  obtain ⟨ds, es, htail, hform, hnil⟩ := hk.eq_append
  cases hnil
  exact ⟨form, ds, hform, by rw [htail, List.append_nil]⟩

end SimFront.Comment

namespace SimFront

/-- Text between tokens: blanks and closed comments. -/
inductive Trivia : List Char → Prop where
  | nil : Trivia []
  | blank {c : Char} {cs : List Char} (blank : Lexeme.isBlank c) (rest : Trivia cs) :
      Trivia (c :: cs)
  | comment {cs ds : List Char} (closed : Comment.Closed cs) (rest : Trivia ds) :
      Trivia (cs ++ ds)

namespace Trivia

theorem of_blanks {cs : List Char} (h : ∀ c ∈ cs, Lexeme.isBlank c) : Trivia cs := by
  induction cs with
  | nil => exact .nil
  | cons c cs ih =>
    exact .blank (h c List.mem_cons_self) (ih fun d hd => h d (List.mem_cons_of_mem c hd))

theorem append {cs ds : List Char} (h : Trivia cs) (h' : Trivia ds) : Trivia (cs ++ ds) := by
  induction h with
  | nil => exact h'
  | blank hc _ ih => exact .blank hc ih
  | comment hclosed _ ih =>
    rw [List.append_assoc]
    exact .comment hclosed ih

end Trivia

namespace Lexeme

/-! ## Names -/

theorem isNameChar_of_isNameStart {c : Char} (h : isNameStart c) : isNameChar c := by
  unfold isNameStart at h
  unfold isNameChar Char.isAlphanum
  simp only [Bool.or_eq_true] at h ⊢
  exact h.imp Or.inl id

theorem nameKind_ne_eof (text : List Char) : nameKind text ≠ .eof := by
  unfold nameKind
  split <;> simp

/-- What follows the characters of a name cannot begin one. -/
theorem not_isNameStart_after (cs : List Char) :
    ∀ d ∈ (cs.drop (cs.takeWhile isNameChar).length).head?, isNameStart d = false := by
  intro d hd
  induction cs with
  | nil => simp at hd
  | cons c cs ih =>
    rw [List.takeWhile_cons] at hd
    split at hd
    · exact ih hd
    · next hc =>
      obtain rfl : c = d := by simpa using hd
      rw [← Bool.not_eq_true]
      exact fun h => hc (isNameChar_of_isNameStart h)

/-! ## Openers of comments -/

theorem opener_of_opener? {c : Char} {cs : List Char} {form : Comment.Form} {n : Nat}
    (h : opener? c cs = some (form, n)) : c :: cs.take n = form.opener := by
  unfold opener? at h
  split at h
  · obtain ⟨rfl, rfl⟩ : Comment.Form.brace = form ∧ 0 = n := by simpa using h
    rfl
  · obtain ⟨rfl, rfl⟩ : Comment.Form.paren = form ∧ 1 = n := by simpa using h
    rfl
  · cases h

/-! ## Lexemes -/

/-- What can stand at the head of a text, with the number of characters after its first. -/
inductive Reading (c : Char) (cs : List Char) : Lexeme × Nat → Prop where
  | blank (first : isBlank c) : Reading c cs (.blank, (cs.takeWhile isBlank).length)
  | comment {form : Comment.Form} {n len : Nat} (opened : c :: cs.take n = form.opener)
      (closed : Comment.length? form (cs.drop n) = some len) : Reading c cs (.comment, n + len)
  | name (kind : TokenKind) (started : isNameStart c) (notEnd : kind ≠ .eof) :
      Reading c cs (.token kind .none, (cs.takeWhile isNameChar).length)
  | other (kind : TokenKind) (value : TokenValue) (n : Nat) (unnamed : kind ≠ .ident)
      (notEnd : kind ≠ .eof) : Reading c cs (.token kind value, n)

theorem reading_read (c : Char) (cs : List Char) : Reading c cs (read c cs) := by
  unfold read
  split
  · next h => exact .blank h
  split
  · next h => exact .name _ h (nameKind_ne_eof _)
  split
  · dsimp only
    split <;> exact .other _ _ _ (by simp) (by simp)
  split
  · split <;> exact .other _ _ _ (by simp) (by simp)
  split
  · split <;> exact .other _ _ _ (by simp) (by simp)
  split
  · next form n hopen =>
    split
    · next len hlen => exact .comment (opener_of_opener? hopen) hlen
    · exact .other _ _ _ (by simp) (by simp)
  · split <;> exact .other _ _ _ (by simp) (by simp)

theorem trivia_of_blank {c : Char} {cs : List Char} {n : Nat} (h : read c cs = (.blank, n)) :
    Trivia (c :: cs.take n) := by
  have hread := reading_read c cs
  rw [h] at hread
  cases hread with
  | blank first =>
    refine .blank first (.of_blanks fun d hd => ?_)
    rw [← List.prefix_iff_eq_take.1 (List.takeWhile_prefix isBlank)] at hd
    exact List.mem_takeWhile_imp hd

theorem trivia_of_comment {c : Char} {cs : List Char} {n : Nat} (h : read c cs = (.comment, n)) :
    Trivia (c :: cs.take n) := by
  have hread := reading_read c cs
  rw [h] at hread
  cases hread with
  | @comment form m len opened closed =>
    have := Trivia.comment (Comment.closed_of_length? closed) .nil
    rw [← opened, List.append_nil, List.cons_append] at this
    rwa [List.take_add]

theorem ne_eof_of_token {c : Char} {cs : List Char} {kind : TokenKind} {value : TokenValue}
    {n : Nat} (h : read c cs = (.token kind value, n)) : kind ≠ .eof := by
  have hread := reading_read c cs
  rw [h] at hread
  cases hread <;> assumption

/-- An identifier starts with a character that can begin one, and takes all that go on with it. -/
theorem of_ident {c : Char} {cs : List Char} {value : TokenValue} {n : Nat}
    (h : read c cs = (.token .ident value, n)) :
    isNameStart c ∧ ∀ d ∈ (cs.drop n).head?, isNameStart d = false := by
  have hread := reading_read c cs
  rw [h] at hread
  cases hread with
  | name _ started => exact ⟨started, not_isNameStart_after cs⟩
  | other _ _ _ unnamed => exact absurd rfl unnamed

end Lexeme

end SimFront
