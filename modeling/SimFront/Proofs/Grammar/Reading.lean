import SimFront.Proofs.Grammar.Run

/-!
# Runs of the parsers that all rules are made of

Reading a token, expecting one, closing a construct, going round and recursion:
each runs in both modes, and the lemmas say which of them read a token for sure.
-/

namespace SimFront.Parser

variable {α β σ : Type} {p : Parser α} {s s' : ParserState} {n : Nat}
  {more : α → Prop} {at_ : TokenKind → Prop}

/-! ## Looking at the state -/

/-- The last step of most rules: the span is read off, and the result is made from it. -/
theorem spanFrom_pure_reads (start : Position) (g : Span → α) :
    Reads n (do pure (g (← spanFrom start))) := .inspect fun _ => .pure _

/-! ## Reading tokens -/

theorem bump_opens : Opens Any n bump := by
  intro s hs hk
  refine (bump_runs hs).mono fun _ s' _ h => ?_
  rw [h]
  exact (bump_advances hs hk).2

theorem bump_reads : Reads n bump := fun _ hs => (bump_runs hs).mono fun _ _ _ _ => trivial

/-- A rule that begins with a step over the current token. -/
theorem Opens.bump {f : Token → Parser α} (hf : ∀ t, Reads n (f t)) :
    Opens Any n (Parser.bump >>= f) := bump_opens.bind hf

theorem Starts.bump {f : Token → Parser α} (hf : ∀ t, Reads n (f t)) :
    Starts Any n (Parser.bump >>= f) := ⟨.bump hf, bump_reads.bind hf⟩

/-- Either the token is there and is read, or the state stays as it is. -/
theorem Runs.eat {k : TokenKind} {f : Bool → Parser α} {Q : α → ParserState → Prop}
    (hs : Below n s) (hk : k ≠ .eof)
    (hyes : ∀ s', Advances s s' → s'.rest.length < s.rest.length → Runs (f true) s' Q)
    (hno : s.kind ≠ k → Runs (f false) s Q) : Runs (eat k >>= f) s Q := by
  by_cases h : s.kind = k
  · have heat : Runs (Parser.eat k) s fun b s' => b = true ∧ s'.rest.length < s.rest.length := by
      refine .inspect ?_
      simp only [h, decide_true, if_true]
      refine (bump_runs hs).bind fun t s' _ hb => .pure ⟨rfl, ?_⟩
      rw [hb]
      exact (bump_advances hs (by rw [h]; exact hk)).2
    exact heat.bind fun b s' ha ⟨hb, hl⟩ => hb ▸ hyes s' ha hl
  · have heat : Runs (Parser.eat k) s fun b s' => b = false ∧ s' = s := by
      refine .inspect ?_
      simp only [h, decide_false]
      exact .pure ⟨rfl, rfl⟩
    exact heat.bind fun b s' _ ⟨hb, hs'⟩ => hb ▸ hs' ▸ hno h

theorem eat_strides {k : TokenKind} (hk : k ≠ .eof) : Strides (· = true) n (eat k) := by
  intro s hs
  refine .inspect ?_
  by_cases h : s.kind = k
  · simp only [h, decide_true, if_true]
    refine (bump_runs hs).bind fun t s' _ hb => .pure fun _ => ?_
    rw [hb]
    exact (bump_advances hs (by rw [h]; exact hk)).2
  · simp only [h, decide_false]
    exact .pure (by simp)

theorem eat_reads (k : TokenKind) : Reads n (eat k) := by
  refine .inspect fun _ => .ite (fun _ => ?_) fun _ => .pure _
  exact bump_reads.bind fun _ => .pure _

theorem eatMark_strides (m : Mark) : Strides (· = true) n (eatMark m) := eat_strides (by simp)

theorem eatMark_reads (m : Mark) : Reads n (eatMark m) := eat_reads _

theorem eatWord_reads (k : Keyword) : Reads n (eatWord k) := eat_reads _

theorem expectWith_reads (code : SyntaxCode) (k : TokenKind) : Reads n (expectWith code k) :=
  (eat_reads k).bind fun _ => .ite (fun _ => .pure _) fun _ => (fail_stays _ _).reads

theorem expectMark_reads (m : Mark) : Reads n (expectMark m) := expectWith_reads _ _

theorem expectWord_reads (k : Keyword) : Reads n (expectWord k) := expectWith_reads _ _

theorem semicolon_reads : Reads n semicolon := expectMark_reads _

theorem identOrMissing_reads : Reads n identOrMissing := by
  refine .inspect fun _ => .ite (fun _ => ?_) fun _ => .inspect fun _ => .pure _
  exact bump_reads.bind fun _ => .pure _

theorem identOr_reads (code : SyntaxCode) (expected : String) :
    Reads n (identOr code expected) := by
  unfold identOr
  refine .inspect fun _ => .ite (fun _ => identOrMissing_reads) fun _ => ?_
  exact (fail_stays _ _).reads.bind fun _ => identOrMissing_reads

theorem ident_reads : Reads n ident := identOr_reads _ _

/-- Where an identifier stands, reading one reads it. -/
theorem ident_opens : Opens (· = .ident) n ident := by
  intro s hs hk
  unfold ident identOr identOrMissing
  refine .inspect ?_
  simp only [hk, decide_true, if_true]
  refine .inspect ?_
  simp only [hk, decide_true, if_true]
  exact bump_opens.bind (fun _ => .pure _) s hs (by simp [Any, hk])

theorem ident_starts : Starts (· = .ident) n ident := ⟨ident_opens, ident_reads⟩

theorem closeWith_reads (k : Keyword) (opened : Span) : Reads n (closeWith k opened) := by
  refine (eatWord_reads _).bind fun _ => .ite (fun _ => ?_) fun _ => ?_
  · exact (eatWord_reads _).bind fun _ => .pure _
  · exact (failRelated_stays _ _ _).reads

theorem Reads.whenever {c : Parser Bool} (hc : Reads n c) (hp : Reads n p) :
    Reads n (whenever c p) :=
  hc.bind fun _ => .ite (fun _ => hp.bind fun _ => .pure _) fun _ => .pure _

/-! ## Skipping -/

theorem skip_advances (stop : TokenKind → Bool) (k : Nat) : ∀ s, Below n s →
    Advances s (skipUntil.skip stop s k) ∧ (skipUntil.skip stop s k).errors = s.errors := by
  induction k with
  | zero => exact fun s _ => ⟨.refl s, rfl⟩
  | succ k ih =>
    intro s hs
    unfold skipUntil.skip
    split
    · exact ⟨.refl s, rfl⟩
    · have hb := advances_bump hs
      obtain ⟨ha, he⟩ := ih s.bump (hs.advance hb)
      exact ⟨hb.trans ha, he.trans (bump_errors s)⟩

theorem skipUntil_reads (stop : TokenKind → Bool) : Reads n (skipUntil stop) := by
  intro s hs
  obtain ⟨ha, he⟩ := skip_advances stop s.rest.length s hs
  exact ⟨(), _, [], rfl, rfl, he, ha, ha.silent, trivial⟩

/-- Recovery skips at least one token, unless the text is at its end. -/
theorem recover_starts (c : Context) : Starts Any n (recover c) :=
  .bump fun _ => (skipUntil_reads _).bind fun _ => (eatMark_reads _).bind fun _ => .pure _

/-- A token that does not fit is reported and skipped. -/
theorem skipUnexpected_starts (code : SyntaxCode) (c : Context) {r : α} :
    Starts Any n (do failInContext code; recover c; pure r) :=
  (failInContext_stays _).bind_starts fun _ => (recover_starts _).bind fun _ => .pure _

/-- Where nothing was read since `s`, the token there can be skipped; else the rest has one
token less to count with. -/
theorem unlessRead_runs {q : Parser α} (hs : Below (n + 1) s) (hk : Any s.kind)
    (ha : Advances s s') (hp : Opens Any n p) (hq : Reads n q) :
    Runs (if s'.rest.length = s.rest.length then p else q) s' fun _ s'' =>
      s''.rest.length < s.rest.length := by
  split
  · next hl =>
    have hk' : Any s'.kind := by rwa [kind_congr (ha.rest_eq hl) ha.eof]
    exact (hp s' (hs.advance ha) hk').mono fun _ _ _ h => by omega
  · next hl =>
    have hlt : s'.rest.length < s.rest.length := by have := ha.length_le; omega
    refine (hq s' (hs.shorter ha hlt)).mono fun _ _ ha' _ => ?_
    have := ha'.length_le
    omega

/-! ## Going round -/

/-- Another round follows. -/
def Round.GoesOn : Round σ α → Prop
  | .stop _ => False
  | .next _ _ => True

/-- As many rounds as there are tokens are enough, since every round but the last reads
one. -/
theorem gatherAt_runs {round : σ → Parser (Round σ α)}
    (hr : ∀ x, Strides Round.GoesOn n (round x)) (fuel : Nat) : ∀ x s, Below n s →
    s.rest.length < fuel → Runs (gatherAt round fuel x) s fun _ _ => True := by
  induction fuel with
  | zero => intro x s _ hl; omega
  | succ fuel ih =>
    intro x s hs hl
    unfold gatherAt
    refine .inspect ((hr x s hs).bind fun r s' ha hstep => ?_)
    cases r with
    | stop found => exact .pure trivial
    | next x' found =>
      have hread : s'.rest.length < s.rest.length := hstep trivial
      have hmore := (ih x' s' (hs.advance ha) (by omega)).past hread
      exact hmore.bind fun _ _ _ _ => .pure trivial

theorem gather_reads {round : σ → Parser (Round σ α)}
    (hr : ∀ x, Strides Round.GoesOn n (round x)) (x : σ) : Reads n (gather round x) :=
  fun s hs => gatherAt_runs hr (s.rest.length + 1) x s hs (by omega)

theorem many_reads {round : Parser (Round Unit α)} (hr : Strides Round.GoesOn n round) :
    Reads n (many round) := gather_reads (fun _ => hr) ()

theorem stop_strides (found : Option α) :
    Strides Round.GoesOn n (pure (.stop found) : Parser (Round σ α)) := .pure id

theorem iterateAt_runs {step : α → Parser (Option α)}
    (hstep : ∀ a, Strides (·.isSome = true) n (step a)) (fuel : Nat) : ∀ a s, Below n s →
    s.rest.length < fuel → Runs (iterateAt step fuel a) s fun _ _ => True := by
  induction fuel with
  | zero => intro a s _ hl; omega
  | succ fuel ih =>
    intro a s hs hl
    unfold iterateAt
    refine .inspect ((hstep a s hs).bind fun r s' ha hread => ?_)
    cases r with
    | none => exact .pure trivial
    | some a' =>
      have hread : s'.rest.length < s.rest.length := hread rfl
      exact (ih a' s' (hs.advance ha) (by omega)).past hread

theorem iterate_reads {step : α → Parser (Option α)}
    (hstep : ∀ a, Strides (·.isSome = true) n (step a)) (a : α) : Reads n (iterate step a) :=
  fun s hs => iterateAt_runs hstep (s.rest.length + 1) a s hs (by omega)

/-- A comma and an element behind it are a round that reads the comma. -/
theorem commaRound_strides (hp : Reads n p) :
    Strides Round.GoesOn n (do if ← eatMark .comma then found (← p) else stopped) := by
  refine (eatMark_strides _).bind (fun _ _ => ?_) fun a ha => ?_
  · exact .ite (fun _ => hp.bind fun _ => .pure _) fun _ => (stop_strides none).reads
  · simp only [ha]
    exact stop_strides none

theorem commaSeparated_reads (hp : Reads n p) : Reads n (commaSeparated p) :=
  hp.bind fun _ => (many_reads (commaRound_strides hp)).bind fun _ => .pure _

theorem commaSeparated_starts (hp : Starts at_ n p) : Starts at_ n (commaSeparated p) :=
  hp.bind fun _ => (many_reads (commaRound_strides hp.reads)).bind fun _ => .pure _

/-! ## Recursion -/

/-- A rule that uses itself with one token less than it is given runs, since its depth is
bounded by the tokens left. -/
theorem recurse_reads {rule : Parser α → Parser α}
    (hr : ∀ n p, Reads n p → Reads (n + 1) (rule p)) : Reads n (recurse rule) := by
  have key : ∀ fuel, Reads fuel (recurseAt rule fuel) := by
    intro fuel
    induction fuel with
    | zero => intro s hs; exact absurd hs.length (Nat.not_lt_zero _)
    | succ fuel ih =>
      intro s hs
      have hlength := hs.length
      have hself : Reads s.rest.length (past s.rest.length (recurseAt rule fuel)) := by
        intro s' hs'
        have hread := hs'.length
        exact (ih s' ⟨hs'.eof, by omega⟩).past hread
      exact hr s.rest.length _ hself s ⟨hs.eof, Nat.lt_succ_self _⟩
  exact fun s hs => key (s.rest.length + 1) s ⟨hs.eof, by omega⟩

end SimFront.Parser
