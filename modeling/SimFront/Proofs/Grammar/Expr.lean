import SimFront.Grammar.Expr
import SimFront.Proofs.Grammar.Reading

/-!
# Runs of the rules for expressions

Every rule for expressions runs in both modes when the parser of nested
expressions does (`e` below).  Nested expressions come after an opening token, so
the recursion ties up, and `expr` runs whatever tokens are left (`expr_reads`).
-/

namespace SimFront.Grammar

open SimFront.Parser

variable {n : Nat} {e : Parser Expr}

/-! ## Arguments -/

theorem arguments_starts (he : Reads n e) : Starts Any n (arguments e) := by
  refine .bump fun _ => ?_
  have hargs : Reads n (do
      if ← atKind (.mark .rParen) then pure [] else commaSeparated e) :=
    .inspect fun _ => .ite (fun _ => .pure _) fun _ => commaSeparated_reads he
  refine hargs.within.bind fun args => ?_
  refine (eatMark_reads _).bind fun _ => .ite (fun _ => .pure _) fun _ => ?_
  exact (failRelated_stays _ _ _).reads.bind fun _ => .pure _

/-- With at most `n` tokens left, the arguments count with one less. -/
theorem arguments?_reads (he : Reads n e) : Reads (n + 1) (arguments? e) := by
  intro s hs
  refine .inspect ?_
  split
  · next h =>
    have hk : s.kind = .mark .lParen := by simpa using h
    exact (arguments_starts he).opens.runs hs (by simp [Any, hk])
  · exact .pure trivial

/-! ## Selectors -/

theorem selector?_strides (he : Reads n e) (start : Position) (base : Expr) :
    Strides (·.isSome = true) (n + 1) (selector? e start base) := by
  intro s hs
  refine .inspect ?_
  split
  · next hk =>
    refine Opens.strides ?_ hs (show Any s.kind by simp [Any, hk])
    refine .bump fun _ => (commaSeparated_reads he).bind fun _ => ?_
    exact (expectMark_reads _).bind fun _ => spanFrom_pure_reads _ _
  · next hk =>
    refine .inspect ?_
    split
    · refine Opens.strides ?_ hs (show Any s.kind by simp [Any, hk])
      exact .bump fun _ => ident_reads.bind fun _ => spanFrom_pure_reads _ _
    · exact .pure (by simp)
  · next hk =>
    refine Opens.strides ?_ hs (show Any s.kind by simp [Any, hk])
    exact .bump fun _ => spanFrom_pure_reads _ _
  · exact .pure (by simp)

theorem postfixStep?_strides (he : Reads n e) (start : Position) (base : Expr) :
    Strides (·.isSome = true) (n + 1) (postfixStep? e start base) := by
  intro s hs
  refine .inspect ?_
  split
  · next h =>
    have hk : s.kind = .mark .lParen := by simpa using h
    refine Opens.strides ?_ hs (show Any s.kind by simp [Any, hk])
    exact (arguments_starts he).opens.bind fun _ => spanFrom_pure_reads _ _
  · exact selector?_strides he start base s hs

theorem designator_reads (he : Reads n e) : Reads (n + 1) (designator e) := by
  refine .inspect fun start => .inspect fun _ => .ite (fun _ => ?_) fun _ => ?_
  · refine bump_reads.bind fun _ => (Reads.pure _).bind fun _ => ?_
    exact iterate_reads (selector?_strides he start) _
  · refine ident_reads.bind fun _ => (Reads.pure _).bind fun _ => ?_
    exact iterate_reads (selector?_strides he start) _

theorem methodCall_reads (he : Reads n e) (start : Position) :
    Reads (n + 1) (methodCall e start) := by
  refine (designator_reads he).bind fun _ => (eatWord_reads _).bind fun _ => ?_
  refine ident_reads.bind fun _ => (arguments?_reads he).bind fun _ => ?_
  exact spanFrom_pure_reads _ _

/-! ## Primaries -/

theorem rangeOrValue_reads (he : Reads n e) : Reads n (rangeOrValue e) := by
  refine .inspect fun _ => he.bind fun _ => (eatMark_reads _).bind fun _ => ?_
  exact .ite (fun _ => he.bind fun _ => spanFrom_pure_reads _ _) fun _ => .pure _

theorem setLiteral_starts (he : Reads n e) : Starts Any n (setLiteral e) := by
  refine .inspect fun _ => .bump fun _ => .inspect fun _ => .ite (fun _ => ?_) fun _ => ?_
  · refine (Reads.pure _).bind fun _ => ?_
    exact (expectMark_reads _).bind fun _ => spanFrom_pure_reads _ _
  · refine (commaSeparated_reads (rangeOrValue_reads he)).bind fun _ => ?_
    exact (expectMark_reads _).bind fun _ => spanFrom_pure_reads _ _

theorem integerLiteral_reads : Reads n integerLiteral := by
  intro s hs
  refine Runs.bumped ?_
  split
  · exact (bump_reads.bind fun _ => .pure _) s hs
  · exact bump_report_runs hs rfl _

/-- A literal or another primary of one token. -/
theorem bump_pure_reads (g : Token → Expr) : Reads n (do pure (g (← bump))) :=
  bump_reads.bind fun _ => .pure _

theorem primary_reads (he : Reads n e) : Reads (n + 1) (primary e) := by
  intro s hs
  refine .inspect (.inspect ?_)
  split
  · exact (ident_reads.bind fun _ => .pure _) s hs
  · exact integerLiteral_reads s hs
  iterate 10 exact bump_pure_reads _ s hs
  · next hk =>
    refine Opens.runs ?_ hs (show Any s.kind by simp [Any, hk])
    exact .bump fun _ => he.bind fun _ => (expectMark_reads _).bind fun _ => .pure _
  · next hk => exact (setLiteral_starts he).opens.runs hs (by simp [Any, hk])
  · next hk =>
    refine Opens.runs ?_ hs (show Any s.kind by simp [Any, hk])
    exact .bump fun _ => (methodCall_reads he _).of_succ.bind fun _ => .pure _
  · next hk =>
    refine Opens.runs ?_ hs (show Any s.kind by simp [Any, hk])
    refine .bump fun _ => ident_reads.bind fun _ => ?_
    exact (arguments?_reads he).of_succ.bind fun _ => spanFrom_pure_reads _ _
  · exact ((failInContext_stays _).reads.bind fun _ => .pure _) s hs

theorem postfixed_reads (he : Reads n e) : Reads (n + 1) (postfixed e) :=
  .inspect fun start => (primary_reads he).bind fun _ =>
    iterate_reads (postfixStep?_strides he start) _

/-! ## Operators -/

/-- A round that reads an operator before a value. -/
theorem unaryRound_strides : Strides Round.GoesOn n (do
    match unaryOp? (← kind) with
    | some op => do
      let t ← bump
      found (op, t.span.start)
    | none => stopped) := by
  intro s hs
  refine .inspect ?_
  split
  · next op hop =>
    have hk : Any s.kind := by
      intro hk
      simp [hk, unaryOp?] at hop
    exact Opens.strides (.bump fun _ => .pure _) hs.succ hk
  · exact stop_strides none s hs

theorem foldrM_reads {γ : Type} {g : γ → Expr → Parser Expr} (hg : ∀ c x, Reads n (g c x))
    (cs : List γ) (x : Expr) : Reads n (cs.foldrM g x) := by
  unfold List.foldrM
  induction cs.reverse generalizing x with
  | nil => exact .pure _
  | cons c cs ih => exact (hg c x).bind fun _ => ih _

theorem unary_reads (he : Reads n e) : Reads (n + 1) (unary e) := by
  refine (many_reads unaryRound_strides).bind fun ops => (postfixed_reads he).bind fun _ => ?_
  exact foldrM_reads (fun _ _ => spanFrom_pure_reads _ _) ops _

/-- No level takes the end of the text for an operator. -/
theorem levels_eof : ∀ op? ∈ levels, op? .eof = none := by
  simp [levels]

theorem leftAssociative_reads {op? : TokenKind → Option BinaryOp} (hop : op? .eof = none)
    (ho : Reads n e) : Reads n (leftAssociative op? e) := by
  refine .inspect fun start => ho.bind fun first => iterate_reads (fun left => ?_) _
  intro s hs
  refine .inspect ?_
  split
  · exact .pure (by simp)
  · next op hk =>
    have hk : Any s.kind := by
      intro h
      rw [h, hop] at hk
      cases hk
    refine Opens.strides (.bump fun _ => .inspect fun _ => .ite (fun _ => ?_) fun _ => ?_) hs.succ hk
    · refine (fail_stays _ _).reads.bind fun _ => ho.bind fun _ => spanFrom_pure_reads _ _
    · exact ho.bind fun _ => spanFrom_pure_reads _ _

theorem binary_reads (he : Reads n e) (ops : List (TokenKind → Option BinaryOp))
    (hops : ∀ op? ∈ ops, op? .eof = none) : Reads (n + 1) (binary e ops) := by
  induction ops with
  | nil => exact unary_reads he
  | cons op? tighter ih =>
    refine leftAssociative_reads (hops _ List.mem_cons_self) (ih fun op?' h => ?_)
    exact hops _ (List.mem_cons_of_mem _ h)

theorem exprRule_reads (he : Reads n e) : Reads (n + 1) (exprRule e) :=
  (binary_reads he levels levels_eof).within

/-- Expressions run in both modes, whatever tokens are left. -/
theorem expr_reads : Reads n expr := recurse_reads fun _ _ => exprRule_reads

end SimFront.Grammar
