import SimFront.Proofs.Grammar.Course
import SimFront.Proofs.Grammar.Module

/-!
# The constructs being read

Every rule of the grammar opens the constructs that it is inside of with `within`, and looks at
the stack for a misfit alone.  A rule that reports misfits of its own is charted inside of the
construct that its misfits belong to.  One that opens this construct itself, or has no misfits, is
charted anywhere: expressions, types, statement lists and local declarations (`expr_charted`,
`typeSpec_charted`, `statements_charted`, `locals_charted`), and so a whole module, around which
nothing is open (`module_charted`).

As the rules run to an end too, each leaves the stack as it was, and a misfit names the innermost
construct around it, in any text (`contexts_restored`).
-/

namespace SimFront.Grammar

open SimFront.Parser

variable {cs : List Context} {c : Context}

/-! ## Expressions -/

section Expr

variable {e : Parser Expr} (he : ∀ cs, Charted cs e)
include he

theorem arguments_charted : Charted cs (arguments e) := by
  have hargs : Charted (.arguments :: cs) (do
      if ← atKind (.mark .rParen) then pure [] else commaSeparated e) :=
    .inspect rfl fun _ => .ite (.pure _) (commaSeparated_charted (he _))
  refine bump_charted.bind fun _ => hargs.within.bind fun _ => ?_
  refine (eat_charted _).bind fun _ => .ite (.pure _) ?_
  exact (failRelated_charted _ _ _).bind fun _ => .pure _

theorem arguments?_charted : Charted cs (arguments? e) :=
  .inspect rfl fun _ => .ite (arguments_charted he) (.pure _)

theorem selector?_charted (start : Position) (base : Expr) :
    Charted cs (selector? e start base) := by
  refine .inspect rfl fun k => ?_
  split
  · refine bump_charted.bind fun _ => (commaSeparated_charted (he _)).bind fun _ => ?_
    exact (expect_charted _).bind fun _ => spanFrom_pure_charted _ _
  · refine .inspect rfl fun _ => .ite ?_ (.pure _)
    exact bump_charted.bind fun _ => ident_charted.bind fun _ => spanFrom_pure_charted _ _
  · exact bump_charted.bind fun _ => spanFrom_pure_charted _ _
  · exact .pure _

theorem postfixStep?_charted (start : Position) (base : Expr) :
    Charted cs (postfixStep? e start base) :=
  .inspect rfl fun _ => .ite ((arguments_charted he).bind fun _ => spanFrom_pure_charted _ _)
    (selector?_charted he _ _)

theorem designator_charted : Charted cs (designator e) := by
  refine .inspect rfl fun start => .inspect rfl fun _ => .ite ?_ ?_
  · refine bump_charted.bind fun _ => (Charted.pure _).bind fun _ => ?_
    exact iterate_charted (selector?_charted he start) _
  · refine ident_charted.bind fun _ => (Charted.pure _).bind fun _ => ?_
    exact iterate_charted (selector?_charted he start) _

theorem methodCall_charted (start : Position) : Charted cs (methodCall e start) := by
  refine (designator_charted he).bind fun _ => (eat_charted _).bind fun _ => ?_
  refine ident_charted.bind fun _ => (arguments?_charted he).bind fun _ => ?_
  exact spanFrom_pure_charted _ _

theorem rangeOrValue_charted : Charted cs (rangeOrValue e) := by
  refine .inspect rfl fun _ => (he _).bind fun _ => (eat_charted _).bind fun _ => ?_
  exact .ite ((he _).bind fun _ => spanFrom_pure_charted _ _) (.pure _)

theorem setLiteral_charted : Charted cs (setLiteral e) := by
  refine .inspect rfl fun _ => bump_charted.bind fun _ => .inspect rfl fun _ => .ite ?_ ?_
  · refine (Charted.pure _).bind fun _ => ?_
    exact (expect_charted _).bind fun _ => spanFrom_pure_charted _ _
  · refine (commaSeparated_charted (rangeOrValue_charted he)).bind fun _ => ?_
    exact (expect_charted _).bind fun _ => spanFrom_pure_charted _ _

omit he in
theorem integerLiteral_charted : Charted cs integerLiteral := by
  refine bump_charted.bind fun t => ?_
  split
  · exact .pure _
  · exact (report_charted _).bind fun _ => .pure _

omit he in
/-- A literal or another primary of one token. -/
theorem bump_pure_charted (g : Token → Expr) : Charted cs (do pure (g (← bump))) :=
  bump_charted.bind fun _ => .pure _

theorem primary_charted : Charted (.expression :: cs) (primary e) := by
  refine .inspect rfl fun _ => .inspect rfl fun k => ?_
  split
  · exact ident_charted.bind fun _ => .pure _
  · exact integerLiteral_charted
  iterate 10 exact bump_pure_charted _
  · refine bump_charted.bind fun _ => (he _).bind fun _ => ?_
    exact (expect_charted _).bind fun _ => .pure _
  · exact setLiteral_charted he
  · exact bump_charted.bind fun _ => (methodCall_charted he _).bind fun _ => .pure _
  · refine bump_charted.bind fun _ => ident_charted.bind fun _ => ?_
    exact (arguments?_charted he).bind fun _ => spanFrom_pure_charted _ _
  · exact (failInContext_charted rfl).bind fun _ => .pure _

theorem postfixed_charted : Charted (.expression :: cs) (postfixed e) :=
  .inspect rfl fun start => (primary_charted he).bind fun _ =>
    iterate_charted (postfixStep?_charted he start) _

omit he in
theorem foldrM_charted {γ : Type} {g : γ → Expr → Parser Expr} (hg : ∀ x y, Charted cs (g x y))
    (xs : List γ) (y : Expr) : Charted cs (xs.foldrM g y) := by
  unfold List.foldrM
  induction xs.reverse generalizing y with
  | nil => exact .pure _
  | cons x xs ih => exact (hg x y).bind fun _ => ih _

theorem unary_charted : Charted (.expression :: cs) (unary e) := by
  have hsigns : Charted (.expression :: cs) signs := by
    refine many_charted (.inspect rfl fun _ => ?_)
    split
    · exact bump_charted.bind fun _ => .pure _
    · exact .pure _
  refine hsigns.bind fun ops => (postfixed_charted he).bind fun _ => ?_
  exact foldrM_charted (fun _ _ => spanFrom_pure_charted _ _) ops _

omit he in
theorem leftAssociative_charted (op? : TokenKind → Option BinaryOp) {operand : Parser Expr}
    (ho : Charted cs operand) : Charted cs (leftAssociative op? operand) := by
  refine .inspect rfl fun start => ho.bind fun _ => iterate_charted (fun left => ?_) _
  refine .inspect rfl fun k => ?_
  split
  · exact .pure _
  · have hright (op : BinaryOp) : Charted cs (do
        let right ← operand
        pure (some (Expr.binary op left right (← spanFrom start)))) :=
      ho.bind fun _ => spanFrom_pure_charted _ _
    refine bump_charted.bind fun _ => .inspect rfl fun _ => .ite ?_ (hright _)
    exact (fail_charted _ _).bind fun _ => hright _

theorem binary_charted (ops : List (TokenKind → Option BinaryOp)) :
    Charted (.expression :: cs) (binary e ops) := by
  induction ops with
  | nil => exact unary_charted he
  | cons op? tighter ih => exact leftAssociative_charted op? ih

end Expr

/-- Expressions are charted wherever they stand. -/
theorem expr_charted : Charted cs expr :=
  recurse_charted fun _ he _ => (binary_charted he levels).within

/-! ## Types -/

theorem qualIdent_charted : Charted cs qualIdent := by
  refine .inspect rfl fun _ => ident_charted.bind fun _ => ?_
  refine .inspect rfl fun _ => .inspect rfl fun _ => .ite ?_ (.pure _)
  exact bump_charted.bind fun _ => ident_charted.bind fun _ => spanFrom_pure_charted _ _

section TypeSpec

variable {ty : Parser TypeSpec} (ht : ∀ cs, Charted cs ty)
include ht

theorem param_charted : Charted cs (param ty) := by
  have hnames : Charted cs (many do
      if (← atKind (.mark .comma)) && (← kindAt 1) = .ident then
        let _ ← bump
        found (← ident)
      else stopped) := by
    refine many_charted (.inspect rfl fun _ => .inspect rfl fun _ => .ite ?_ (.pure _))
    exact bump_charted.bind fun _ => ident_charted.bind fun _ => .pure _
  have hrest (mode : ParamMode) (start : Position) : Charted cs (do
      let first ← ident
      let more ← many do
        if (← atKind (.mark .comma)) && (← kindAt 1) = .ident then
          let _ ← bump
          found (← ident)
        else stopped
      expectMark .colon
      let t ← ty
      pure (Param.mk mode (first :: more) t (← spanFrom start))) := by
    refine ident_charted.bind fun _ => hnames.bind fun _ => (expect_charted _).bind fun _ => ?_
    exact (ht _).bind fun _ => spanFrom_pure_charted _ _
  refine .inspect rfl fun start => .inspect rfl fun k => ?_
  split
  iterate 3 exact bump_charted.bind fun _ => (Charted.pure _).bind fun mode => hrest mode start
  exact (Charted.pure _).bind fun mode => hrest mode start

omit ht in
theorem closeParams_charted (opened : Span) : Charted cs (closeParams opened) := by
  have hclose : Charted cs (do
      let _ ← eatMark .rParen
      pure ()) := (eat_charted _).bind fun _ => .pure _
  refine .inspect rfl fun _ => .ite hclose ?_
  exact (failRelated_charted _ _ _).bind fun _ => (skipUntil_charted _).bind fun _ => hclose

theorem params_charted : Charted cs (params ty) := by
  have hround : Charted (.parameters :: cs) (paramRound ty) := by
    refine .inspect rfl fun _ => .ite (.pure _) ((param_charted ht).bind fun _ => ?_)
    refine (eat_charted _).bind fun _ => .ite (.pure _) ?_
    exact (eat_charted _).bind fun _ => .ite (.pure _) (.pure _)
  refine Charted.within (bump_charted.bind fun _ => (many_charted hround).bind fun _ => ?_)
  exact (closeParams_charted _).bind fun _ => .pure _

theorem params?_charted : Charted cs (params? ty) :=
  .inspect rfl fun _ => .ite (params_charted ht) (.pure _)

theorem result?_charted : Charted cs (result? ty) := .whenever (eat_charted _) (ht _)

theorem methodHeading_charted : Charted cs (methodHeading ty) := by
  refine .inspect rfl fun _ => bump_charted.bind fun _ => (expectWith_charted _ _).bind fun _ => ?_
  refine ident_charted.bind fun _ => (params?_charted ht).bind fun _ => ?_
  exact (result?_charted ht).bind fun _ => spanFrom_pure_charted _ _

theorem fieldDecl_charted : Charted cs (fieldDecl ty) := by
  refine .inspect rfl fun _ => (commaSeparated_charted ident_charted).bind fun _ => ?_
  exact (expect_charted _).bind fun _ => (ht _).bind fun _ => spanFrom_pure_charted _ _

omit ht in
theorem memberEnd_charted : Charted cs memberEnd :=
  .inspect rfl fun _ => .ite (.pure _) (expect_charted _)

omit ht in
/-- A token that does not fit is reported and skipped. -/
theorem skipUnexpected_charted {α : Type} {code : SyntaxCode} (hcode : misfitCode? c = some code)
    (r : Context) (a : α) : Charted (c :: cs) (do failInContext code; recover r; pure a) :=
  (failInContext_charted hcode).bind fun _ => (recover_charted _).bind fun _ => .pure _

theorem recordType_charted : Charted cs (recordType ty) := by
  have hround : Charted (.recordBody :: cs) (recordRound ty) := by
    refine .inspect rfl fun _ => .ite (.pure _) ((eat_charted _).bind fun _ => .ite (.pure _) ?_)
    refine .inspect rfl fun _ => .ite ?_ (skipUnexpected_charted rfl _ _)
    exact (fieldDecl_charted ht).bind fun _ => memberEnd_charted.bind fun _ => .pure _
  refine .inspect rfl fun _ => bump_charted.bind fun _ => ?_
  refine (many_charted hround).within.bind fun _ => ?_
  exact (closeWith_charted _ _).bind fun _ => spanFrom_pure_charted _ _

theorem members_charted : Charted (.objectBody :: cs) (many (memberRound ty)) := by
  have hheading : Charted (.objectBody :: cs) (do
      let h ← methodHeading ty
      memberEnd
      found (ObjectMember.method h)) :=
    (methodHeading_charted ht).bind fun _ => memberEnd_charted.bind fun _ => .pure _
  refine many_charted (.inspect rfl fun k => ?_)
  split
  iterate 5 exact .pure _
  · exact bump_charted.bind fun _ => .pure _
  iterate 3 exact hheading
  · exact (fieldDecl_charted ht).bind fun _ => memberEnd_charted.bind fun _ => .pure _
  · exact skipUnexpected_charted rfl _ _

omit ht in
theorem bases?_charted : Charted cs bases? := by
  refine (eat_charted _).bind fun _ => .ite ?_ (.pure _)
  refine (commaSeparated_charted qualIdent_charted).bind fun _ => ?_
  exact (expect_charted _).bind fun _ => .pure _

theorem objectType_charted : Charted cs (objectType ty) := by
  have hpublic : Charted (.objectBody :: cs) (publicSection? ty) := by
    refine (members_charted ht).bind fun members => ?_
    split
    · exact .pure _
    · exact spanFrom_pure_charted _ _
  have hsection : Charted (.objectBody :: cs) (sectionRound ty) := by
    refine .inspect rfl fun k => ?_
    split
    · exact .pure _
    · refine bump_charted.bind fun _ => (members_charted ht).bind fun _ => ?_
      exact .inspect rfl fun _ => .pure _
  refine .inspect rfl fun _ => bump_charted.bind fun _ => bases?_charted.bind fun _ => ?_
  refine (eat_charted _).bind fun _ => ?_
  refine Charted.bind (.within (hpublic.bind fun _ => ?_)) fun _ => ?_
  · exact (many_charted hsection).bind fun _ => .pure _
  · exact (closeWith_charted _ _).bind fun _ => spanFrom_pure_charted _ _

omit ht in
theorem bounds_charted : Charted cs bounds :=
  expr_charted.bind fun _ => (expect_charted _).bind fun _ => expr_charted.bind fun _ => .pure _

omit ht in
theorem subrange_charted : Charted cs subrange :=
  .inspect rfl fun _ => bounds_charted.bind fun _ => spanFrom_pure_charted _ _

omit ht in
theorem arrayIndex_charted : Charted cs arrayIndex := by
  refine .inspect rfl fun _ => .inspect rfl fun _ => .ite ?_ ?_
  · exact qualIdent_charted.bind fun _ => .pure _
  · exact bounds_charted.bind fun _ => spanFrom_pure_charted _ _

theorem arrayType_charted : Charted cs (arrayType ty) := by
  have hrest (bracketed : Bool) (start : Position) (indices : List ArrayIndex) : Charted cs (do
      if bracketed then expectMark .rBracket
      expectWord .OF
      let element ← ty
      pure (TypeSpec.array indices element (← spanFrom start))) := by
    refine .ite ((expect_charted _).bind fun _ => ?_) ?_
    all_goals exact (expect_charted _).bind fun _ => (ht _).bind fun _ => spanFrom_pure_charted _ _
  refine .inspect rfl fun start => bump_charted.bind fun _ => ?_
  refine (eat_charted _).bind fun bracketed => ?_
  refine .inspect rfl fun _ => .inspect rfl fun _ => .ite ?_ ?_
  · exact (Charted.pure _).bind fun indices => hrest bracketed start indices
  · refine (commaSeparated_charted arrayIndex_charted).bind fun indices => ?_
    exact hrest bracketed start indices

omit ht in
theorem enumType_charted : Charted cs enumType := by
  refine .inspect rfl fun _ => (eat_charted _).bind fun _ => (expect_charted _).bind fun _ => ?_
  refine (commaSeparated_charted ident_charted).bind fun _ => ?_
  exact (expect_charted _).bind fun _ => spanFrom_pure_charted _ _

theorem typeRule_charted : Charted cs (typeRule ty) := by
  refine Charted.within (.inspect rfl fun _ => .inspect rfl fun k => ?_)
  split
  · refine .inspect rfl fun _ => .ite subrange_charted ?_
    exact qualIdent_charted.bind fun _ => .pure _
  iterate 3 exact subrange_charted
  · refine .inspect rfl fun _ => bump_charted.bind fun _ => bounds_charted.bind fun _ => ?_
    exact (expect_charted _).bind fun _ => spanFrom_pure_charted _ _
  · exact arrayType_charted ht
  · exact recordType_charted ht
  iterate 2
    refine bump_charted.bind fun _ => (expect_charted _).bind fun _ => (ht _).bind fun _ => ?_
    exact spanFrom_pure_charted _ _
  iterate 2 exact enumType_charted
  · refine bump_charted.bind fun _ => (params?_charted ht).bind fun _ => ?_
    exact (result?_charted ht).bind fun _ => spanFrom_pure_charted _ _
  · exact (objectType_charted ht).bind fun _ => .pure _
  · exact (fail_charted _ _).bind fun _ => .pure _

end TypeSpec

/-- Types are charted wherever they stand. -/
theorem typeSpec_charted : Charted cs typeSpec := recurse_charted fun _ ht _ => typeRule_charted ht

/-! ## Statements -/

/-- The last step of a statement that is closed by END and its own word. -/
theorem closed_charted {α : Type} (k : Keyword) (opened : Span) (start : Position) (g : Span → α) :
    Charted cs (do closeWith k opened; pure (g (← spanFrom start))) :=
  (closeWith_charted _ _).bind fun _ => spanFrom_pure_charted _ _

theorem direction_charted : Charted cs direction :=
  (eat_charted _).bind fun _ => .ite (.pure _) ((expect_charted _).bind fun _ => .pure _)

theorem waitSubject_charted : Charted cs waitSubject := by
  refine (eat_charted _).bind fun _ => .ite (.inspect rfl fun _ => ?_) ?_
  · exact (methodCall_charted (fun _ => expr_charted) _).bind fun _ => .pure _
  · exact (expect_charted _).bind fun _ => expr_charted.bind fun _ => .pure _

theorem tellStmt_charted : Charted cs tellStmt := by
  refine bump_charted.bind fun _ => (methodCall_charted (fun _ => expr_charted) _).bind fun _ => ?_
  refine (Charted.whenever (eat_charted _) expr_charted).bind fun _ => ?_
  exact spanFrom_pure_charted _ _

theorem askStmt_charted : Charted cs askStmt :=
  bump_charted.bind fun _ => (methodCall_charted (fun _ => expr_charted) _).bind fun _ =>
    spanFrom_pure_charted _ _

theorem inParens_charted : Charted cs inParens :=
  (expect_charted _).bind fun _ => expr_charted.bind fun _ => (expect_charted _).bind fun _ =>
    .pure _

theorem newStmt_charted : Charted cs newStmt :=
  bump_charted.bind fun _ => inParens_charted.bind fun _ => spanFrom_pure_charted _ _

theorem disposeStmt_charted : Charted cs disposeStmt :=
  bump_charted.bind fun _ => inParens_charted.bind fun _ => spanFrom_pure_charted _ _

theorem inheritedStmt_charted : Charted cs inheritedStmt := by
  refine bump_charted.bind fun _ => ident_charted.bind fun _ => ?_
  exact (arguments?_charted fun _ => expr_charted).bind fun _ => spanFrom_pure_charted _ _

theorem returnStmt_charted : Charted cs returnStmt := by
  refine bump_charted.bind fun _ => .inspect rfl fun _ => .inspect rfl fun _ => .ite ?_ ?_
  · exact (Charted.pure _).bind fun _ => spanFrom_pure_charted _ _
  · exact expr_charted.bind fun _ => (Charted.pure _).bind fun _ => spanFrom_pure_charted _ _

theorem exitStmt_charted : Charted cs exitStmt :=
  bump_charted.bind fun _ => spanFrom_pure_charted _ _

theorem terminateStmt_charted : Charted cs terminateStmt :=
  bump_charted.bind fun _ => spanFrom_pure_charted _ _

/-- The place that a statement starts with is a name or SELF, so that it is no misfit. -/
theorem assignOrCall_charted {s : ParserState} (hk : s.kind = .ident ∨ s.kind = .word .SELF) :
    ChartedAt cs assignOrCall s := by
  have hprimary : ChartedAt cs (primary expr) s := by
    refine .inspect rfl (.inspect rfl ?_)
    rcases hk with hk | hk <;> rw [hk]
    · exact ident_charted.bind (fun _ => .pure _) s
    · exact bump_pure_charted _ s
  refine .inspect rfl (.bind (.inspect rfl (hprimary.bind fun _ => ?_)) fun _ => ?_)
  · exact iterate_charted (postfixStep?_charted (fun _ => expr_charted) _) _
  · refine (eat_charted _).bind fun _ => .ite ?_ (spanFrom_pure_charted _ _)
    exact expr_charted.bind fun _ => spanFrom_pure_charted _ _

section Stmt

variable {b : Parser (List Stmt)} (hb : ∀ cs, Charted cs b)
include hb

theorem condBranch_charted : Charted cs (condBranch b) := by
  refine .inspect rfl fun _ => bump_charted.bind fun _ => expr_charted.bind fun _ => ?_
  exact (expect_charted _).bind fun _ => (hb _).bind fun _ => spanFrom_pure_charted _ _

theorem ifStmt_charted : Charted cs (ifStmt b) := by
  have helsif : Charted cs (do
      if ← atKind (.word .ELSIF) then found (← condBranch b) else stopped) :=
    .inspect rfl fun _ => .ite ((condBranch_charted hb).bind fun _ => .pure _) (.pure _)
  refine .inspect rfl fun _ => (condBranch_charted hb).bind fun _ => ?_
  refine (many_charted helsif).bind fun _ => ?_
  exact (Charted.whenever (eat_charted _) (hb _)).bind fun _ => closed_charted _ _ _ _

theorem caseStmt_charted : Charted cs (caseStmt b) := by
  have harm : Charted cs (caseArm b) := by
    refine .inspect rfl fun _ => (eat_charted _).bind fun _ => ?_
    refine (commaSeparated_charted (rangeOrValue_charted fun _ => expr_charted)).bind fun _ => ?_
    exact (expect_charted _).bind fun _ => (hb _).bind fun _ => spanFrom_pure_charted _ _
  have hround : Charted cs (caseRound b) := by
    refine (eat_charted _).bind fun _ => .inspect rfl fun _ => .ite (.pure _) ?_
    refine .inspect rfl fun _ => harm.bind fun _ => .inspect rfl fun _ => .ite ?_ (.pure _)
    exact (recover_charted _).bind fun _ => .pure _
  have hotherwise : Charted cs (otherwise? b) := by
    refine .whenever ?_ ((eat_charted _).bind fun _ => hb _)
    exact (eat_charted _).bind fun _ => .ite (.pure _) (eat_charted _)
  refine bump_charted.bind fun _ => expr_charted.bind fun _ => (eat_charted _).bind fun _ => ?_
  refine (many_charted hround).bind fun _ => hotherwise.bind fun _ => ?_
  exact closed_charted _ _ _ _

theorem whileStmt_charted : Charted cs (whileStmt b) :=
  bump_charted.bind fun _ => expr_charted.bind fun _ => (eat_charted _).bind fun _ =>
    (hb _).bind fun _ => closed_charted _ _ _ _

theorem withStmt_charted : Charted cs (withStmt b) :=
  bump_charted.bind fun _ => expr_charted.bind fun _ => (eat_charted _).bind fun _ =>
    (hb _).bind fun _ => closed_charted _ _ _ _

theorem forStmt_charted : Charted cs (forStmt b) := by
  refine bump_charted.bind fun _ => ident_charted.bind fun _ => (expect_charted _).bind fun _ => ?_
  refine expr_charted.bind fun _ => direction_charted.bind fun _ => expr_charted.bind fun _ => ?_
  refine (Charted.whenever (eat_charted _) expr_charted).bind fun _ => ?_
  exact (eat_charted _).bind fun _ => (hb _).bind fun _ => closed_charted _ _ _ _

theorem forEachStmt_charted : Charted cs (forEachStmt b) := by
  refine bump_charted.bind fun _ => ident_charted.bind fun _ => (expect_charted _).bind fun _ => ?_
  refine expr_charted.bind fun _ => (eat_charted _).bind fun _ => (hb _).bind fun _ => ?_
  exact closed_charted _ _ _ _

theorem repeatStmt_charted : Charted cs (repeatStmt b) :=
  bump_charted.bind fun _ => (hb _).bind fun _ => (expect_charted _).bind fun _ =>
    expr_charted.bind fun _ => spanFrom_pure_charted _ _

theorem loopStmt_charted : Charted cs (loopStmt b) :=
  bump_charted.bind fun _ => (hb _).bind fun _ => closed_charted _ _ _ _

theorem waitStmt_charted : Charted cs (waitStmt b) := by
  have hinterrupt : Charted cs (interrupt? b) :=
    .whenever (eat_charted _) ((expect_charted _).bind fun _ => hb _)
  refine bump_charted.bind fun _ => waitSubject_charted.bind fun _ => (hb _).bind fun _ => ?_
  exact hinterrupt.bind fun _ => closed_charted _ _ _ _

theorem statement_charted : Charted (.statements :: cs) (statement b) := by
  refine fun s => .inspect rfl ?_
  split
  · exact (ifStmt_charted hb).map s
  · exact (whileStmt_charted hb).map s
  · exact (forStmt_charted hb).map s
  · exact (forEachStmt_charted hb).map s
  · exact (repeatStmt_charted hb).map s
  · exact (loopStmt_charted hb).map s
  · exact (caseStmt_charted hb).map s
  · exact returnStmt_charted.map s
  · exact exitStmt_charted.map s
  · exact terminateStmt_charted.map s
  · exact newStmt_charted.map s
  · exact disposeStmt_charted.map s
  · exact askStmt_charted.map s
  · exact tellStmt_charted.map s
  · exact (waitStmt_charted hb).map s
  · exact inheritedStmt_charted.map s
  · exact (withStmt_charted hb).map s
  · next hk => exact (assignOrCall_charted (.inl hk)).bind fun _ => .pure _
  · next hk => exact (assignOrCall_charted (.inr hk)).bind fun _ => .pure _
  · exact (failInContext_charted rfl).bind (fun _ => .pure _) s

theorem statementsRule_charted : Charted cs (statementsRule b) := by
  refine Charted.within (many_charted (.inspect rfl fun _ => .ite ?_ ?_))
  · exact bump_charted.bind fun _ => .pure _
  · refine .inspect rfl fun _ => .ite (.pure _) (.inspect rfl fun _ => ?_)
    refine (statement_charted hb).bind fun _ => .inspect rfl fun _ => .ite ?_ ?_
    · exact (recover_charted _).bind fun _ => .pure _
    · refine (eat_charted _).bind fun _ => .ite (.pure _) (.inspect rfl fun _ => .ite (.pure _) ?_)
      exact (fail_charted _ _).bind fun _ => .pure _

end Stmt

/-- Statement lists are charted wherever they stand. -/
theorem statements_charted : Charted cs statements :=
  recurse_charted fun _ hb _ => statementsRule_charted hb

/-! ## Declarations -/

theorem typeDecl_charted : Charted cs typeDecl := by
  refine .inspect rfl fun _ => ident_charted.bind fun _ => (expect_charted _).bind fun _ => ?_
  refine typeSpec_charted.bind fun _ => (expect_charted _).bind fun _ => ?_
  exact spanFrom_pure_charted _ _

theorem constDecl_charted : Charted cs constDecl := by
  refine .inspect rfl fun _ => ident_charted.bind fun _ => ?_
  refine (Charted.whenever (eat_charted _) typeSpec_charted).bind fun _ => ?_
  refine (expect_charted _).bind fun _ => expr_charted.bind fun _ => ?_
  exact (expect_charted _).bind fun _ => spanFrom_pure_charted _ _

theorem varDecl_charted : Charted cs varDecl := by
  refine .inspect rfl fun _ => (commaSeparated_charted ident_charted).bind fun _ => ?_
  refine (expect_charted _).bind fun _ => typeSpec_charted.bind fun _ => ?_
  refine (Charted.whenever (eat_charted _) expr_charted).bind fun _ => ?_
  exact (expect_charted _).bind fun _ => spanFrom_pure_charted _ _

theorem entry_charted (last : Option Section) : Charted (.declarations :: cs) (entry last) := by
  refine .inspect rfl fun ahead => ?_
  split
  · exact typeDecl_charted.bind fun _ => .pure _
  · exact constDecl_charted.bind fun _ => .pure _
  · exact varDecl_charted.bind fun _ => .pure _
  · exact skipUnexpected_charted rfl _ _

theorem bodyFollows_charted : Charted cs bodyFollows := by
  refine .inspect rfl fun k => ?_
  split
  · exact .pure _
  iterate 3 exact inspect_charted rfl
  · exact .pure _

section Decl

variable {ds : Parser (List Decl)} (hds : ∀ cs, Charted cs ds)
include hds

theorem routineBody_charted : Charted cs (routineBody ds) :=
  (hds _).bind fun _ => (expect_charted _).bind fun _ => statements_charted.bind fun _ => .pure _

theorem procedure_charted : Charted cs (procedure ds) := by
  refine .inspect rfl fun _ => bump_charted.bind fun _ => ident_charted.bind fun _ => ?_
  refine (params?_charted fun _ => typeSpec_charted).bind fun _ => ?_
  refine (result?_charted fun _ => typeSpec_charted).bind fun _ => .inspect rfl fun _ => ?_
  refine (expect_charted _).bind fun _ => bodyFollows_charted.bind fun _ => ?_
  refine .ite ?_ (spanFrom_pure_charted _ _)
  refine (routineBody_charted hds).bind fun _ => (closeWith_charted _ _).bind fun _ => ?_
  exact (expect_charted _).bind fun _ => spanFrom_pure_charted _ _

theorem methodImpl_charted : Charted cs (methodImpl ds) := by
  refine .inspect rfl fun _ => (methodHeading_charted fun _ => typeSpec_charted).bind fun _ => ?_
  refine (expect_charted _).bind fun _ => (routineBody_charted hds).bind fun _ => ?_
  refine (closeWith_charted _ _).bind fun _ => (expect_charted _).bind fun _ => ?_
  exact spanFrom_pure_charted _ _

theorem objectImpl_charted : Charted cs (objectImpl ds) := by
  have hround : Charted (.objectImpl :: cs) (implRound ds) := by
    refine .inspect rfl fun k => ?_
    split
    iterate 2 exact .pure _
    iterate 3 exact (methodImpl_charted hds).bind fun _ => .pure _
    · exact bump_charted.bind fun _ => .pure _
    · exact skipUnexpected_charted rfl _ _
  refine .inspect rfl fun _ => bump_charted.bind fun _ => ident_charted.bind fun _ => ?_
  refine (expect_charted _).bind fun _ => (many_charted hround).within.bind fun _ => ?_
  refine (closeWith_charted _ _).bind fun _ => (expect_charted _).bind fun _ => ?_
  exact spanFrom_pure_charted _ _

theorem declarationItem_charted (last : Option Section) :
    Charted cs (declarationItem ds last) := by
  refine Charted.within (.inspect rfl fun k => ?_)
  split
  · exact bump_charted.bind fun _ => .pure _
  · split
    · exact (procedure_charted hds).bind fun _ => .pure _
    · exact (objectImpl_charted hds).bind fun _ => .pure _
    · exact (entry_charted last).bind fun _ => .pure _
    · exact .pure _
    · exact skipUnexpected_charted rfl _ _

theorem localsRule_charted : Charted cs (localsRule ds) := by
  refine gather_charted (fun last => ?_) none
  refine .inspect rfl fun _ => .ite (.pure _) ?_
  exact (declarationItem_charted hds last).bind fun _ => .pure _

end Decl

/-- Local declarations are charted wherever they stand. -/
theorem locals_charted : Charted cs locals := recurse_charted fun _ hds _ => localsRule_charted hds

/-! ## Modules -/

theorem importItem_charted : Charted cs importItem := by
  have hname (all : Bool) (start : Position) : Charted cs (do
      let name ← ident
      let alias? ← whenever (eatWord .AS) (identOr .invalidAlias "alias name after AS")
      pure (⟨name, alias?, all, ← spanFrom start⟩ : ImportItem)) := by
    refine ident_charted.bind fun _ => ?_
    refine (Charted.whenever (eat_charted _) (identOr_charted _ _)).bind fun _ => ?_
    exact spanFrom_pure_charted _ _
  refine .inspect rfl fun start => .inspect rfl fun _ => .inspect rfl fun _ => ?_
  refine .ite ?_ (hname _ start)
  exact bump_charted.bind fun _ => hname _ start

theorem importClause_charted : Charted cs importClause := by
  refine Charted.within (.inspect rfl fun _ => (eat_charted _).bind fun _ => .ite ?_ ?_)
  · refine (identOr_charted _ _).bind fun _ => (expectWith_charted _ _).bind fun _ => ?_
    refine (commaSeparated_charted importItem_charted).bind fun _ => ?_
    exact (expect_charted _).bind fun _ => spanFrom_pure_charted _ _
  · refine bump_charted.bind fun _ => ?_
    refine (commaSeparated_charted (identOr_charted _ _)).bind fun _ => ?_
    exact (expect_charted _).bind fun _ => spanFrom_pure_charted _ _

theorem exportClause_charted : Charted cs exportClause := by
  refine .inspect rfl fun _ => bump_charted.bind fun _ => ?_
  refine (commaSeparated_charted ident_charted).bind fun _ => ?_
  exact (expect_charted _).bind fun _ => spanFrom_pure_charted _ _

theorem itemRound_charted (last : Option Section) : Charted cs (itemRound last) := by
  refine .inspect rfl fun k => ?_
  split
  iterate 2 exact importClause_charted.bind fun _ => .pure _
  · exact exportClause_charted.bind fun _ => .pure _
  iterate 3 exact .pure _
  · exact (declarationItem_charted (fun _ => locals_charted) last).bind fun _ => .pure _

theorem header_charted : Charted cs header := by
  have hname (kind : ModuleKind) : Charted cs (do
      expectWith .missingHeader (.word .MODULE)
      let name ← ident
      semicolon
      pure (kind, name)) := by
    refine (expectWith_charted _ _).bind fun _ => ident_charted.bind fun _ => ?_
    exact (expect_charted _).bind fun _ => .pure _
  exact .inspect rfl fun _ => .ite (bump_charted.bind fun _ => hname _) (hname _)

theorem trailer_charted (name : Ident) : Charted cs (trailer name) := by
  have hend : Charted cs (do
      unless ← atKind .eof do
        fail .trailingInput fun found => s!"unexpected {found.describe} after end of module") :=
    .inspect rfl fun _ => .ite (.pure _) (fail_charted _ _)
  refine (closeWith_charted _ _).bind fun _ => (eat_charted _).bind fun _ => .ite hend ?_
  exact (eat_charted _).bind fun _ => hend

/-- A module is charted with nothing open around it. -/
theorem module_charted : Charted cs Grammar.module := by
  have hhead : Charted (.moduleHeader :: cs) (do
      let head ← header
      let items ← gather itemRound none
      pure (head, items)) :=
    header_charted.bind fun _ => (gather_charted itemRound_charted none).bind fun _ => .pure _
  refine .inspect rfl fun _ => hhead.within.bind fun _ => ?_
  refine (Charted.whenever (eat_charted _) statements_charted).bind fun _ => ?_
  exact (trailer_charted _).bind fun _ => spanFrom_pure_charted _ _

/-! ## All rules -/

/-- The rules of the grammar, each with the rules for what is nested in it, and with the construct
inside of which it is used when it reports misfits of its own. -/
inductive Rule : {α : Type} → Option Context → Parser α → Prop
  | module : Rule none Grammar.module
  | importClause : Rule none importClause
  | moduleName : Rule none moduleName
  | importItem : Rule none importItem
  | exportClause : Rule none exportClause
  | identOrMissing : Rule none identOrMissing
  | locals : Rule none locals
  | declarationItem (last : Option Section) : Rule none (declarationItem locals last)
  | typeDecl : Rule none typeDecl
  | constDecl : Rule none constDecl
  | varDecl : Rule none varDecl
  | procedure : Rule none (procedure locals)
  | objectImpl : Rule none (objectImpl locals)
  | methodImpl : Rule none (methodImpl locals)
  | typeSpec : Rule none typeSpec
  | qualIdent : Rule none qualIdent
  | params : Rule none (params typeSpec)
  | param : Rule none (param typeSpec)
  | methodHeading : Rule none (methodHeading typeSpec)
  | fieldDecl : Rule none (fieldDecl typeSpec)
  | recordType : Rule none (recordType typeSpec)
  | objectType : Rule none (objectType typeSpec)
  | subrange : Rule none subrange
  | arrayType : Rule none (arrayType typeSpec)
  | arrayIndex : Rule none arrayIndex
  | statements : Rule none statements
  | statement : Rule (some .statements) (statement statements)
  | ifStmt : Rule none (ifStmt statements)
  | forStmt : Rule none (forStmt statements)
  | caseStmt : Rule none (caseStmt statements)
  | waitStmt : Rule none (waitStmt statements)
  | expr : Rule none expr
  | binary (tighter : List (TokenKind → Option BinaryOp)) : tighter <:+ levels →
      Rule (some .expression) (binary expr tighter)
  | unary : Rule (some .expression) (unary expr)
  | postfixed : Rule (some .expression) (postfixed expr)
  | primary : Rule (some .expression) (primary expr)
  | designator : Rule none (designator expr)
  | selector? (start : Position) (base : Expr) : Rule none (selector? expr start base)
  | methodCall (start : Position) : Rule none (methodCall expr start)
  | arguments : Rule none (arguments expr)
  | setLiteral : Rule none (setLiteral expr)
  | rangeOrValue : Rule none (rangeOrValue expr)

theorem charted_of_head {α : Type} {p : Parser α} (hp : ∀ cs, Charted (c :: cs) p)
    (hc : cs.head? = some c) : Charted cs p := by
  obtain ⟨rest, rfl⟩ := List.head?_eq_some_iff.1 hc
  exact hp rest

namespace Rule

variable {α : Type} {p : Parser α} {inside : Option Context} {n : Nat}

/-- Every rule comes to an end, whatever tokens are left. -/
theorem reads (h : Rule inside p) : Reads n p := by
  cases h with
  | module => exact module_reads
  | importClause => exact importClause_reads
  | moduleName => exact moduleName_reads
  | importItem => exact importItem_reads
  | exportClause => exact exportClause_starts.reads
  | identOrMissing => exact identOrMissing_reads
  | locals => exact locals_reads
  | declarationItem last => exact declarationItem_reads locals_reads last
  | typeDecl => exact typeDecl_starts.reads
  | constDecl => exact constDecl_starts.reads
  | varDecl => exact varDecl_starts.reads
  | procedure => exact (procedure_starts locals_reads).reads
  | objectImpl => exact (objectImpl_starts locals_reads).reads
  | methodImpl => exact (methodImpl_starts locals_reads).reads
  | typeSpec => exact typeSpec_reads
  | qualIdent => exact qualIdent_reads
  | params => exact (params_starts typeSpec_reads).reads
  | param => exact param_reads typeSpec_reads
  | methodHeading => exact (methodHeading_starts typeSpec_reads).reads
  | fieldDecl => exact (fieldDecl_starts typeSpec_reads).reads
  | recordType => exact (recordType_starts typeSpec_reads).reads
  | objectType => exact (objectType_starts typeSpec_reads).reads
  | subrange => exact subrange_reads
  | arrayType => exact (arrayType_starts typeSpec_reads).reads
  | arrayIndex => exact arrayIndex_reads
  | statements => exact statements_reads
  | statement => exact (statement_reads statements_reads).of_succ
  | ifStmt => exact (ifStmt_starts statements_reads).reads
  | forStmt => exact (forStmt_starts statements_reads).reads
  | caseStmt => exact (caseStmt_starts statements_reads).reads
  | waitStmt => exact (waitStmt_starts statements_reads).reads
  | expr => exact expr_reads
  | binary tighter hlevels =>
    exact (binary_reads expr_reads _ fun op? hop => levels_eof _ (hlevels.subset hop)).of_succ
  | unary => exact (unary_reads expr_reads).of_succ
  | postfixed => exact (postfixed_reads expr_reads).of_succ
  | primary => exact (primary_reads expr_reads).of_succ
  | designator => exact (designator_reads expr_reads).of_succ
  | selector? start base => exact (selector?_strides expr_reads start base).reads.of_succ
  | methodCall start => exact expr_methodCall_reads start
  | arguments => exact (arguments_starts expr_reads).reads
  | setLiteral => exact (setLiteral_starts expr_reads).reads
  | rangeOrValue => exact rangeOrValue_reads expr_reads

/-- Inside of the construct that it is used in every rule is charted. -/
theorem charted (h : Rule inside p) (hinside : ∀ c ∈ inside, cs.head? = some c) :
    Charted cs p := by
  have hexpr (cs : List Context) : Charted cs Grammar.expr := expr_charted
  have htype (cs : List Context) : Charted cs Grammar.typeSpec := typeSpec_charted
  have hstatements (cs : List Context) : Charted cs Grammar.statements := statements_charted
  have hlocals (cs : List Context) : Charted cs Grammar.locals := locals_charted
  cases h with
  | module => exact module_charted
  | importClause => exact importClause_charted
  | moduleName => exact identOr_charted _ _
  | importItem => exact importItem_charted
  | exportClause => exact exportClause_charted
  | identOrMissing => exact identOrMissing_charted
  | locals => exact locals_charted
  | declarationItem last => exact declarationItem_charted hlocals last
  | typeDecl => exact typeDecl_charted
  | constDecl => exact constDecl_charted
  | varDecl => exact varDecl_charted
  | procedure => exact procedure_charted hlocals
  | objectImpl => exact objectImpl_charted hlocals
  | methodImpl => exact methodImpl_charted hlocals
  | typeSpec => exact typeSpec_charted
  | qualIdent => exact qualIdent_charted
  | params => exact params_charted htype
  | param => exact param_charted htype
  | methodHeading => exact methodHeading_charted htype
  | fieldDecl => exact fieldDecl_charted htype
  | recordType => exact recordType_charted htype
  | objectType => exact objectType_charted htype
  | subrange => exact subrange_charted
  | arrayType => exact arrayType_charted htype
  | arrayIndex => exact arrayIndex_charted
  | statements => exact statements_charted
  | statement => exact charted_of_head (fun _ => statement_charted hstatements) (hinside _ rfl)
  | ifStmt => exact ifStmt_charted hstatements
  | forStmt => exact forStmt_charted hstatements
  | caseStmt => exact caseStmt_charted hstatements
  | waitStmt => exact waitStmt_charted hstatements
  | expr => exact expr_charted
  | binary tighter hlevels =>
    exact charted_of_head (fun _ => binary_charted hexpr tighter) (hinside _ rfl)
  | unary => exact charted_of_head (fun _ => unary_charted hexpr) (hinside _ rfl)
  | postfixed => exact charted_of_head (fun _ => postfixed_charted hexpr) (hinside _ rfl)
  | primary => exact charted_of_head (fun _ => primary_charted hexpr) (hinside _ rfl)
  | designator => exact designator_charted hexpr
  | selector? start base => exact selector?_charted hexpr start base
  | methodCall start => exact methodCall_charted hexpr start
  | arguments => exact arguments_charted hexpr
  | setLiteral => exact setLiteral_charted hexpr
  | rangeOrValue => exact rangeOrValue_charted hexpr

end Rule

end SimFront.Grammar

namespace SimFront

open SimFront.Parser

/-- **The constructs being read.**  In recovery mode every rule of the grammar comes to an end with
the stack of open constructs as it was, wherever it is used.  Its run is a course inside of the
constructs on the stack, and what it records are the reports of the course: a token that does not
fit is reported as a misfit in the innermost construct that is open there, and with the code for
misfits in this one.  A rule that reports misfits of its own has to be used inside of its construct
for that.  Reading a whole module is such a course with nothing open around it, and at the end
nothing is left open. -/
theorem contexts_restored :
    (∀ {α : Type} {inside : Option Context} {p : Parser α}, Grammar.Rule inside p →
      ∀ s : ParserState, s.eof.kind = .eof →
        ∃ a s', p .recovery s = .ok (a, s') ∧ s'.contexts = s.contexts ∧
          ((∀ c ∈ inside, s.contexts.head? = some c) → ∃ reports,
            Course s.contexts p s a s' reports ∧ (∀ r ∈ reports, r.Fits) ∧
            s'.errors = (reports.map Report.error).reverse ++ s.errors)) ∧
    ∀ tokens, ∃ m s reports,
      Course [] Grammar.module (.ofTokens (significant tokens)) m s reports ∧
      (∀ r ∈ reports, r.Fits) ∧
      Grammar.module .recovery (.ofTokens (significant tokens)) = .ok (m, s) ∧
      s.contexts = [] ∧
      parse tokens .recovery = .ok ⟨m, reports.map Report.error⟩ := by
  refine ⟨fun {α inside p} hrule s heof => ?_, fun tokens => ?_⟩
  · have hbelow : Below _ s := ⟨heof, Nat.lt_succ_self _⟩
    obtain ⟨a, s', es, hrun, -, -, hadvances, -, -⟩ := hrule.reads s hbelow
    refine ⟨a, s', hrun, hadvances.contexts, fun hinside => ?_⟩
    obtain ⟨reports, hcourse⟩ := hrule.charted hinside s a s' rfl hrun
    exact ⟨reports, hcourse, hcourse.fits, (hcourse.run rfl).2.2⟩
  · have hbelow : Below _ (ParserState.ofTokens (significant tokens)) := ⟨rfl, Nat.lt_succ_self _⟩
    obtain ⟨m, s, es, hrun, -⟩ := Grammar.module_reads _ hbelow
    obtain ⟨reports, hcourse⟩ := Grammar.module_charted _ m s rfl hrun
    obtain ⟨-, hstack, herrors⟩ := hcourse.run rfl
    refine ⟨m, s, reports, hcourse, hcourse.fits, hrun, hstack, ?_⟩
    have herrors : s.errors.reverse = reports.map Report.error := by
      rw [herrors]
      simp [ParserState.ofTokens]
    unfold parse
    rw [hrun, ← herrors]

/-- Tokens that fit nowhere, each inside of another construct, and one inside of a statement list
on its own. -/
theorem contexts_restored_misfits :
    let tokens := tokenize
      "MODULE M; OBJECT o; ASK METHOD m; TYPE t = OBJECT ) END; BEGIN x := * 2; ) END; ) END; ) END."
    let s : ParserState :=
      { ParserState.ofTokens (significant (tokenize ") END")) with contexts := [.statements] }
    (∃ m s' reports, Course [] Grammar.module (.ofTokens (significant tokens)) m s' reports ∧
      s'.contexts = [] ∧ parse tokens .recovery = .ok ⟨m, reports.map Report.error⟩ ∧
      (reports.map Report.error).map (·.message) =
        [Context.objectBody.unexpected (.mark .rParen),
         Context.expression.unexpected (.mark .star),
         Context.statements.unexpected (.mark .rParen),
         Context.objectImpl.unexpected (.mark .rParen),
         Context.declarations.unexpected (.mark .rParen)]) ∧
    s.eof.kind = .eof ∧ s.contexts.head? = some .statements ∧
    ∃ a s' reports, Grammar.statement Grammar.statements .recovery s = .ok (a, s') ∧
      s'.contexts = s.contexts ∧
      Course s.contexts (Grammar.statement Grammar.statements) s a s' reports ∧
      s'.errors = (reports.map Report.error).reverse ++ s.errors := by
  intro tokens s
  obtain ⟨hrules, htexts⟩ := contexts_restored
  refine ⟨?_, rfl, rfl, ?_⟩
  · have hmessages : (parse tokens .recovery).toOption.map (·.errors.map (·.message)) =
        some [Context.objectBody.unexpected (.mark .rParen),
          Context.expression.unexpected (.mark .star),
          Context.statements.unexpected (.mark .rParen),
          Context.objectImpl.unexpected (.mark .rParen),
          Context.declarations.unexpected (.mark .rParen)] := by decide +kernel
    obtain ⟨m, s', reports, hcourse, -, -, hstack, hparse⟩ := htexts tokens
    rw [hparse] at hmessages
    exact ⟨m, s', reports, hcourse, hstack, hparse, Option.some.inj hmessages⟩
  · obtain ⟨a, s', hrun, hstack, hcourse⟩ := hrules .statement s rfl
    have hinside : ∀ c ∈ some Context.statements, s.contexts.head? = some c := by
      rintro c ⟨⟩
      rfl
    obtain ⟨reports, hcourse, -, herrors⟩ := hcourse hinside
    exact ⟨a, s', reports, hrun, hstack, hcourse, herrors⟩

end SimFront
