import SimFront.Grammar.Stmt
import SimFront.Proofs.Grammar.Expr

/-!
# Runs of the rules for statements

Every rule runs in both modes when the parser of nested statement lists does
(`b` below).  A compound statement opens with its word, so nested lists have one
token less, and `statements` runs whatever tokens are left (`statements_reads`).
A round of a list that reads nothing skips a token, so lists come to an end.
-/

namespace SimFront.Grammar

open SimFront.Parser

variable {n : Nat} {b : Parser (List Stmt)}

/-! ## Conditions and cases -/

theorem condBranch_starts (hb : Reads n b) : Starts Any n (condBranch b) :=
  .inspect fun _ => .bump fun _ => expr_reads.bind fun _ => (expectWith_reads _ _).bind fun _ =>
    hb.bind fun _ => spanFrom_pure_reads _ _

theorem elsifRound_strides (hb : Reads n b) : Strides Round.GoesOn n (do
    if ← atKind (.word .ELSIF) then found (← condBranch b) else stopped) := by
  intro s hs
  refine .inspect ?_
  split
  · next h =>
    have hk : s.kind = .word .ELSIF := by simpa using h
    refine Opens.strides ?_ hs.succ (show Any s.kind by simp [Any, hk])
    exact (condBranch_starts hb).opens.bind fun _ => .pure _
  · exact stop_strides none s hs

theorem ifStmt_starts (hb : Reads n b) : Starts Any n (ifStmt b) := by
  refine .inspect fun _ => (condBranch_starts hb).bind fun _ => ?_
  refine (many_reads (elsifRound_strides hb)).bind fun _ => ?_
  refine (Reads.whenever (eatWord_reads _) hb).bind fun _ => ?_
  exact (closeWith_reads _ _).bind fun _ => spanFrom_pure_reads _ _

theorem caseArm_reads (hb : Reads n b) : Reads n (caseArm b) := by
  refine .inspect fun _ => (eatWord_reads _).bind fun _ => ?_
  refine (commaSeparated_reads (rangeOrValue_reads expr_reads)).bind fun _ => ?_
  exact (expectMark_reads _).bind fun _ => hb.bind fun _ => spanFrom_pure_reads _ _

theorem caseRound_strides (hb : Reads n b) : Strides Round.GoesOn n (caseRound b) := by
  refine (eatMark_reads _).bind_strides fun _ s hs => .inspect ?_
  split
  · exact stop_strides none s hs
  · next hends =>
    have hk : Any s.kind := by
      intro h
      simp [h] at hends
    refine .inspect ((caseArm_reads hb s hs).bind fun arm s' ha _ => .inspect ?_)
    refine (unlessRead_runs hs.succ hk ha ?_ (.pure _)).mono fun _ _ _ hl _ => hl
    exact (recover_starts _).opens.bind fun _ => .pure _

theorem otherwise?_reads (hb : Reads n b) : Reads n (otherwise? b) := by
  refine .whenever ?_ ((eatMark_reads _).bind fun _ => hb)
  exact (eatWord_reads _).bind fun _ => .ite (fun _ => .pure _) fun _ => eatWord_reads _

theorem caseStmt_starts (hb : Reads n b) : Starts Any n (caseStmt b) := by
  refine .bump fun _ => expr_reads.bind fun _ => (eatWord_reads _).bind fun _ => ?_
  refine (many_reads (caseRound_strides hb)).bind fun _ => (otherwise?_reads hb).bind fun _ => ?_
  exact (closeWith_reads _ _).bind fun _ => spanFrom_pure_reads _ _

/-! ## Loops -/

theorem whileStmt_opens (hb : Reads n b) : Opens Any n (whileStmt b) :=
  .bump fun _ => expr_reads.bind fun _ => (eatWord_reads _).bind fun _ => hb.bind fun _ =>
    (closeWith_reads _ _).bind fun _ => spanFrom_pure_reads _ _

theorem direction_reads : Reads n direction :=
  (eatWord_reads _).bind fun _ => .ite (fun _ => .pure _) fun _ =>
    (expectWord_reads _).bind fun _ => .pure _

theorem forStmt_starts (hb : Reads n b) : Starts Any n (forStmt b) := by
  refine .bump fun _ => ident_reads.bind fun _ => (expectMark_reads _).bind fun _ => ?_
  refine expr_reads.bind fun _ => direction_reads.bind fun _ => expr_reads.bind fun _ => ?_
  refine (Reads.whenever (eatWord_reads _) expr_reads).bind fun _ => ?_
  refine (eatWord_reads _).bind fun _ => hb.bind fun _ => ?_
  exact (closeWith_reads _ _).bind fun _ => spanFrom_pure_reads _ _

theorem forEachStmt_opens (hb : Reads n b) : Opens Any n (forEachStmt b) := by
  refine .bump fun _ => ident_reads.bind fun _ => (expectWord_reads _).bind fun _ => ?_
  refine expr_reads.bind fun _ => (eatWord_reads _).bind fun _ => hb.bind fun _ => ?_
  exact (closeWith_reads _ _).bind fun _ => spanFrom_pure_reads _ _

theorem repeatStmt_opens (hb : Reads n b) : Opens Any n (repeatStmt b) :=
  .bump fun _ => hb.bind fun _ => (expectWord_reads _).bind fun _ =>
    expr_reads.bind fun _ => spanFrom_pure_reads _ _

theorem loopStmt_opens (hb : Reads n b) : Opens Any n (loopStmt b) :=
  .bump fun _ => hb.bind fun _ => (closeWith_reads _ _).bind fun _ =>
    spanFrom_pure_reads _ _

/-! ## Methods, time and objects -/

theorem expr_methodCall_reads (start : Position) : Reads n (methodCall expr start) :=
  (methodCall_reads expr_reads start).of_succ

theorem tellStmt_opens : Opens Any n tellStmt :=
  .bump fun _ => (expr_methodCall_reads _).bind fun _ =>
    (Reads.whenever (eatWord_reads _) expr_reads).bind fun _ => spanFrom_pure_reads _ _

theorem askStmt_opens : Opens Any n askStmt :=
  .bump fun _ => (expr_methodCall_reads _).bind fun _ => spanFrom_pure_reads _ _

theorem waitSubject_reads : Reads n waitSubject := by
  refine (eatWord_reads _).bind fun _ => .ite (fun _ => ?_) fun _ => ?_
  · exact .inspect fun _ => (expr_methodCall_reads _).bind fun _ => .pure _
  · exact (expectWord_reads _).bind fun _ => expr_reads.bind fun _ => .pure _

theorem interrupt?_reads (hb : Reads n b) : Reads n (interrupt? b) :=
  .whenever (eatWord_reads _) ((expectWord_reads _).bind fun _ => hb)

theorem waitStmt_starts (hb : Reads n b) : Starts Any n (waitStmt b) := by
  refine .bump fun _ => waitSubject_reads.bind fun _ => hb.bind fun _ => ?_
  refine (interrupt?_reads hb).bind fun _ => ?_
  exact (closeWith_reads _ _).bind fun _ => spanFrom_pure_reads _ _

theorem inParens_reads : Reads n inParens :=
  (expectMark_reads _).bind fun _ => expr_reads.bind fun _ => (expectMark_reads _).bind fun _ =>
    .pure _

theorem newStmt_opens : Opens Any n newStmt :=
  .bump fun _ => inParens_reads.bind fun _ => spanFrom_pure_reads _ _

theorem disposeStmt_opens : Opens Any n disposeStmt :=
  .bump fun _ => inParens_reads.bind fun _ => spanFrom_pure_reads _ _

theorem inheritedStmt_opens : Opens Any n inheritedStmt :=
  .bump fun _ => ident_reads.bind fun _ => (arguments?_reads expr_reads).of_succ.bind fun _ =>
    spanFrom_pure_reads _ _

theorem withStmt_opens (hb : Reads n b) : Opens Any n (withStmt b) :=
  .bump fun _ => expr_reads.bind fun _ => (eatWord_reads _).bind fun _ => hb.bind fun _ =>
    (closeWith_reads _ _).bind fun _ => spanFrom_pure_reads _ _

/-! ## Simple statements -/

theorem returnStmt_opens : Opens Any n returnStmt := by
  refine .bump fun _ => .inspect fun _ => .inspect fun _ => .ite (fun _ => ?_) fun _ => ?_
  · exact (Reads.pure _).bind fun _ => spanFrom_pure_reads _ _
  · exact expr_reads.bind fun _ => (Reads.pure _).bind fun _ => spanFrom_pure_reads _ _

theorem exitStmt_opens : Opens Any n exitStmt := .bump fun _ => spanFrom_pure_reads _ _

theorem terminateStmt_opens : Opens Any n terminateStmt :=
  .bump fun _ => spanFrom_pure_reads _ _

theorem assignOrCall_reads : Reads n assignOrCall := by
  refine .inspect fun _ => (postfixed_reads expr_reads).of_succ.bind fun _ => ?_
  refine (eatMark_reads _).bind fun _ => .ite (fun _ => ?_) fun _ => spanFrom_pure_reads _ _
  exact expr_reads.bind fun _ => spanFrom_pure_reads _ _

/-! ## Statement lists -/

theorem statement_reads (hb : Reads n b) : Reads (n + 1) (statement b) := by
  intro s hs
  refine .inspect ?_
  split
  · next hk => exact (ifStmt_starts hb).opens.map.runs hs (by simp [Any, hk])
  · next hk => exact (whileStmt_opens hb).map.runs hs (by simp [Any, hk])
  · next hk => exact (forStmt_starts hb).opens.map.runs hs (by simp [Any, hk])
  · next hk => exact (forEachStmt_opens hb).map.runs hs (by simp [Any, hk])
  · next hk => exact (repeatStmt_opens hb).map.runs hs (by simp [Any, hk])
  · next hk => exact (loopStmt_opens hb).map.runs hs (by simp [Any, hk])
  · next hk => exact (caseStmt_starts hb).opens.map.runs hs (by simp [Any, hk])
  · next hk => exact returnStmt_opens.map.runs hs (by simp [Any, hk])
  · next hk => exact exitStmt_opens.map.runs hs (by simp [Any, hk])
  · next hk => exact terminateStmt_opens.map.runs hs (by simp [Any, hk])
  · next hk => exact newStmt_opens.map.runs hs (by simp [Any, hk])
  · next hk => exact disposeStmt_opens.map.runs hs (by simp [Any, hk])
  · next hk => exact askStmt_opens.map.runs hs (by simp [Any, hk])
  · next hk => exact tellStmt_opens.map.runs hs (by simp [Any, hk])
  · next hk => exact (waitStmt_starts hb).opens.map.runs hs (by simp [Any, hk])
  · next hk => exact inheritedStmt_opens.map.runs hs (by simp [Any, hk])
  · next hk => exact (withStmt_opens hb).map.runs hs (by simp [Any, hk])
  iterate 2 exact assignOrCall_reads.map s hs
  · exact ((failInContext_stays _).reads.bind fun _ => .pure _) s hs

theorem statementRound_strides (hb : Reads n b) :
    Strides Round.GoesOn (n + 1) (statementRound b) := by
  intro s hs
  refine .inspect ?_
  split
  · next h =>
    have hk : s.kind = .mark .semicolon := by simpa using h
    exact Opens.strides (.bump fun _ => .pure _) hs (show Any s.kind by simp [Any, hk])
  · refine .inspect ?_
    split
    · exact stop_strides none s hs
    · next hends =>
      have hk : Any s.kind := by
        intro h
        simp [h, blockEnds] at hends
      refine .inspect ((statement_reads hb s hs).bind fun stmt s' ha _ => .inspect ?_)
      refine (unlessRead_runs hs hk ha ?_ ?_).mono fun _ _ _ hl _ => hl
      · exact (recover_starts _).opens.bind fun _ => .pure _
      · refine (eatMark_reads _).bind fun _ => .ite (fun _ => .pure _) fun _ => ?_
        refine .inspect fun _ => .ite (fun _ => .pure _) fun _ => ?_
        exact (fail_stays _ _).reads.bind fun _ => .pure _

/-- Statement lists run in both modes, whatever tokens are left. -/
theorem statements_reads : Reads n statements :=
  recurse_reads fun _ _ hb => (many_reads (statementRound_strides hb)).within

end SimFront.Grammar
