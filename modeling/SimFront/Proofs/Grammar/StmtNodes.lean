import SimFront.Grammar.Stmt
import SimFront.Proofs.Grammar.ExprNodes

/-!
# The nodes of statements

Every rule for statements makes its node over what it gathered, when the parser of nested
statement lists gathers theirs (`body` below).  A statement without an end of its own
reaches to the last token that was read for it.
-/

namespace SimFront.Grammar

open SimFront.Parser

variable {body : Parser (List Stmt)} {s s' : ParserState}

/-! ## Conditions and cases -/

theorem condBranch_builds (hb : Gathers (·.map .stmt) body) :
    Builds (fun b => [.condBranch b]) (condBranch body) := by
  refine fun s hs => .inspect <| (bump_accepts hs).bind fun _ _ ⟨_, h⟩ => ?_
  refine (h.build expr_builds).bind fun _ _ h => ?_
  refine (h.skip (expectWord_builds _).gathers).bind fun _ _ h => ?_
  refine (h.gather hb).bind fun _ _ h => ?_
  exact h.finish (fun _ => rfl) (fun _ => rfl) fun _ => rfl

theorem ifStmt_builds (hb : Gathers (·.map .stmt) body) :
    Builds (fun t => [.stmt t]) (ifStmt body) := by
  have hround : Gathers (fun r => r.found?.toList.map .condBranch) (do
      if ← atKind (.word .ELSIF) then found (← condBranch body) else stopped :
        Parser (Round Unit CondBranch)) := fun _ hs =>
    .inspect <| .ite (fun _ => ((condBranch_builds hb).gathers _ hs).bind fun _ _ h => .pure h)
      fun _ => .pure (.refl hs)
  refine fun s hs => .inspect <| (condBranch_builds hb s hs).bind fun _ _ h => ?_
  refine (h.gather (many_gathers hround)).bind fun _ _ h => ?_
  refine (h.gather (.whenever_block (eatWord_gathers _) hb)).bind fun _ _ h => ?_
  refine (h.skip (closeWith_builds _ _).gathers).bind fun _ _ h => ?_
  exact h.finish (fun _ => rfl) (fun _ => rfl) fun _ => rfl

theorem caseArm_builds (hb : Gathers (·.map .stmt) body) :
    Builds (fun a => [.caseArm a]) (caseArm body) := by
  refine fun s hs => .inspect <| (eatWord_gathers _ s hs).bind fun _ _ h => ?_
  refine (h.build (commaSeparated_builds (rangeOrValue_builds expr_builds))).bind fun _ _ h => ?_
  refine (h.skip (expectMark_builds _).gathers).bind fun _ _ h => ?_
  refine (h.gather hb).bind fun _ _ h => ?_
  exact h.finish (fun _ => rfl) (fun _ => rfl) fun _ => rfl

theorem caseRound_gathers (hb : Gathers (·.map .stmt) body) :
    Gathers (fun r => r.found?.toList.map .caseArm) (caseRound body) := by
  refine fun s hs => (eatMark_gathers _ s hs).bind fun _ _ h => .inspect ?_
  refine .ite (fun _ => .pure h) fun _ => .inspect ?_
  refine (h.gather (caseArm_builds hb).gathers).bind fun _ _ h => .inspect ?_
  exact .ite (fun _ => (h.skip (recover_gathers _)).bind fun _ _ h => .pure h) fun _ => .pure h

theorem otherwise?_gathers (hb : Gathers (·.map .stmt) body) :
    Gathers Node.ofBlock? (otherwise? body) := by
  refine .whenever_block (fun s hs => ?_) fun s hs => ?_
  · exact (eatWord_gathers _ s hs).bind fun _ _ h =>
      .ite (fun _ => .pure h) fun _ => h.skip (eatWord_gathers _)
  · exact (eatMark_gathers _ s hs).bind fun _ _ h => h.gather hb

theorem caseStmt_builds (hb : Gathers (·.map .stmt) body) :
    Builds (fun t => [.stmt t]) (caseStmt body) := by
  refine fun s hs => (bump_accepts hs).bind ?_
  rintro _ _ ⟨rfl, h⟩
  refine (h.build expr_builds).bind fun _ _ h => ?_
  refine (h.skip (eatWord_gathers _)).bind fun _ _ h => ?_
  refine (h.gather (many_gathers (caseRound_gathers hb))).bind fun _ _ h => ?_
  refine (h.gather (otherwise?_gathers hb)).bind fun _ _ h => ?_
  refine (h.skip (closeWith_builds _ _).gathers).bind fun _ _ h => ?_
  exact h.finish (fun _ => rfl) (fun _ => rfl) fun _ => rfl

/-! ## Loops -/

theorem whileStmt_builds (hb : Gathers (·.map .stmt) body) :
    Builds (fun t => [.stmt t]) (whileStmt body) := by
  refine fun s hs => (bump_accepts hs).bind ?_
  rintro _ _ ⟨rfl, h⟩
  refine (h.build expr_builds).bind fun _ _ h => ?_
  refine (h.skip (eatWord_gathers _)).bind fun _ _ h => ?_
  refine (h.gather hb).bind fun _ _ h => ?_
  refine (h.skip (closeWith_builds _ _).gathers).bind fun _ _ h => ?_
  exact h.finish (fun _ => rfl) (fun _ => rfl) fun _ => rfl

theorem direction_gathers : Gathers silent direction := fun s hs =>
  (eatWord_gathers _ s hs).bind fun _ _ h => .ite (fun _ => .pure h) fun _ =>
    (h.skip (expectWord_builds _).gathers).bind fun _ _ h => .pure h

theorem forStmt_builds (hb : Gathers (·.map .stmt) body) :
    Builds (fun t => [.stmt t]) (forStmt body) := by
  refine fun s hs => (bump_accepts hs).bind ?_
  rintro _ _ ⟨rfl, h⟩
  refine (h.build ident_builds).bind fun _ _ h => ?_
  refine (h.skip (expectMark_builds _).gathers).bind fun _ _ h => ?_
  refine (h.gather expr_builds.gathers).bind fun _ _ h => ?_
  refine (h.skip direction_gathers).bind fun _ _ h => ?_
  refine (h.gather expr_builds.gathers).bind fun _ _ h => ?_
  refine (h.gather (.whenever (eatWord_gathers _) expr_builds.gathers)).bind fun _ _ h => ?_
  refine (h.skip (eatWord_gathers _)).bind fun _ _ h => ?_
  refine (h.gather hb).bind fun _ _ h => ?_
  refine (h.skip (closeWith_builds _ _).gathers).bind fun _ _ h => ?_
  exact h.finish (fun _ => rfl) (fun _ => rfl) fun _ => rfl

theorem forEachStmt_builds (hb : Gathers (·.map .stmt) body) :
    Builds (fun t => [.stmt t]) (forEachStmt body) := by
  refine fun s hs => (bump_accepts hs).bind ?_
  rintro _ _ ⟨rfl, h⟩
  refine (h.build ident_builds).bind fun _ _ h => ?_
  refine (h.skip (expectWord_builds _).gathers).bind fun _ _ h => ?_
  refine (h.gather expr_builds.gathers).bind fun _ _ h => ?_
  refine (h.skip (eatWord_gathers _)).bind fun _ _ h => ?_
  refine (h.gather hb).bind fun _ _ h => ?_
  refine (h.skip (closeWith_builds _ _).gathers).bind fun _ _ h => ?_
  exact h.finish (fun _ => rfl) (fun _ => rfl) fun _ => rfl

theorem repeatStmt_builds (hb : Gathers (·.map .stmt) body) :
    Builds (fun t => [.stmt t]) (repeatStmt body) := by
  refine fun s hs => (bump_accepts hs).bind ?_
  rintro _ _ ⟨rfl, h⟩
  refine (h.gather hb).bind fun _ _ h => ?_
  refine (h.read (expectWord_builds _)).bind fun _ _ h => ?_
  refine (h.gather expr_builds.gathers).bind fun _ _ h => ?_
  exact h.finish (fun _ => rfl) (fun _ => rfl) fun _ => rfl

theorem loopStmt_builds (hb : Gathers (·.map .stmt) body) :
    Builds (fun t => [.stmt t]) (loopStmt body) := by
  refine fun s hs => (bump_accepts hs).bind ?_
  rintro _ _ ⟨rfl, h⟩
  refine (h.gather hb).bind fun _ _ h => ?_
  refine (h.read (closeWith_builds _ _)).bind fun _ _ h => ?_
  exact h.finish (fun _ => rfl) (fun _ => rfl) fun _ => rfl

/-! ## Methods, time and objects -/

theorem tellStmt_builds : Builds (fun t => [.stmt t]) tellStmt := by
  refine fun s hs => (bump_accepts hs).bind ?_
  rintro _ _ ⟨rfl, h⟩
  refine (methodCall_built expr_builds h).bind fun _ _ h => ?_
  refine (h.gather (.whenever (eatWord_gathers _) expr_builds.gathers)).bind fun _ _ h => ?_
  exact h.finish (fun _ => rfl) (fun _ => rfl) fun _ => rfl

theorem askStmt_builds : Builds (fun t => [.stmt t]) askStmt := by
  refine fun s hs => (bump_accepts hs).bind ?_
  rintro _ _ ⟨rfl, h⟩
  refine (methodCall_built expr_builds h).bind fun _ _ h => ?_
  exact h.finish (fun _ => rfl) (fun _ => rfl) fun _ => rfl

theorem waitSubject_builds : Builds (fun w => [Node.ofWaitSubject w]) waitSubject := by
  refine fun s hs => (eatWord_gathers _ s hs).bind fun _ s' h => .ite (fun _ => ?_) fun _ => ?_
  · refine .inspect ?_
    have hcall : Builds (fun c => [.methodCall c]) (do methodCall expr (← start)) := fun _ hs =>
      .inspect (methodCall_built expr_builds (.refl hs))
    exact (h.build hcall).bind fun _ _ h => .pure h
  · refine (h.skip (expectWord_builds _).gathers).bind fun _ _ h => ?_
    exact (h.build expr_builds).bind fun _ _ h => .pure h

theorem interrupt?_gathers (hb : Gathers (·.map .stmt) body) :
    Gathers Node.ofBlock? (interrupt? body) :=
  .whenever_block (eatWord_gathers _) fun s hs =>
    ((expectWord_builds _).gathers s hs).bind fun _ _ h => h.gather hb

theorem waitStmt_builds (hb : Gathers (·.map .stmt) body) :
    Builds (fun t => [.stmt t]) (waitStmt body) := by
  refine fun s hs => (bump_accepts hs).bind ?_
  rintro _ _ ⟨rfl, h⟩
  refine (h.build waitSubject_builds).bind fun _ _ h => ?_
  refine (h.gather hb).bind fun _ _ h => ?_
  refine (h.gather (interrupt?_gathers hb)).bind fun _ _ h => ?_
  refine (h.skip (closeWith_builds _ _).gathers).bind fun _ _ h => ?_
  exact h.finish (fun _ => rfl) (fun _ => rfl) fun _ => rfl

theorem inParens_builds : Builds (fun x => [.expr x]) inParens := by
  refine fun s hs => (expectMark_builds _ s hs).bind fun _ _ h => ?_
  refine (h.gather expr_builds.gathers).bind fun _ _ h => ?_
  exact (h.skip (expectMark_builds _).gathers).bind fun _ _ h => .pure h

theorem newStmt_builds : Builds (fun t => [.stmt t]) newStmt := by
  refine fun s hs => (bump_accepts hs).bind ?_
  rintro _ _ ⟨rfl, h⟩
  refine (h.build inParens_builds).bind fun _ _ h => ?_
  exact h.finish (fun _ => rfl) (fun _ => rfl) fun _ => rfl

theorem disposeStmt_builds : Builds (fun t => [.stmt t]) disposeStmt := by
  refine fun s hs => (bump_accepts hs).bind ?_
  rintro _ _ ⟨rfl, h⟩
  refine (h.build inParens_builds).bind fun _ _ h => ?_
  exact h.finish (fun _ => rfl) (fun _ => rfl) fun _ => rfl

theorem inheritedStmt_builds : Builds (fun t => [.stmt t]) inheritedStmt := by
  refine fun s hs => (bump_accepts hs).bind ?_
  rintro _ _ ⟨rfl, h⟩
  refine (h.build ident_builds).bind fun _ _ h => ?_
  refine (h.gather (arguments?_gathers expr_builds)).bind fun _ _ h => ?_
  exact h.finish (fun _ => rfl) (fun _ => rfl) fun _ => rfl

theorem withStmt_builds (hb : Gathers (·.map .stmt) body) :
    Builds (fun t => [.stmt t]) (withStmt body) := by
  refine fun s hs => (bump_accepts hs).bind ?_
  rintro _ _ ⟨rfl, h⟩
  refine (h.build expr_builds).bind fun _ _ h => ?_
  refine (h.skip (eatWord_gathers _)).bind fun _ _ h => ?_
  refine (h.gather hb).bind fun _ _ h => ?_
  refine (h.skip (closeWith_builds _ _).gathers).bind fun _ _ h => ?_
  exact h.finish (fun _ => rfl) (fun _ => rfl) fun _ => rfl

/-! ## Simple statements

The rules of these statements do not look at the word that they begin with, so a token has
to be there. -/

theorem returnStmt_built (hs : Ordered s) (hk : s.kind ≠ .eof) :
    Accepts returnStmt s fun t s' => Built s s' [.stmt t] := by
  refine (bump_built hs hk).bind ?_
  rintro _ _ ⟨rfl, -, h⟩
  have hrest {value : Option Expr} {s' : ParserState} (h : Built s s' (value.toList.map .expr)) :
      Accepts (do pure (.return_ value (← spanFrom s.current.span.start))) s' fun t s'' =>
        Built s s'' [.stmt t] :=
    h.finish (fun _ => rfl) (fun _ => rfl) fun _ => rfl
  refine .inspect (.inspect (.ite (fun _ => .pure_bind (hrest h)) fun _ => ?_))
  exact (h.gather expr_builds.gathers).bind fun _ _ h => .pure_bind (hrest h)

theorem exitStmt_built (hs : Ordered s) (hk : s.kind ≠ .eof) :
    Accepts exitStmt s fun t s' => Built s s' [.stmt t] := by
  refine (bump_built hs hk).bind ?_
  rintro _ _ ⟨rfl, -, h⟩
  exact h.finish (fun _ => rfl) (fun _ => rfl) fun _ => rfl

theorem terminateStmt_built (hs : Ordered s) (hk : s.kind ≠ .eof) :
    Accepts terminateStmt s fun t s' => Built s s' [.stmt t] := by
  refine (bump_built hs hk).bind ?_
  rintro _ _ ⟨rfl, -, h⟩
  exact h.finish (fun _ => rfl) (fun _ => rfl) fun _ => rfl

theorem assignOrCall_builds : Builds (fun t => [.stmt t]) assignOrCall := by
  refine fun s hs => .inspect <| (postfixed_builds expr_builds s hs).bind fun _ _ h => ?_
  refine (h.skip (eatMark_gathers _)).bind fun _ _ h => .ite (fun _ => ?_) fun _ => ?_
  · refine (h.gather expr_builds.gathers).bind fun _ _ h => ?_
    exact h.finish (fun _ => rfl) (fun _ => rfl) fun _ => rfl
  · exact h.finish (fun _ => rfl) (fun _ => rfl) fun _ => rfl

/-! ## Statement lists -/

theorem statement_gathers (hb : Gathers (·.map .stmt) body) :
    Gathers (fun t => t.toList.map .stmt) (statement body) := by
  have hsome {p : Parser Stmt} {s : ParserState}
      (h : Accepts p s fun t s' => Built s s' [.stmt t]) :
      Accepts (some <$> p) s fun t s' => Gathered s s' (t.toList.map .stmt) :=
    .map (h.mono fun _ _ h => h.toGathered)
  refine fun s hs => .inspect ?_
  split
  · exact hsome (ifStmt_builds hb s hs)
  · exact hsome (whileStmt_builds hb s hs)
  · exact hsome (forStmt_builds hb s hs)
  · exact hsome (forEachStmt_builds hb s hs)
  · exact hsome (repeatStmt_builds hb s hs)
  · exact hsome (loopStmt_builds hb s hs)
  · exact hsome (caseStmt_builds hb s hs)
  · next hk => exact hsome (returnStmt_built hs (by simp [hk]))
  · next hk => exact hsome (exitStmt_built hs (by simp [hk]))
  · next hk => exact hsome (terminateStmt_built hs (by simp [hk]))
  · exact hsome (newStmt_builds s hs)
  · exact hsome (disposeStmt_builds s hs)
  · exact hsome (askStmt_builds s hs)
  · exact hsome (tellStmt_builds s hs)
  · exact hsome (waitStmt_builds hb s hs)
  · exact hsome (inheritedStmt_builds s hs)
  · exact hsome (withStmt_builds hb s hs)
  iterate 2 exact hsome (assignOrCall_builds s hs)
  · exact .after .failInContext

theorem statementRound_gathers (hb : Gathers (·.map .stmt) body) :
    Gathers (fun r => r.found?.toList.map .stmt) (statementRound body) := by
  refine fun s hs => .inspect (.ite (fun _ => ?_) fun _ => .inspect (.ite (fun _ => ?_) fun _ => ?_))
  · exact (bump_accepts hs).bind fun _ _ ⟨_, h⟩ => .pure h
  · exact .pure (.refl hs)
  · refine .inspect <| (statement_gathers hb s hs).bind fun _ _ h => .inspect ?_
    refine .ite (fun _ => (h.skip (recover_gathers _)).bind fun _ _ h => .pure h) fun _ => ?_
    refine (h.skip (eatMark_gathers _)).bind fun _ _ h => .ite (fun _ => .pure h) fun _ => ?_
    exact .inspect (.ite (fun _ => .pure h) fun _ => .after .fail)

/-- The statements of a list make one node each. -/
theorem statements_gathers : Gathers (·.map .stmt) statements :=
  recurse_gathers fun _ hb => (many_gathers (statementRound_gathers hb)).within

end SimFront.Grammar
