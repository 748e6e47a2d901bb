import SimFront.Proofs.Check.TouchesExpr
import SimFront.Check.Stmt

/-!
# The reports on statements

The check of a statement touches the state, like the checks of the expressions in it, and all
its reports stand beside the uses of a name on which nothing is reported.
-/

namespace SimFront.Check

variable {head : ModuleHead} {place : Span → Prop} {I : Standing head place} {name? : Option String}

theorem normalize_excused {t : Ty} {span : Span} (h : Excused place span t) :
    Yields I (Excused place span) (normalize t) := by
  rcases h with rfl | h
  · exact .pure (.inl rfl)
  · exact (normalize_query t).touches.yields fun _ => .inr h

/-- The report on a value of a type that does not fit.  A value of which nothing is known
fits. -/
theorem errorUnless_touches {type : Ty} {fits : Bool} {span : Span} (h : Excused place span type)
    (hfits : type = .unknown → fits = true) (code : DiagnosticCode) (message : String) :
    Touches I (unless fits do error code span message) := by
  split
  · exact .pure ()
  · next hfit => exact error_touches (h.resolve_left fun hunknown => hfit (hfits hunknown)) _ _

theorem checkCondition_touches (hI : Silences I name?) {e : Expr} (h : Covers place name? (.expr e)) :
    Touches I (checkCondition e) :=
  Yields.bind (checkExpr_yields hI e h) fun _ hvague =>
    Yields.bind (normalize_excused (hvague.excused h)) fun type htype =>
      errorUnless_touches htype (fun hunknown => by rw [hunknown]; exact Bool.or_true _) _ _

theorem checkNumeric_touches (hI : Silences I name?) (what : String) {e : Expr}
    (h : Covers place name? (.expr e)) : Touches I (checkNumeric what e) :=
  Yields.bind (checkExpr_yields hI e h) fun _ hvague =>
    Yields.bind (normalize_excused (hvague.excused h)) fun type htype =>
      errorUnless_touches htype (fun hunknown => by rw [hunknown]; exact Bool.or_true _) _ _

theorem checkAssign_touches (hI : Silences I name?) {target value : Expr}
    (htarget : Covers place name? (.expr target)) (hvalue : Covers place name? (.expr value)) :
    Touches I (checkAssign target value) := by
  refine Yields.bind (checkExpr_yields hI value hvalue) fun valueType hvague => ?_
  refine Yields.bind (checkTarget_yields hI htarget (checkExpr_yields hI target htarget)) fun t _ => ?_
  refine (assignable_yields t (hvague.excused hvalue)).bind fun fits hfits => ?_
  split
  · exact Touches.pure ()
  · next hfit => exact error_touches (hfits.resolve_left hfit) _ _

theorem checkReturn_touches (hI : Silences I name?) {value : Expr}
    (hvalue : Covers place name? (.expr value)) {span : Span} (hspan : place span) :
    Touches I (checkReturn value span) := by
  refine Yields.bind (checkExpr_yields hI value hvalue) fun type hvague => Touches.read fun env => ?_
  split
  · exact Touches.pure ()
  · exact error_touches hspan _ _
  · next expected _ =>
    refine (assignable_yields expected (hvague.excused hvalue)).bind fun fits hfits => ?_
    split
    · exact Touches.pure ()
    · next hfit => exact error_touches (hfits.resolve_left hfit) _ _

/-- The variable of a loop is the name, or reports on it are allowed. -/
theorem writeLoopVar_touches (hI : Silences I name?) {var : Ident}
    (h : decide (name? = some var.name) = false → place var.span) : Touches I (writeLoopVar var) := by
  have written : Touches I (writeName var) := by
    cases hname : decide (name? = some var.name) with
    | true => exact (hI.write var (of_decide_eq_true hname)).touches
    | false => exact writeName_touches (h hname)
  exact written.bind fun _ => .pure ()

theorem checkCallOf_touches (hI : Silences I name?) {call : MethodCall}
    (h : Covers place name? (.methodCall call)) : Touches I (checkCallOf call) :=
  (checkMethodCall_touches hI call h).bind fun _ => .pure ()

theorem checkWaitSubject_touches (hI : Silences I name?) {subject : WaitSubject}
    (h : Covers place name? (Node.ofWaitSubject subject)) : Touches I (checkWaitSubject subject) := by
  cases subject with
  | method call => exact checkCallOf_touches hI h
  | duration time => exact checkNumeric_touches hI _ h

mutual

theorem checkStmt_touches (hI : Silences I name?) : ∀ s : Stmt,
    Covers place name? (.stmt s) → Touches I (checkStmt s)
  | .assign target value _, h => by
    rw [checkStmt]
    exact checkAssign_touches hI (h.child (.head _) rfl) (h.child (.tail _ (.head _)) rfl)
  | .call call _, h => by
    rw [checkStmt]
    exact checkValue_touches hI (h.child (.head _) rfl)
  | .if_ branches else? _, h => by
    rw [checkStmt]
    exact (checkBranches_touches hI branches
        (h.mapped (List.subset_append_left _ _) fun _ _ => rfl)).bind fun _ =>
      checkOptional_touches hI else? (h.stmts (List.subset_append_right _ _))
  | .while_ condition body _, h => by
    rw [checkStmt]
    exact (checkCondition_touches hI (h.child (.head _) rfl)).bind fun _ =>
      checkBlock_touches hI body (h.stmts (List.subset_cons_self _ _))
  | .repeat_ body condition _, h => by
    rw [checkStmt]
    exact (checkBlock_touches hI body (h.stmts (List.subset_append_left _ _))).bind fun _ =>
      checkCondition_touches hI (h.child (List.mem_append_right _ (.head _)) rfl)
  | .for_ var first _ last step body _, h => by
    rw [checkStmt]
    have hstep : ∀ e, step = some e → Covers place name? (.expr e) := by
      rintro e rfl
      exact h.child (.tail _ (.tail _ (.tail _ (.head _)))) rfl
    exact (checkValue_touches hI (h.child (.tail _ (.head _)) rfl)).bind fun _ =>
      (checkValue_touches hI (h.child (.tail _ (.tail _ (.head _))) rfl)).bind fun _ =>
        (optionForM_touches fun e he => checkValue_touches hI (hstep e he)).bind fun _ =>
          (writeLoopVar_touches hI fun hname => (h.child (.head _) hname).self rfl).bind fun _ =>
            checkBlock_touches hI body (h.stmts fun _ hn =>
              .tail _ (.tail _ (.tail _ (List.mem_append_right _ hn))))
  | .forEach var group body _, h => by
    rw [checkStmt]
    exact (checkValue_touches hI (h.child (.tail _ (.head _)) rfl)).bind fun _ =>
      (writeLoopVar_touches hI fun hname => (h.child (.head _) hname).self rfl).bind fun _ =>
        checkBlock_touches hI body (h.stmts fun _ hn => .tail _ (.tail _ hn))
  | .loop body _, h => by
    rw [checkStmt]
    exact checkBlock_touches hI body (h.stmts (List.Subset.refl _))
  | .case selector arms otherwise _, h => by
    rw [checkStmt]
    exact (checkValue_touches hI (h.child (.head _) rfl)).bind fun _ =>
      (checkArms_touches hI arms (h.mapped (fun _ hn => .tail _ (List.mem_append_left _ hn))
          fun _ _ => rfl)).bind fun _ =>
        checkOptional_touches hI otherwise (h.stmts fun _ hn => .tail _ (List.mem_append_right _ hn))
  | .return_ value span, h => by
    rw [checkStmt]
    refine optionForM_touches fun e he => checkReturn_touches hI ?_ (h.self rfl)
    subst he
    exact h.child (.head _) rfl
  | .exit _, _ | .terminate _, _ => by
    rw [checkStmt]
    exact .pure ()
  | .new target _, h => by
    rw [checkStmt]
    have htarget : Covers place name? (.expr target) := h.child (.head _) rfl
    exact (checkTarget_yields hI htarget (checkExpr_yields hI target htarget)).touches.bind
      fun _ => .pure ()
  | .dispose target _, h => by
    rw [checkStmt]
    exact checkValue_touches hI (h.child (.head _) rfl)
  | .ask call _, h => by
    rw [checkStmt]
    exact checkCallOf_touches hI (h.child (.head _) rfl)
  | .tell call delay _, h => by
    rw [checkStmt]
    refine (checkCallOf_touches hI (h.child (.head _) rfl)).bind fun _ =>
      optionForM_touches fun e he => ?_
    subst he
    exact checkNumeric_touches hI _ (h.child (.tail _ (.head _)) rfl)
  | .wait subject body interrupt _, h => by
    rw [checkStmt]
    have hsubject : Covers place name? (Node.ofWaitSubject subject) :=
      h.child (.head _) (by cases subject <;> rfl)
    exact (checkWaitSubject_touches hI hsubject).bind fun _ =>
      (checkBlock_touches hI body
          (h.stmts fun _ hn => .tail _ (List.mem_append_left _ hn))).bind fun _ =>
        checkOptional_touches hI interrupt (h.stmts fun _ hn => .tail _ (List.mem_append_right _ hn))
  | .inherited method args _, h => by
    rw [checkStmt]
    exact (inheritedCall_touches hI ((h.child (.head _) rfl).self rfl) (checkEach_touches hI args
      (h.exprs (List.subset_cons_self _ _)))).bind fun _ => .pure ()
  | .with_ subject body _, h => by
    rw [checkStmt]
    exact (checkValue_touches hI (h.child (.head _) rfl)).bind fun _ =>
      (checkBlock_touches hI body (h.stmts (List.subset_cons_self _ _))).within

theorem checkBlock_touches (hI : Silences I name?) : ∀ body : List Stmt,
    (∀ s ∈ body, Covers place name? (.stmt s)) → Touches I (checkBlock body)
  | [], _ => by
    rw [checkBlock]
    exact .pure ()
  | s :: rest, h => by
    rw [checkBlock]
    exact (checkStmt_touches hI s (h s (.head _))).bind fun _ =>
      checkBlock_touches hI rest fun s' hs' => h s' (.tail _ hs')

theorem checkOptional_touches (hI : Silences I name?) : ∀ body? : Option (List Stmt),
    (∀ s ∈ body?.getD [], Covers place name? (.stmt s)) → Touches I (checkOptional body?)
  | none, _ => by
    rw [checkOptional]
    exact .pure ()
  | some body, h => by
    rw [checkOptional]
    exact checkBlock_touches hI body h

theorem checkBranches_touches (hI : Silences I name?) : ∀ branches : List CondBranch,
    (∀ b ∈ branches, Covers place name? (.condBranch b)) → Touches I (checkBranches branches)
  | [], _ => by
    rw [checkBranches]
    exact .pure ()
  | ⟨condition, body, span⟩ :: rest, h => by
    rw [checkBranches]
    have hbranch := h ⟨condition, body, span⟩ (.head _)
    exact (checkCondition_touches hI (hbranch.child (.head _) rfl)).bind fun _ =>
      (checkBlock_touches hI body (hbranch.stmts (List.subset_cons_self _ _))).bind fun _ =>
        checkBranches_touches hI rest fun b hb => h b (.tail _ hb)

theorem checkArms_touches (hI : Silences I name?) : ∀ arms : List CaseArm,
    (∀ a ∈ arms, Covers place name? (.caseArm a)) → Touches I (checkArms arms)
  | [], _ => by
    rw [checkArms]
    exact .pure ()
  | ⟨labels, body, span⟩ :: rest, h => by
    rw [checkArms]
    have harm := h ⟨labels, body, span⟩ (.head _)
    exact (forM_touches fun e he => checkValue_touches hI
        (harm.exprs (List.subset_append_left _ _) e he)).bind fun _ =>
      (checkBlock_touches hI body (harm.stmts (List.subset_append_right _ _))).bind fun _ =>
        checkArms_touches hI rest fun a ha => h a (.tail _ ha)

end

end SimFront.Check
