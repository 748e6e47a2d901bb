import SimFront.Proofs.Check.RecastExpr
import SimFront.Check.Stmt

/-!
# Statements over a recast variable

A list of statements is checked with the same reports in the same places, whichever of the two
types the variable has, if nothing in it takes the type of the variable as it was declared.
-/

namespace SimFront.Check

variable {c : Recast}

/-- The report on a value of a type that is known to its end. -/
theorem errorUnless_blind (fits : Bool) (code : DiagnosticCode) (span : Span) (message : String) :
    Blind c (unless fits do error code span message) := by
  split
  · exact .pure rfl
  · exact error_recasts _ _ _ _

theorem checkCondition_blind {e : Expr} (h : c.Spares (.expr e)) : Blind c (checkCondition e) := by
  refine (checkExpr_carried e h).bind fun type type' htype => ?_
  refine (normalize_recasts htype).bind fun t t' ht => ?_
  subst ht
  exact errorUnless_blind _ _ _ _

theorem checkNumeric_blind (what : String) {e : Expr} (h : c.Spares (.expr e)) :
    Blind c (checkNumeric what e) := by
  refine (checkExpr_carried e h).bind fun type type' htype => ?_
  refine (normalize_recasts htype).bind fun t t' ht => ?_
  subst ht
  exact errorUnless_blind _ _ _ _

theorem checkAssign_blind {target value : Expr} (htarget : c.Spares (.expr target))
    (hvalue : c.Spares (.expr value)) : Blind c (checkAssign target value) := by
  refine (checkExpr_carried value hvalue).bind fun source source' hsource => ?_
  refine (checkPlace_carried htarget).bind fun type type' htype => ?_
  refine (assignable_recasts htype hsource).bind fun fits fits' hfits => ?_
  subst hfits
  split
  · exact .pure rfl
  · exact error_recasts _ _ _ _

theorem checkReturn_blind {value : Expr} (hvalue : c.Spares (.expr value)) (span : Span) :
    Blind c (checkReturn value span) := by
  refine (checkExpr_carried value hvalue).bind fun type type' htype => .read fun env => ?_
  split
  · exact .pure rfl
  · exact error_recasts _ _ _ _
  · next expected _ =>
    refine (assignable_recasts (.refl c false expected) htype).bind fun fits fits' hfits => ?_
    subst hfits
    split
    · exact .pure rfl
    · exact error_recasts _ _ _ _

theorem writeLoopVar_blind (var : Ident) : Blind c (writeLoopVar var) :=
  (writeName_recasts var).bind fun _ _ _ => .pure rfl

theorem checkCallOf_blind {call : MethodCall} (h : c.Spares (.methodCall call)) :
    Blind c (checkCallOf call) := (checkMethodCall_blind call h).bind fun _ => .pure rfl

theorem checkWaitSubject_blind {subject : WaitSubject} (h : c.Spares (Node.ofWaitSubject subject)) :
    Blind c (checkWaitSubject subject) := by
  cases subject with
  | method call => exact checkCallOf_blind h
  | duration time => exact checkNumeric_blind _ h

mutual

theorem checkStmt_blind : ∀ s : Stmt, c.Spares (.stmt s) → Blind c (checkStmt s)
  | .assign target value _, h => by
    rw [checkStmt]
    exact checkAssign_blind (h.child (.head _)) (h.child (.tail _ (.head _)))
  | .call call _, h => by
    rw [checkStmt]
    exact checkValue_blind (h.child (.head _))
  | .if_ branches else? _, h => by
    rw [checkStmt]
    exact (checkBranches_blind branches (h.mapped (List.subset_append_left _ _))).bind fun _ =>
      checkOptional_blind else? (h.mapped (List.subset_append_right _ _))
  | .while_ condition body _, h => by
    rw [checkStmt]
    exact (checkCondition_blind (h.child (.head _))).bind fun _ =>
      checkBlock_blind body (h.mapped (List.subset_cons_self _ _))
  | .repeat_ body condition _, h => by
    rw [checkStmt]
    exact (checkBlock_blind body (h.mapped (List.subset_append_left _ _))).bind fun _ =>
      checkCondition_blind (h.child (List.mem_append_right _ (.head _)))
  | .for_ var first _ last step body _, h => by
    rw [checkStmt]
    have hstep : ∀ e, step = some e → c.Spares (.expr e) := by
      rintro e rfl
      exact h.child (.tail _ (.tail _ (.tail _ (.head _))))
    exact (checkValue_blind (h.child (.tail _ (.head _)))).bind fun _ =>
      (checkValue_blind (h.child (.tail _ (.tail _ (.head _))))).bind fun _ =>
        (optionForM_blind fun e he => checkValue_blind (hstep e he)).bind fun _ =>
          (writeLoopVar_blind var).bind fun _ =>
            checkBlock_blind body (h.mapped fun _ hn =>
              .tail _ (.tail _ (.tail _ (List.mem_append_right _ hn))))
  | .forEach var group body _, h => by
    rw [checkStmt]
    exact (checkValue_blind (h.child (.tail _ (.head _)))).bind fun _ =>
      (writeLoopVar_blind var).bind fun _ =>
        checkBlock_blind body (h.mapped fun _ hn => .tail _ (.tail _ hn))
  | .loop body _, h => by
    rw [checkStmt]
    exact checkBlock_blind body (h.mapped (List.Subset.refl _))
  | .case selector arms otherwise _, h => by
    rw [checkStmt]
    exact (checkValue_blind (h.child (.head _))).bind fun _ =>
      (checkArms_blind arms (h.mapped fun _ hn => .tail _ (List.mem_append_left _ hn))).bind fun _ =>
        checkOptional_blind otherwise (h.mapped fun _ hn => .tail _ (List.mem_append_right _ hn))
  | .return_ value span, h => by
    rw [checkStmt]
    refine optionForM_blind fun e he => checkReturn_blind ?_ span
    subst he
    exact h.child (.head _)
  | .exit _, _ | .terminate _, _ => by
    rw [checkStmt]
    exact .pure rfl
  | .new target _, h => by
    rw [checkStmt]
    exact (checkPlace_carried (h.child (.head _))).bind fun _ _ _ => .pure rfl
  | .dispose target _, h => by
    rw [checkStmt]
    exact checkValue_blind (h.child (.head _))
  | .ask call _, h => by
    rw [checkStmt]
    exact checkCallOf_blind (h.child (.head _))
  | .tell call delay _, h => by
    rw [checkStmt]
    refine (checkCallOf_blind (h.child (.head _))).bind fun _ => optionForM_blind fun e he => ?_
    subst he
    exact checkNumeric_blind _ (h.child (.tail _ (.head _)))
  | .wait subject body interrupt _, h => by
    rw [checkStmt]
    exact (checkWaitSubject_blind (h.child (.head _))).bind fun _ =>
      (checkBlock_blind body (h.mapped fun _ hn => .tail _ (List.mem_append_left _ hn))).bind fun _ =>
        checkOptional_blind interrupt (h.mapped fun _ hn => .tail _ (List.mem_append_right _ hn))
  | .inherited method args _, h => by
    rw [checkStmt]
    exact (inheritedCall_blind method (checkEach_carried args
      (h.mapped (List.subset_cons_self _ _)))).bind fun _ => .pure rfl
  | .with_ subject body _, h => by
    rw [checkStmt]
    exact (checkValue_blind (h.child (.head _))).bind fun _ =>
      .withReader _ (checkBlock_blind body (h.mapped (List.subset_cons_self _ _)))

/-- A list of statements is checked alike, if nothing in it takes the type of the variable as
declared. -/
theorem checkBlock_blind : ∀ body : List Stmt, (∀ s ∈ body, c.Spares (.stmt s)) →
    Blind c (checkBlock body)
  | [], _ => by
    rw [checkBlock]
    exact .pure rfl
  | s :: rest, h => by
    rw [checkBlock]
    exact (checkStmt_blind s (h s (.head _))).bind fun _ =>
      checkBlock_blind rest fun s' hs' => h s' (.tail _ hs')

theorem checkOptional_blind : ∀ body? : Option (List Stmt),
    (∀ s ∈ body?.getD [], c.Spares (.stmt s)) → Blind c (checkOptional body?)
  | none, _ => by
    rw [checkOptional]
    exact .pure rfl
  | some body, h => by
    rw [checkOptional]
    exact checkBlock_blind body h

theorem checkBranches_blind : ∀ branches : List CondBranch,
    (∀ b ∈ branches, c.Spares (.condBranch b)) → Blind c (checkBranches branches)
  | [], _ => by
    rw [checkBranches]
    exact .pure rfl
  | ⟨condition, body, span⟩ :: rest, h => by
    rw [checkBranches]
    have hbranch := h ⟨condition, body, span⟩ (.head _)
    exact (checkCondition_blind (hbranch.child (.head _))).bind fun _ =>
      (checkBlock_blind body (hbranch.mapped (List.subset_cons_self _ _))).bind fun _ =>
        checkBranches_blind rest fun b hb => h b (.tail _ hb)

theorem checkArms_blind : ∀ arms : List CaseArm, (∀ a ∈ arms, c.Spares (.caseArm a)) →
    Blind c (checkArms arms)
  | [], _ => by
    rw [checkArms]
    exact .pure rfl
  | ⟨labels, body, span⟩ :: rest, h => by
    rw [checkArms]
    have harm := h ⟨labels, body, span⟩ (.head _)
    exact (forM_blind fun e he => checkValue_blind
        (harm.mapped (List.subset_append_left _ _) e he)).bind fun _ =>
      (checkBlock_blind body (harm.mapped (List.subset_append_right _ _))).bind fun _ =>
        checkArms_blind rest fun a ha => h a (.tail _ ha)

end

/-- **Names of types.**  Two runs come to a list of statements with the same declarations, but for a
variable that has one type in the one and another in the other.  Both types lead over names to the
same one, which has no members.  If the variable is not dereferenced, not called and not the first
element of a set, then the statements make reports of the same kinds in the same places, in the
same order. -/
theorem sites_of_recast {s u : CheckState} (h : s.Recasts c u) {body : List Stmt}
    (hbody : ∀ st ∈ body, c.Spares (.stmt st)) (env : Env) :
    ((checkBlock body).outcome env u).2.reports.map (·.site) =
      ((checkBlock body).outcome env s).2.reports.map (·.site) := by
  obtain ⟨-, hafter⟩ := checkBlock_blind body hbody env s u h
  exact hafter.sites

/-- A variable of a type `A = POINTER TO INTEGER`, or of that pointer type itself, is set to a
number. -/
theorem sites_of_recast_pointer :
    let place (offset length : Nat) : Span :=
      ⟨⟨1, offset + 1, offset⟩, ⟨1, offset + length + 1, offset + length⟩⟩
    let a : Ident := ⟨"A", place 15 1⟩
    let v (offset : Nat) : Ident := ⟨"v", place offset 1⟩
    let pointer : TypeSpec := .pointer (.named (.ofIdent ⟨"INTEGER", place 30 7⟩)) (place 19 18)
    let decls (type : TypeSpec) : List Decl :=
      [.type ⟨a, pointer, place 15 22⟩, .var ⟨[v 43], type, none, place 43 4⟩]
    let body : List Stmt := [.assign (.name (v 55)) (.integer 1 (place 60 1)) (place 55 6)]
    let m (type : TypeSpec) : Module :=
      ⟨.plain, ⟨"M", place 7 1⟩, [], [], decls type, some body, place 0 74⟩
    let env := Env.ofModule none (m pointer)
    let s (type : TypeSpec) := ((declareAll (decls type)).outcome env (.ofModule (m type))).2
    let named : TypeSpec := .named (.ofIdent a)
    let c : Recast :=
      ⟨1, "v", .named none "A", .pointer .integer, .pointer .integer, rfl, rfl, rfl⟩
    (s named).Recasts c (s pointer) ∧ (∀ st ∈ body, c.Spares (.stmt st)) ∧
      ((checkBlock body).outcome env (s named)).2.reports.map (·.code) = [.typeMismatch] ∧
      ((checkBlock body).outcome env (s pointer)).2.reports.map (·.site) =
        ((checkBlock body).outcome env (s named)).2.reports.map (·.site) := by
  intro place a v pointer decls body m env s named c
  have hbehind : (s named).table.LeadsTo (s named).table.current 0 (.pointer .integer)
      (.pointer .integer) := .here rfl
  have hnames (scope : Nat) (name : String) : (s named).table.declared? scope name =
      if scope = 0 then List.lookup name [("v", 1), ("A", 0)] else none := by
    cases scope <;> rfl
  have hfits : (s named).table.Fits c := {
    symbol := ⟨_, rfl, by decide, rfl⟩
    only := by
      intro scope name h
      rw [hnames] at h
      split at h
      · obtain ⟨l, r, hl, -⟩ := List.lookup_eq_some_iff.1 h
        have hmem : (name, 1) ∈ [("v", 1), ("A", 0)] := hl ▸ List.mem_append_right l (.head _)
        simpa using hmem
      · cases h
    old := by
      have hlookup : (s named).table.lookupFrom? (s named).table.current "A" = some 0 := by
        decide +kernel
      exact ⟨1, by decide, .name rfl hlookup rfl rfl hbehind⟩
    new := ⟨0, by decide, hbehind⟩ }
  have hrecasts : (s named).Recasts c (s pointer) :=
    @CheckState.Recasts.mk c (s named) ⟨(s pointer).table.references, _, _⟩ hfits rfl
  have hbody : ∀ st ∈ body, c.Spares (.stmt st) := by
    intro st hst
    obtain rfl := List.mem_singleton.1 hst
    unfold Recast.Spares
    decide +kernel
  exact ⟨hrecasts, hbody, by decide +kernel, sites_of_recast hrecasts hbody env⟩

end SimFront.Check
