import SimFront.Proofs.Check.Performs

/-!
# What expressions and statements do with an OUT parameter

Expressions and statements are checked in the order in which they are evaluated, so their checks
perform the accesses that are read off the tree.  A target counts as assigned before the rest of it
is evaluated.
-/

namespace SimFront

/-! ## Targets -/

/-- What has a leftmost name is a place. -/
theorem Expr.isDesignator_of_rootName? : ∀ {e : Expr} {r : Ident}, e.rootName? = some r →
    e.isDesignator
  | .name _, _, _ => rfl
  | .deref _ _, _, _ => rfl
  | .field base _ _, r, h => by
    have hbase := isDesignator_of_rootName? (e := base) h
    cases base <;> first | exact hbase | rfl
  | .index base _ _, r, h => by
    have hbase := isDesignator_of_rootName? (e := base) h
    cases base <;> first | exact hbase | rfl

theorem Expr.rootName?_of_not_isDesignator {e : Expr} (h : ¬ e.isDesignator) :
    e.rootName? = none := by
  cases hr : e.rootName? with
  | none => rfl
  | some r => exact absurd (isDesignator_of_rootName? hr) h

namespace Check

variable {α : Type} {env : Env} {s : CheckState} {p : Nat} {name : String} {as : List Access}

/-- An expression without a leftmost name is evaluated alike as a target and as a value. -/
theorem exprAccesses_of_no_root (isTarget : Bool) : ∀ {e : Expr}, e.rootName? = none →
    exprAccesses env s p isTarget e = exprAccesses env s p false e
  | .field base _ _, h => by
    rw [exprAccesses, exprAccesses]
    exact exprAccesses_of_no_root isTarget (e := base) h
  | .deref base _, h => by
    rw [exprAccesses, exprAccesses]
    exact exprAccesses_of_no_root isTarget (e := base) h
  | .index base _ _, h => by
    rw [exprAccesses, exprAccesses, exprAccesses_of_no_root isTarget (e := base) h]
  | .integer _ _, _ | .real _ _, _ | .string _ _, _ | .char _ _, _ | .bool _ _, _ | .nil _ _, _
  | .selfRef _, _ | .unary _ _ _, _ | .binary _ _ _ _, _ | .call _ _ _, _ | .set _ _, _
  | .range _ _ _, _ | .ask _, _ | .inherited _ _ _, _ | .missing _, _ => by
    rw [exprAccesses, exprAccesses]

/-- The leftmost name comes first, and only what is done with it hangs on the use as a target. -/
theorem exprAccesses_of_root : ∀ {e : Expr} {r : Ident}, e.rootName? = some r →
    ∃ rest, ∀ isTarget, exprAccesses env s p isTarget e = nameAccesses s p isTarget r ++ rest
  | .name id, r, h => by
    cases h
    exact ⟨[], fun isTarget => by rw [exprAccesses, List.append_nil]⟩
  | .field base _ _, r, h => by
    obtain ⟨rest, hrest⟩ := exprAccesses_of_root (e := base) h
    exact ⟨rest, fun isTarget => by rw [exprAccesses, hrest]⟩
  | .deref base _, r, h => by
    obtain ⟨rest, hrest⟩ := exprAccesses_of_root (e := base) h
    exact ⟨rest, fun isTarget => by rw [exprAccesses, hrest]⟩
  | .index base indices _, r, h => by
    obtain ⟨rest, hrest⟩ := exprAccesses_of_root (e := base) h
    exact ⟨rest ++ argAccesses env s p [] indices, fun isTarget => by
      rw [exprAccesses, hrest, List.append_assoc]⟩

section

variable (hp : OutParam env s p name)

include hp

theorem checkTarget_performs {e : Expr}
    (h : Performs env s p name (exprAccesses env s p false e) (checkExpr e)) :
    Performs env s p name (exprAccesses env s p true e) (checkTarget e (checkExpr e)) := by
  have hs := hp.faithful
  unfold checkTarget
  split
  · next hplace =>
    have hroot := Expr.rootName?_of_not_isDesignator (e := e) (by simpa using hplace)
    rw [exprAccesses_of_no_root true hroot]
    exact .after hs (error_performs (by decide) _ _) (h.then hs fun _ => .pure _)
  · split
    · rw [exprAccesses]
      exact writeName_performs hp _
    · dsimp only
      split
      · next r hr =>
        obtain ⟨rest, hrest⟩ : ∃ rest, ∀ isTarget,
            exprAccesses env s p isTarget e = nameAccesses s p isTarget r ++ rest :=
          exprAccesses_of_root hr
        rw [hrest] at h ⊢
        refine .table (fun t rs => by simp only [lookupId?_references]) ?_
        rw [nameAccesses] at h ⊢
        cases hid : s.table.lookupId? r.name with
        | none =>
          rw [hid] at h
          simpa using h
        | some id =>
          rw [hid] at h
          refine ((markAssigned_performs r.span id).bind hs h).congr ?_
          simp only [symbolAccesses, Option.some.injEq]
          split
          · exact Access.alike_read rfl _ rest
          · exact .refl rest
      · next hr =>
        rw [exprAccesses_of_no_root true hr]
        exact h

/-! ## Arguments -/

theorem notAPlace_performs (index : Nat) (mode : ParamMode) {arg : Argument}
    (h : Performs env s p name as arg.2) : Performs env s p name as (notAPlace index mode arg) :=
  have hs := hp.faithful
  .after hs (error_performs (by decide) _ _) (h.then hs fun _ => .pure _)

variable {e : Expr} {es : List Expr}

theorem checkArg_performs (index : Nat)
    (h : Performs env s p name (exprAccesses env s p false e) (checkExpr e))
    (param? : Option ParamType) : Performs env s p name
      (exprAccesses env s p ((param?.map (·.mode)).any (·.needsDesignator)) e)
      (checkArg index (e, checkExpr e) param?) := by
  have hs := hp.faithful
  cases param? with
  | none => exact h.then hs fun _ => .pure _
  | some param =>
    unfold checkArg
    dsimp only [Option.map_some, Option.any_some]
    split
    · next hmode =>
      rw [hmode]
      split
      · exact (checkTarget_performs hp h).then hs fun _ => .pure _
      · next hplace =>
        rw [exprAccesses_of_no_root true (Expr.rootName?_of_not_isDesignator hplace)]
        exact notAPlace_performs hp index param.mode h
    · next hmode =>
      rw [Bool.eq_false_iff.2 hmode]
      refine h.then hs fun type => (assignable_performs hs param.type type).then hs fun fits => ?_
      split
      · exact .pure _
      · exact error_performs (by decide) _ _

theorem checkArgList_performs (index : Nat)
    (h : ∀ e ∈ es, Performs env s p name (exprAccesses env s p false e) (checkExpr e))
    (params : List ParamType) : Performs env s p name
      (argAccesses env s p (params.map (·.mode)) es) (checkArgList index (checkEach es) params) := by
  induction es generalizing index params with
  | nil =>
    rw [argAccesses, checkEach]
    exact .pure _
  | cons e es ih =>
    rw [argAccesses, checkEach, List.head?_map, ← List.map_tail]
    exact (checkArg_performs hp index (h e (.head _)) params.head?).bind hp.faithful
      (ih (index + 1) (fun e he => h e (.tail _ he)) params.tail)

theorem checkArgs_performs
    (h : ∀ e ∈ es, Performs env s p name (exprAccesses env s p false e) (checkExpr e))
    (signature? : Option Signature) (span : Span) : Performs env s p name
      (argAccesses env s p ((signature?.map (·.params)).getD [] |>.map (·.mode)) es)
      (checkArgs (checkEach es) signature? span) := by
  cases signature? with
  | none => exact checkArgList_performs hp 0 h []
  | some signature =>
    unfold checkArgs
    dsimp only
    split
    · exact .after hp.faithful (error_performs (by decide) _ _) (checkArgList_performs hp 0 h _)
    · exact checkArgList_performs hp 0 h _

theorem callResult_performs
    (h : ∀ e ∈ es, Performs env s p name (exprAccesses env s p false e) (checkExpr e))
    (callee : Ty) (span : Span) : Performs env s p name
      (argAccesses env s p (paramModes callee) es) (callResult callee (checkEach es) span) := by
  have hs := hp.faithful
  cases callee with
  | procedure signature => exact (checkArgs_performs hp h (some signature) span).then hs fun _ => .pure _
  | _ => exact (checkArgs_performs hp h none span).then hs fun _ => .pure _

/-- Running the checks of some values one after the other. -/
theorem checkRest_performs
    (h : ∀ e ∈ es, Performs env s p name (exprAccesses env s p false e) (checkExpr e)) :
    Performs env s p name (argAccesses env s p [] es)
      ((checkEach es).forM fun a => do let _ ← a.2; pure ()) := by
  induction es with
  | nil =>
    rw [argAccesses, checkEach]
    exact .pure _
  | cons e es ih =>
    rw [argAccesses, checkEach]
    exact ((h e (.head _)).then hp.faithful fun _ => .pure _).bind hp.faithful
      (ih fun e he => h e (.tail _ he))

theorem firstType_performs
    (h : ∀ e ∈ es, Performs env s p name (exprAccesses env s p false e) (checkExpr e)) :
    Performs env s p name (argAccesses env s p [] es) (firstType (checkEach es)) := by
  have hs := hp.faithful
  cases es with
  | nil =>
    rw [argAccesses, checkEach]
    exact .pure _
  | cons e es =>
    rw [argAccesses, checkEach]
    exact (h e (.head _)).bind hs ((checkRest_performs hp fun e he => h e (.tail _ he)).then hs
      fun _ => .pure _)

theorem builtinCall_performs (builtin : String)
    (h : ∀ e ∈ es, Performs env s p name (exprAccesses env s p false e) (checkExpr e)) :
    Performs env s p name (argAccesses env s p (builtinModes builtin) es)
      (builtinCall builtin (checkEach es)) := by
  have hs := hp.faithful
  cases es with
  | nil =>
    rw [argAccesses, checkEach]
    exact .pure _
  | cons e es =>
    have hrest : (builtinModes builtin).tail = [] := by
      unfold builtinModes
      split <;> rfl
    have hfirst : Performs env s p name (exprAccesses env s p
        ((builtinModes builtin).head?.any (·.needsDesignator)) e)
        (checkFirstArg builtin (e, checkExpr e)) := by
      unfold checkFirstArg builtinModes
      split
      · split
        · exact checkTarget_performs hp (h e (.head _))
        · next hplace =>
          show Performs env s p name (exprAccesses env s p true e) _
          rw [exprAccesses_of_no_root true (Expr.rootName?_of_not_isDesignator hplace)]
          exact (notAPlace_performs hp 0 .inOut (h e (.head _))).then hs fun _ => .pure _
      · exact h e (.head _)
    rw [argAccesses, checkEach, hrest]
    exact hfirst.bind hs ((checkRest_performs hp fun e he => h e (.tail _ he)).then hs
      fun _ => .pure _)

/-! ## Calls -/

theorem checkCall_performs {callee : Expr}
    (hcallee : Performs env s p name (exprAccesses env s p false callee) (checkExpr callee))
    (h : ∀ e ∈ es, Performs env s p name (exprAccesses env s p false e) (checkExpr e))
    (span : Span) : Performs env s p name (exprAccesses env s p false (.call callee es span))
      (checkCall callee (checkExpr callee) (checkEach es) span) := by
  have hs := hp.faithful
  have hbuiltin : Performs env s p name [] (builtinCallee? callee) := by
    unfold builtinCallee?
    split
    · refine .table (fun t rs => by simp only [lookupId?_references]) ?_
      split
      · exact .pure _
      · exact .pure _
    · exact .pure _
  rw [exprAccesses]
  refine .after hs hbuiltin ?_
  cases ((builtinCallee? callee).outcome env s).1 with
  | some builtin => exact builtinCall_performs hp builtin h
  | none => exact hcallee.bind hs (callResult_performs hp h _ span)

theorem inheritedCall_performs (method : Ident)
    (h : ∀ e ∈ es, Performs env s p name (exprAccesses env s p false e) (checkExpr e)) :
    Performs env s p name (argAccesses env s p (paramModes (inheritedType env s method.name)) es)
      (inheritedCall method (checkEach es)) := by
  have hs := hp.faithful
  refine .read ?_
  unfold inheritedType
  cases (env.objects.head?.filter (·.chainResolved)).bind (·.object?) with
  | none => exact callResult_performs hp h _ _
  | some o =>
    refine .after hs (baseMethod_performs hs o method.name) ?_
    dsimp only
    cases ((baseMethod o method.name).outcome env s).1 with
    | some base => exact callResult_performs hp h _ _
    | none => exact .after hs (error_performs (by decide) _ _) (callResult_performs hp h _ _)

theorem binaryType_performs (op : BinaryOp) (left right : Ty) :
    Performs env s p name [] (binaryType op left right) := by
  have hs := hp.faithful
  unfold binaryType
  split
  · exact .pure _
  · exact (normalize_performs hs left).then hs fun _ => (normalize_performs hs right).then hs
      fun _ => .pure _

theorem elementType_performs (base : Ty) : Performs env s p name [] (elementType base) := by
  have hs := hp.faithful
  refine (normalize_performs hs base).then hs fun t => ?_
  split
  · exact .pure _
  · exact .pure _
  · exact .pure _

end

/-! ## Expressions -/

mutual

theorem checkExpr_performs (hp : OutParam env s p name) : ∀ e : Expr,
    Performs env s p name (exprAccesses env s p false e) (checkExpr e)
  | .name id => by
    rw [checkExpr, exprAccesses]
    exact readName_performs hp id
  | .integer _ _ | .real _ _ | .string _ _ | .char _ _ | .bool _ _ | .nil _ _ | .missing _ => by
    rw [checkExpr, exprAccesses]
    exact .pure _
  | .selfRef _ => by
    rw [checkExpr, exprAccesses]
    exact .read (.pure _)
  | .unary op operand _ => by
    rw [checkExpr, exprAccesses]
    exact (checkExpr_performs hp operand).then hp.faithful fun _ => .pure _
  | .binary op left right _ => by
    rw [checkExpr, exprAccesses]
    exact (checkExpr_performs hp left).bind hp.faithful <|
      (checkExpr_performs hp right).then hp.faithful fun r => binaryType_performs hp op _ r
  | .call callee args span => by
    rw [checkExpr]
    exact checkCall_performs hp (checkExpr_performs hp callee) (checkEach_performs hp args) span
  | .index base indices _ => by
    rw [checkExpr, exprAccesses]
    exact (checkExpr_performs hp base).bind hp.faithful <|
      (firstType_performs hp (checkEach_performs hp indices)).then hp.faithful fun _ =>
        elementType_performs hp _
  | .field base member _ => by
    rw [checkExpr, exprAccesses]
    exact fieldAccess_performs hp (checkExpr_performs hp base) member
  | .deref base _ => by
    rw [checkExpr, exprAccesses]
    refine (checkExpr_performs hp base).then hp.faithful fun type => ?_
    split
    · exact .pure _
    · exact .pure _
  | .set elements _ => by
    rw [checkExpr, exprAccesses]
    exact (firstType_performs hp (checkEach_performs hp elements)).then hp.faithful fun _ => .pure _
  | .range low high _ => by
    rw [checkExpr, exprAccesses]
    exact (checkExpr_performs hp low).bind hp.faithful <|
      (checkExpr_performs hp high).then hp.faithful fun _ => .pure _
  | .ask call => by
    rw [checkExpr, exprAccesses]
    exact checkMethodCall_performs hp call
  | .inherited method args _ => by
    rw [checkExpr, exprAccesses]
    exact inheritedCall_performs hp method (checkEach_performs hp args)

theorem checkMethodCall_performs (hp : OutParam env s p name) : ∀ call : MethodCall,
    Performs env s p name (callAccesses env s p call) (checkMethodCall call)
  | ⟨target, method, args, span⟩ => by
    rw [checkMethodCall, callAccesses, methodCall, ← bind_assoc]
    have callee : Performs env s p name (exprAccesses env s p false target)
        (do memberType (← checkExpr target) method) :=
      (checkExpr_performs hp target).then hp.faithful fun type => memberType_performs hp type method
    exact callee.bind hp.faithful (callResult_performs hp (checkEach_performs hp args) _ span)

theorem checkEach_performs (hp : OutParam env s p name) : ∀ es : List Expr, ∀ e ∈ es,
    Performs env s p name (exprAccesses env s p false e) (checkExpr e)
  | [] => List.forall_mem_nil _
  | e :: es => List.forall_mem_cons.2 ⟨checkExpr_performs hp e, checkEach_performs hp es⟩

end

/-! ## Statements -/

section

variable (hp : OutParam env s p name)

include hp

theorem checkValue_performs (e : Expr) :
    Performs env s p name (exprAccesses env s p false e) (checkValue e) :=
  (checkExpr_performs hp e).then hp.faithful fun _ => .pure _

theorem checkPlace_performs (target : Expr) :
    Performs env s p name (exprAccesses env s p true target) (checkPlace target) :=
  checkTarget_performs hp (checkExpr_performs hp target)

theorem checkCondition_performs (e : Expr) :
    Performs env s p name (exprAccesses env s p false e) (checkCondition e) := by
  have hs := hp.faithful
  refine (checkExpr_performs hp e).then hs fun t => (normalize_performs hs t).then hs fun type => ?_
  split
  · exact .pure _
  · exact error_performs (by decide) _ _

theorem checkNumeric_performs (what : String) (e : Expr) :
    Performs env s p name (exprAccesses env s p false e) (checkNumeric what e) := by
  have hs := hp.faithful
  refine (checkExpr_performs hp e).then hs fun t => (normalize_performs hs t).then hs fun type => ?_
  split
  · exact .pure _
  · exact error_performs (by decide) _ _

theorem checkAssign_performs (target value : Expr) : Performs env s p name
    (exprAccesses env s p false value ++ exprAccesses env s p true target)
      (checkAssign target value) := by
  have hs := hp.faithful
  refine (checkExpr_performs hp value).bind hs ((checkPlace_performs hp target).then hs
    fun targetType => (assignable_performs hs targetType _).then hs fun fits => ?_)
  split
  · exact .pure _
  · exact error_performs (by decide) _ _

theorem checkReturn_performs (value : Expr) (span : Span) :
    Performs env s p name (exprAccesses env s p false value) (checkReturn value span) := by
  have hs := hp.faithful
  refine (checkExpr_performs hp value).then hs fun type => .read ?_
  split
  · exact .pure _
  · exact error_performs (by decide) _ _
  · refine (assignable_performs hs _ type).then hs fun fits => ?_
    split
    · exact .pure _
    · exact error_performs (by decide) _ _

theorem writeLoopVar_performs (var : Ident) :
    Performs env s p name (nameAccesses s p true var) (writeLoopVar var) :=
  (writeName_performs hp var).then hp.faithful fun _ => .pure _

theorem checkCallOf_performs (call : MethodCall) :
    Performs env s p name (callAccesses env s p call) (checkCallOf call) :=
  (checkMethodCall_performs hp call).then hp.faithful fun _ => .pure _

theorem checkWaitSubject_performs (subject : WaitSubject) :
    Performs env s p name (subjectAccesses s p env subject) (checkWaitSubject subject) := by
  cases subject with
  | method call => exact checkCallOf_performs hp call
  | duration time => exact checkNumeric_performs hp _ time

/-- The parameter inside a WITH statement. -/
theorem OutParam.within : OutParam { env with insideWith := true } s p name :=
  ⟨hp.faithful.of_resolver rfl rfl, hp.reachable, hp.declared, hp.kind, hp.others⟩

end

mutual

theorem checkStmt_performs {env : Env} (hp : OutParam env s p name) : ∀ stmt : Stmt,
    Performs env s p name (stmtAccesses s p env stmt) (checkStmt stmt)
  | .assign target value _ => by
    rw [checkStmt, stmtAccesses]
    exact checkAssign_performs hp target value
  | .call call _ => by
    rw [checkStmt, stmtAccesses]
    exact checkValue_performs hp call
  | .if_ branches else? _ => by
    rw [checkStmt, stmtAccesses]
    exact (checkBranches_performs hp branches).bind hp.faithful (checkOptional_performs hp else?)
  | .while_ condition body _ => by
    rw [checkStmt, stmtAccesses]
    exact (checkCondition_performs hp condition).bind hp.faithful (checkBlock_performs hp body)
  | .repeat_ body condition _ => by
    rw [checkStmt, stmtAccesses]
    exact (checkBlock_performs hp body).bind hp.faithful (checkCondition_performs hp condition)
  | .for_ var first _ last step body _ => by
    rw [checkStmt, stmtAccesses]
    simp only [List.append_assoc]
    exact (checkValue_performs hp first).bind hp.faithful <|
      (checkValue_performs hp last).bind hp.faithful <|
        (optionForM_performs (checkValue_performs hp)).bind hp.faithful <|
          (writeLoopVar_performs hp var).bind hp.faithful (checkBlock_performs hp body)
  | .forEach var group body _ => by
    rw [checkStmt, stmtAccesses, List.append_assoc]
    exact (checkValue_performs hp group).bind hp.faithful <|
      (writeLoopVar_performs hp var).bind hp.faithful (checkBlock_performs hp body)
  | .loop body _ => by
    rw [checkStmt, stmtAccesses]
    exact checkBlock_performs hp body
  | .case selector arms otherwise _ => by
    rw [checkStmt, stmtAccesses, List.append_assoc]
    exact (checkValue_performs hp selector).bind hp.faithful <|
      (checkArms_performs hp arms).bind hp.faithful (checkOptional_performs hp otherwise)
  | .return_ value span => by
    rw [checkStmt, stmtAccesses]
    exact optionForM_performs fun e => checkReturn_performs hp e span
  | .exit _ | .terminate _ => by
    rw [checkStmt, stmtAccesses]
    exact .pure _
  | .new target _ => by
    rw [checkStmt, stmtAccesses]
    exact (checkPlace_performs hp target).then hp.faithful fun _ => .pure _
  | .dispose target _ => by
    rw [checkStmt, stmtAccesses]
    exact checkValue_performs hp target
  | .ask call _ => by
    rw [checkStmt, stmtAccesses]
    exact checkCallOf_performs hp call
  | .tell call delay _ => by
    rw [checkStmt, stmtAccesses]
    exact (checkCallOf_performs hp call).bind hp.faithful
      (optionForM_performs (checkNumeric_performs hp _))
  | .wait subject body interrupt _ => by
    rw [checkStmt, stmtAccesses, List.append_assoc]
    exact (checkWaitSubject_performs hp subject).bind hp.faithful <|
      (checkBlock_performs hp body).bind hp.faithful (checkOptional_performs hp interrupt)
  | .inherited method args _ => by
    rw [checkStmt, stmtAccesses]
    exact (inheritedCall_performs hp method (checkEach_performs hp args)).then hp.faithful
      fun _ => .pure _
  | .with_ subject body _ => by
    rw [checkStmt, stmtAccesses]
    exact (checkValue_performs hp subject).bind hp.faithful <|
      .withReader rfl rfl (checkBlock_performs hp.within body)

theorem checkBlock_performs {env : Env} (hp : OutParam env s p name) : ∀ body : List Stmt,
    Performs env s p name (blockAccesses s p env body) (checkBlock body)
  | [] => by
    rw [checkBlock, blockAccesses]
    exact .pure _
  | stmt :: rest => by
    rw [checkBlock, blockAccesses]
    exact (checkStmt_performs hp stmt).bind hp.faithful (checkBlock_performs hp rest)

theorem checkOptional_performs {env : Env} (hp : OutParam env s p name) :
    ∀ body? : Option (List Stmt),
      Performs env s p name (optionalAccesses s p env body?) (checkOptional body?)
  | none => by
    rw [checkOptional, optionalAccesses]
    exact .pure _
  | some body => by
    rw [checkOptional, optionalAccesses]
    exact checkBlock_performs hp body

theorem checkBranches_performs {env : Env} (hp : OutParam env s p name) :
    ∀ branches : List CondBranch,
      Performs env s p name (branchAccesses s p env branches) (checkBranches branches)
  | [] => by
    rw [checkBranches, branchAccesses]
    exact .pure _
  | ⟨condition, body, _⟩ :: rest => by
    rw [checkBranches, branchAccesses, List.append_assoc]
    exact (checkCondition_performs hp condition).bind hp.faithful <|
      (checkBlock_performs hp body).bind hp.faithful (checkBranches_performs hp rest)

theorem checkArms_performs {env : Env} (hp : OutParam env s p name) : ∀ arms : List CaseArm,
    Performs env s p name (armAccesses s p env arms) (checkArms arms)
  | [] => by
    rw [checkArms, armAccesses]
    exact .pure _
  | ⟨labels, body, _⟩ :: rest => by
    rw [checkArms, armAccesses, List.append_assoc]
    exact (forM_performs hp.faithful fun e _ => checkValue_performs hp e).bind hp.faithful <|
      (checkBlock_performs hp body).bind hp.faithful (checkArms_performs hp rest)

end

end Check

end SimFront
