import SimFront.Check.Stmt
import SimFront.Proofs.Check.Confined

/-!
# Expressions and statements name no modules

A module cannot be named in an expression, and the types of expressions come from those of
symbols.  So whatever is written in the statements of a module, they confine.
-/

namespace SimFront.Check

open Naming (NamesOnly)

variable {own : String} {qs : List String}

/-! ## Operators -/

theorem namesOnly_arithmeticType (op : BinaryOp) {left : Ty} (hleft : NamesOnly qs left)
    (right : Ty) : NamesOnly qs (arithmeticType op left right) := by
  unfold arithmeticType
  split
  · exact Ty.namesOnly_builtin
  · exact Ty.namesOnly_builtin
  · repeat' split
    all_goals first | exact Ty.namesOnly_builtin | exact hleft | exact Ty.namesOnly_unknown

theorem binaryType_confines (op : BinaryOp) {left right : Ty} (hleft : NamesOnly qs left)
    (hright : NamesOnly qs right) :
    Confines own qs (NamesOnly qs) (binaryType op left right) := by
  unfold binaryType
  split
  · exact .pure Ty.namesOnly_builtin
  · exact (normalize_confines hleft).bind fun l hl => (normalize_confines hright).bind fun r _ =>
      .pure (namesOnly_arithmeticType op hl r)

theorem elementType_confines {base : Ty} (hbase : NamesOnly qs base) :
    Confines own qs (NamesOnly qs) (elementType base) := by
  refine (normalize_confines hbase).bind fun t ht => ?_
  split
  · exact .pure (Ty.namesOnly_array.1 ht)
  · exact .pure Ty.namesOnly_builtin
  · exact .pure Ty.namesOnly_unknown

/-! ## Targets and arguments -/

theorem checkTarget_confines (target : Expr) {check : Check Ty}
    (hcheck : Confines own qs (NamesOnly qs) check) :
    Confines own qs (NamesOnly qs) (checkTarget target check) := by
  unfold checkTarget
  split
  · exact (error_confines _ _ _).bind fun _ _ => hcheck.bind fun _ _ => .pure Ty.namesOnly_unknown
  · split
    · exact writeName_confines _
    · dsimp only
      split
      · refine .table fun t _ => ?_
        split
        · exact (setOutState_confines _ _).bind fun _ _ => hcheck
        · exact hcheck
      · exact hcheck

variable {arg : Argument} {args : List Argument}

theorem notAPlace_confines (index : Nat) (mode : ParamMode)
    (harg : Confines own qs (NamesOnly qs) arg.2) :
    Confines own qs (fun _ => True) (notAPlace index mode arg) :=
  (error_confines _ _ _).bind fun _ _ => harg.bind fun _ _ => .pure trivial

theorem checkArg_confines (index : Nat) (harg : Confines own qs (NamesOnly qs) arg.2)
    {param? : Option ParamType} (hparam : NamesOnly qs param?) :
    Confines own qs (fun _ => True) (checkArg index arg param?) := by
  cases param? with
  | none => exact harg.bind fun _ _ => .pure trivial
  | some p =>
    have hp : NamesOnly qs p := namesOnly_some.1 hparam
    unfold checkArg
    dsimp only
    split
    · split
      · exact (checkTarget_confines arg.1 harg).bind fun _ _ => .pure trivial
      · exact notAPlace_confines index p.mode harg
    · refine harg.bind fun type htype =>
        (assignable_confines hp htype).bind fun fits _ => ?_
      split
      · exact .pure trivial
      · exact error_confines _ _ _

theorem checkArgList_confines (index : Nat)
    (hargs : ∀ arg ∈ args, Confines own qs (NamesOnly qs) arg.2) {params : List ParamType}
    (hparams : NamesOnly qs params) :
    Confines own qs (fun _ => True) (checkArgList index args params) := by
  induction args generalizing index params with
  | nil => exact .pure trivial
  | cons arg args ih =>
    refine (checkArg_confines index (hargs arg List.mem_cons_self) fun p hp => ?_).bind fun _ _ =>
      ih (index + 1) (fun a ha => hargs a (List.mem_cons_of_mem arg ha)) fun p hp => ?_
    · exact hparams p (List.mem_of_head? hp)
    · exact hparams p (List.mem_of_mem_tail hp)

theorem checkArgs_confines (hargs : ∀ arg ∈ args, Confines own qs (NamesOnly qs) arg.2)
    {signature? : Option Signature} (hsignature : NamesOnly qs signature?) (span : Span) :
    Confines own qs (fun _ => True) (checkArgs args signature? span) := by
  cases signature? with
  | none => exact checkArgList_confines 0 hargs namesOnly_nil
  | some s =>
    have hparams := checkArgList_confines 0 hargs
      (Signature.namesOnly_iff.1 (namesOnly_some.1 hsignature)).1
    unfold checkArgs
    dsimp only
    split
    · exact (error_confines _ _ _).bind fun _ _ => hparams
    · exact hparams

theorem callResult_confines {callee : Ty} (hcallee : NamesOnly qs callee)
    (hargs : ∀ arg ∈ args, Confines own qs (NamesOnly qs) arg.2) (span : Span) :
    Confines own qs (NamesOnly qs) (callResult callee args span) := by
  unfold callResult
  split
  · next s =>
    have hs := Ty.namesOnly_procedure.1 hcallee
    exact (checkArgs_confines hargs (namesOnly_some.2 hs) span).bind fun _ _ =>
      .pure (namesOnly_getD (Signature.namesOnly_iff.1 hs).2 Ty.namesOnly_void)
  · exact (checkArgs_confines hargs namesOnly_none span).bind fun _ _ => .pure Ty.namesOnly_unknown

/-! ## Calls -/

theorem namesOnly_builtinResult (name : String) {first : Ty} (h : NamesOnly qs first) :
    NamesOnly qs (builtinResult name first) := by
  unfold builtinResult
  repeat' split
  all_goals first | exact Ty.namesOnly_builtin | exact h | exact Ty.namesOnly_unknown

theorem checkFirstArg_confines (name : String) (harg : Confines own qs (NamesOnly qs) arg.2) :
    Confines own qs (NamesOnly qs) (checkFirstArg name arg) := by
  unfold checkFirstArg
  split
  · split
    · exact checkTarget_confines arg.1 harg
    · exact (notAPlace_confines 0 .inOut harg).bind fun _ _ => .pure Ty.namesOnly_unknown
  · exact harg

/-- Running the checks of some values one after the other. -/
theorem forM_arguments_confines (hargs : ∀ arg ∈ args, Confines own qs (NamesOnly qs) arg.2) :
    Confines own qs (fun _ => True) (args.forM fun a => do let _ ← a.2; pure ()) :=
  .forM fun a ha => (hargs a ha).bind fun _ _ => .pure trivial

theorem builtinCall_confines (name : String)
    (hargs : ∀ arg ∈ args, Confines own qs (NamesOnly qs) arg.2) :
    Confines own qs (NamesOnly qs) (builtinCall name args) := by
  cases args with
  | nil => exact .pure (namesOnly_builtinResult name Ty.namesOnly_unknown)
  | cons arg rest =>
    obtain ⟨harg, hrest⟩ := List.forall_mem_cons.1 hargs
    exact (checkFirstArg_confines name harg).bind fun first hfirst =>
      (forM_arguments_confines hrest).bind fun _ _ => .pure (namesOnly_builtinResult name hfirst)

theorem builtinCallee?_confines (callee : Expr) :
    Confines own qs (fun _ => True) (builtinCallee? callee) := by
  unfold builtinCallee?
  split
  · refine .table fun t _ => ?_
    split
    · exact .pure trivial
    · exact .pure trivial
  · exact .pure trivial

theorem checkCall_confines (callee : Expr) {check : Check Ty}
    (hcheck : Confines own qs (NamesOnly qs) check)
    (hargs : ∀ arg ∈ args, Confines own qs (NamesOnly qs) arg.2) (span : Span) :
    Confines own qs (NamesOnly qs) (checkCall callee check args span) := by
  refine (builtinCallee?_confines callee).bind fun name? _ => ?_
  cases name? with
  | some name => exact builtinCall_confines name hargs
  | none => exact hcheck.bind fun type htype => callResult_confines htype hargs span

theorem methodCall_confines {check : Check Ty} (hcheck : Confines own qs (NamesOnly qs) check)
    (method : Ident) (hargs : ∀ arg ∈ args, Confines own qs (NamesOnly qs) arg.2) (span : Span) :
    Confines own qs (NamesOnly qs) (methodCall check method args span) :=
  hcheck.bind fun _ htype => (memberType_confines htype method).bind fun _ hcallee =>
    callResult_confines hcallee hargs span

/-- The object of the innermost implementation around. -/
theorem namesOnly_around {env : Env} (henv : env.Confined own qs) {o : ResolvedObject}
    {P : ObjectContext → Bool} (h : (env.objects.head?.filter P).bind (·.object?) = some o) :
    NamesOnly qs o := by
  obtain ⟨c, hc, ho⟩ := Option.bind_eq_some_iff.1 h
  exact henv.objects c (List.mem_of_head? (Option.filter_eq_some_iff.1 hc).1) o ho

theorem inheritedCall_confines (method : Ident)
    (hargs : ∀ arg ∈ args, Confines own qs (NamesOnly qs) arg.2) :
    Confines own qs (NamesOnly qs) (inheritedCall method args) := by
  refine .read fun env henv => ?_
  split
  · exact callResult_confines Ty.namesOnly_unknown hargs _
  · next o ho =>
    refine (baseMethod_confines (namesOnly_around henv ho) method.name).bind fun base? hbase => ?_
    cases base? with
    | some base => exact callResult_confines (hbase base rfl).1 hargs _
    | none =>
      exact (error_confines _ _ _).bind fun _ _ =>
        callResult_confines Ty.namesOnly_unknown hargs _

/-! ## Expressions -/

theorem selfType_confines : Confines own qs (NamesOnly qs) selfType := by
  refine .read fun env henv => .pure ?_
  split
  · next o ho =>
    obtain ⟨c, hc, ho⟩ := Option.bind_eq_some_iff.1 ho
    exact Ty.namesOnly_named.2 (henv.objects c (List.mem_of_head? hc) o ho).2
  · exact Ty.namesOnly_unknown

theorem fieldAccess_confines (base : Expr) {check : Check Ty}
    (hcheck : Confines own qs (NamesOnly qs) check) (member : Ident) :
    Confines own qs (NamesOnly qs) (fieldAccess base check member) := by
  unfold fieldAccess
  extract_lets rest
  have accessed (declared? : Option Ty) (h : NamesOnly qs declared?) :
      Confines own qs (NamesOnly qs) (rest declared?) := by
    cases declared? with
    | some type => exact .pure (namesOnly_some.1 h)
    | none => exact hcheck.bind fun type htype => memberType_confines htype member
  split
  · exact (moduleMember_confines _ member).bind accessed
  · exact (Confines.pure namesOnly_none).bind accessed

theorem firstType_confines (hargs : ∀ arg ∈ args, Confines own qs (NamesOnly qs) arg.2) :
    Confines own qs (NamesOnly qs) (firstType args) := by
  cases args with
  | nil => exact .pure Ty.namesOnly_unknown
  | cons arg rest =>
    obtain ⟨harg, hrest⟩ := List.forall_mem_cons.1 hargs
    exact harg.bind fun _ hfirst => (forM_arguments_confines hrest).bind fun _ _ => .pure hfirst

mutual

theorem checkExpr_confines : ∀ e : Expr, Confines own qs (NamesOnly qs) (checkExpr e)
  | .name id => by
    rw [checkExpr]
    exact readName_confines id
  | .integer _ _ | .real _ _ | .string _ _ | .char _ _ | .bool _ _ => by
    rw [checkExpr]
    exact .pure Ty.namesOnly_builtin
  | .nil _ _ => by
    rw [checkExpr]
    exact .pure Ty.namesOnly_nil
  | .selfRef _ => by
    rw [checkExpr]
    exact selfType_confines
  | .unary op operand _ => by
    rw [checkExpr]
    refine (checkExpr_confines operand).bind fun type htype => .pure ?_
    split
    · exact Ty.namesOnly_builtin
    · exact htype
  | .binary op left right _ => by
    rw [checkExpr]
    exact (checkExpr_confines left).bind fun l hl => (checkExpr_confines right).bind fun r hr =>
      binaryType_confines op hl hr
  | .call callee args span => by
    rw [checkExpr]
    exact checkCall_confines callee (checkExpr_confines callee) (checkEach_confines args) span
  | .index base indices _ => by
    rw [checkExpr]
    exact (checkExpr_confines base).bind fun type htype =>
      (firstType_confines (checkEach_confines indices)).bind fun _ _ => elementType_confines htype
  | .field base member _ => by
    rw [checkExpr]
    exact fieldAccess_confines base (checkExpr_confines base) member
  | .deref base _ => by
    rw [checkExpr]
    refine (checkExpr_confines base).bind fun type htype => ?_
    split
    · exact .pure (Ty.namesOnly_pointer.1 htype)
    · exact .pure Ty.namesOnly_unknown
  | .set elements _ => by
    rw [checkExpr]
    exact (firstType_confines (checkEach_confines elements)).bind fun element helement =>
      .pure (Ty.namesOnly_set.2 helement)
  | .range low high _ => by
    rw [checkExpr]
    exact (checkExpr_confines low).bind fun type htype =>
      (checkExpr_confines high).bind fun _ _ => .pure htype
  | .ask call => by
    rw [checkExpr]
    exact checkMethodCall_confines call
  | .inherited method args _ => by
    rw [checkExpr]
    exact inheritedCall_confines method (checkEach_confines args)
  | .missing _ => by
    rw [checkExpr]
    exact .pure Ty.namesOnly_unknown

theorem checkMethodCall_confines : ∀ call : MethodCall,
    Confines own qs (NamesOnly qs) (checkMethodCall call)
  | ⟨target, method, args, span⟩ => by
    rw [checkMethodCall]
    exact methodCall_confines (checkExpr_confines target) method (checkEach_confines args) span

theorem checkEach_confines : ∀ es : List Expr,
    ∀ arg ∈ checkEach es, Confines own qs (NamesOnly qs) arg.2
  | [] => by
    rw [checkEach]
    exact fun _ h => nomatch h
  | e :: es => by
    rw [checkEach]
    exact List.forall_mem_cons.2 ⟨checkExpr_confines e, checkEach_confines es⟩

end

theorem checkValue_confines (e : Expr) : Confines own qs (fun _ => True) (checkValue e) :=
  (checkExpr_confines e).bind fun _ _ => .pure trivial

theorem checkPlace_confines (target : Expr) :
    Confines own qs (NamesOnly qs) (checkPlace target) :=
  checkTarget_confines target (checkExpr_confines target)

/-! ## Statements -/

theorem checkCondition_confines (e : Expr) :
    Confines own qs (fun _ => True) (checkCondition e) := by
  refine (checkExpr_confines e).bind fun t ht => (normalize_confines ht).bind fun type _ => ?_
  split
  · exact .pure trivial
  · exact error_confines _ _ _

theorem checkNumeric_confines (what : String) (e : Expr) :
    Confines own qs (fun _ => True) (checkNumeric what e) := by
  refine (checkExpr_confines e).bind fun t ht => (normalize_confines ht).bind fun type _ => ?_
  split
  · exact .pure trivial
  · exact error_confines _ _ _

theorem checkAssign_confines (target value : Expr) :
    Confines own qs (fun _ => True) (checkAssign target value) := by
  refine (checkExpr_confines value).bind fun valueType hvalue =>
    (checkPlace_confines target).bind fun targetType htarget =>
      (assignable_confines htarget hvalue).bind fun fits _ => ?_
  split
  · exact .pure trivial
  · exact error_confines _ _ _

theorem checkReturn_confines (value : Expr) (span : Span) :
    Confines own qs (fun _ => True) (checkReturn value span) := by
  refine (checkExpr_confines value).bind fun type htype => .read fun env henv => ?_
  have hroutine := henv.routine
  split
  · exact .pure trivial
  · exact error_confines _ _ _
  · next expected hexpected =>
    rw [hexpected] at hroutine
    have hresult : NamesOnly qs expected := namesOnly_some.1 (namesOnly_some.1 hroutine)
    refine (assignable_confines hresult htype).bind fun fits _ => ?_
    split
    · exact .pure trivial
    · exact error_confines _ _ _

theorem writeLoopVar_confines (var : Ident) :
    Confines own qs (fun _ => True) (writeLoopVar var) :=
  (writeName_confines var).bind fun _ _ => .pure trivial

theorem checkCallOf_confines (call : MethodCall) :
    Confines own qs (fun _ => True) (checkCallOf call) :=
  (checkMethodCall_confines call).bind fun _ _ => .pure trivial

theorem checkWaitSubject_confines (subject : WaitSubject) :
    Confines own qs (fun _ => True) (checkWaitSubject subject) := by
  cases subject with
  | method call => exact checkCallOf_confines call
  | duration time => exact checkNumeric_confines _ time

mutual

theorem checkStmt_confines : ∀ s : Stmt, Confines own qs (fun _ => True) (checkStmt s)
  | .assign target value _ => by
    rw [checkStmt]
    exact checkAssign_confines target value
  | .call call _ => by
    rw [checkStmt]
    exact checkValue_confines call
  | .if_ branches else? _ => by
    rw [checkStmt]
    exact (checkBranches_confines branches).bind fun _ _ => checkOptional_confines else?
  | .while_ condition body _ => by
    rw [checkStmt]
    exact (checkCondition_confines condition).bind fun _ _ => checkBlock_confines body
  | .repeat_ body condition _ => by
    rw [checkStmt]
    exact (checkBlock_confines body).bind fun _ _ => checkCondition_confines condition
  | .for_ var first _ last step body _ => by
    rw [checkStmt]
    exact (checkValue_confines first).bind fun _ _ => (checkValue_confines last).bind fun _ _ =>
      (Confines.optionForM fun e _ => checkValue_confines e).bind fun _ _ =>
        (writeLoopVar_confines var).bind fun _ _ => checkBlock_confines body
  | .forEach var group body _ => by
    rw [checkStmt]
    exact (checkValue_confines group).bind fun _ _ =>
      (writeLoopVar_confines var).bind fun _ _ => checkBlock_confines body
  | .loop body _ => by
    rw [checkStmt]
    exact checkBlock_confines body
  | .case selector arms otherwise _ => by
    rw [checkStmt]
    exact (checkValue_confines selector).bind fun _ _ =>
      (checkArms_confines arms).bind fun _ _ => checkOptional_confines otherwise
  | .return_ value span => by
    rw [checkStmt]
    exact .optionForM fun e _ => checkReturn_confines e span
  | .exit _ | .terminate _ => by
    rw [checkStmt]
    exact .pure trivial
  | .new target _ => by
    rw [checkStmt]
    exact (checkPlace_confines target).bind fun _ _ => .pure trivial
  | .dispose target _ => by
    rw [checkStmt]
    exact checkValue_confines target
  | .ask call _ => by
    rw [checkStmt]
    exact checkCallOf_confines call
  | .tell call delay _ => by
    rw [checkStmt]
    exact (checkCallOf_confines call).bind fun _ _ =>
      .optionForM fun e _ => checkNumeric_confines _ e
  | .wait subject body interrupt _ => by
    rw [checkStmt]
    exact (checkWaitSubject_confines subject).bind fun _ _ =>
      (checkBlock_confines body).bind fun _ _ => checkOptional_confines interrupt
  | .inherited method args _ => by
    rw [checkStmt]
    exact (inheritedCall_confines method (checkEach_confines args)).bind fun _ _ => .pure trivial
  | .with_ subject body _ => by
    rw [checkStmt]
    refine (checkValue_confines subject).bind fun _ _ => .withReader (fun env henv => ?_)
      (checkBlock_confines body)
    exact ⟨henv.resolver, henv.name, henv.kind, henv.objects, henv.routine⟩

theorem checkBlock_confines : ∀ body : List Stmt, Confines own qs (fun _ => True) (checkBlock body)
  | [] => by
    rw [checkBlock]
    exact .pure trivial
  | s :: rest => by
    rw [checkBlock]
    exact (checkStmt_confines s).bind fun _ _ => checkBlock_confines rest

theorem checkOptional_confines : ∀ body? : Option (List Stmt),
    Confines own qs (fun _ => True) (checkOptional body?)
  | none => by
    rw [checkOptional]
    exact .pure trivial
  | some body => by
    rw [checkOptional]
    exact checkBlock_confines body

theorem checkBranches_confines : ∀ branches : List CondBranch,
    Confines own qs (fun _ => True) (checkBranches branches)
  | [] => by
    rw [checkBranches]
    exact .pure trivial
  | ⟨condition, body, _⟩ :: rest => by
    rw [checkBranches]
    exact (checkCondition_confines condition).bind fun _ _ =>
      (checkBlock_confines body).bind fun _ _ => checkBranches_confines rest

theorem checkArms_confines : ∀ arms : List CaseArm,
    Confines own qs (fun _ => True) (checkArms arms)
  | [] => by
    rw [checkArms]
    exact .pure trivial
  | ⟨labels, body, _⟩ :: rest => by
    rw [checkArms]
    exact (Confines.forM fun e _ => checkValue_confines e).bind fun _ _ =>
      (checkBlock_confines body).bind fun _ _ => checkArms_confines rest

end

end SimFront.Check
