import SimFront.Proofs.Check.Found

/-!
# Uses in expressions and statements

One lemma for each step of the checks of names, expressions and statements, in the order
of the steps: it records at most at the nodes of the tree that it checks, and each
identifier there as a use of what it was found to stand for.
-/

namespace SimFront.Check

open CheckState (Quiet Recorded)
open Node (all)

variable {head : ModuleHead}

/-! ## Names -/

theorem noteRead_records {i : Ident} {id : Nat} :
    RecordsWhen head (·.Declares i.name id) (all [.ident i]) (noteRead id i.span) := by
  refine refer_records.then fun _ => Still.get fun s _ => ?_
  split
  · exact .nothing _
  · split
    · exact .nothing _
    · exact Still.bind (setOutState_still _ _) fun _ => Still.bind (symbol?_query id).still fun _ =>
        warning_still _ _ _

theorem readName_records (id : Ident) : Records head (all [.ident id]) (readName id) := by
  refine (resolveName_finds id).after fun b? => ?_
  cases b? with
  | none => exact .pure _
  | some b =>
    cases b with
    | declared symbol =>
      exact (noteRead_records.imp fun _ h => h.2 _ rfl _ rfl).then fun _ => (valueType_query _).still
    | external s => exact (valueType_query _).still.records
    | builtin => exact (valueType_query _).still.records

theorem notAssignable_still (id : Ident) (what : String) : Still head (notAssignable id what) :=
  error_still _ _ _

theorem writeName_records (id : Ident) : Records head (all [.ident id]) (writeName id) := by
  refine (resolveName_finds id).after fun b? => ?_
  cases b? with
  | none => exact .pure _
  | some b =>
    cases b with
    | declared symbol =>
      have rest (_ : Unit) : Still head (do markAssigned symbol; valueType (.declared symbol)) :=
        Still.bind (setOutState_still _ _) fun _ => (valueType_query _).still
      refine (refer_records.imp fun _ h => h.2 _ rfl _ rfl).then fun _ =>
        Still.bind (symbol?_query symbol).still fun s? => ?_
      cases s? with
      | none => exact rest ()
      | some s =>
        dsimp only
        split
        · exact Still.bind (error_still _ _ _) rest
        · split
          · exact Still.bind (notAssignable_still _ _) rest
          · exact rest ()
    | external s =>
      dsimp only
      split
      · exact (Still.bind (notAssignable_still _ _) fun _ => (valueType_query _).still).records
      · exact (valueType_query _).still.records
    | builtin =>
      exact (Still.bind (notAssignable_still _ _) fun _ => (valueType_query _).still).records

/-- A name that stands for no module is left to be checked as a value; else it is used as that
of the module. -/
theorem moduleMember_cases (module member : Ident) {env : Env} {s : CheckState}
    (henv : env.head = head) (hs : s.Faithful env) :
    (((moduleMember module member).outcome env s).1 = none ∧
      s.Quiet ((moduleMember module member).outcome env s).2 ∨
    ((moduleMember module member).outcome env s).1.isSome ∧
      Recorded (all [.ident module]) s ((moduleMember module member).outcome env s).2) ∧
    ((moduleMember module member).outcome env s).2.Faithful env := by
  refine ⟨?_, ((moduleMember_byName module member).faithful henv hs).1⟩
  unfold moduleMember
  rw [outcome_bind]
  split
  · exact .inl ⟨rfl, .refl s⟩
  · next id hid =>
    split
    · have used {rest : Check (Option Ty)} (hrest : Finds head (fun _ type? => type?.isSome) rest) :
          ((refer id module.span >>= fun _ => rest).outcome env s).1.isSome ∧
            Recorded (all [.ident module]) s
              ((refer id module.span >>= fun _ => rest).outcome env s).2 := by
        have referred : RecordsWhen head (·.Declares module.name id) (all [.ident module])
            (refer id module.span) := refer_records
        obtain ⟨hused, hfaithful⟩ :=
          referred env s henv hs (SymbolTable.declares_of_lookupFrom? hid)
        obtain ⟨hquiet, -, hsome⟩ := hrest env _ henv hfaithful
        exact ⟨hsome, hused.then_quiet hquiet⟩
      refine .inr (used ?_)
      refine Still.bind (lookup_query _ _ _).still fun found => ?_
      cases found with
      | found b => exact Still.bind (valueType_query b).still fun _ => .pure fun _ => rfl
      | unknowable => exact .pure fun _ => rfl
      | missing => exact Still.bind (error_still _ _ _) fun _ => .pure fun _ => rfl
    · exact .inl ⟨rfl, .refl s⟩

theorem objectMemberType_records (typeName : String) (o : ResolvedObject) (member : Ident) :
    Records head (all [.ident member]) (objectMemberType typeName o member) := by
  refine (findMember_finds o member.name).after fun m? => ?_
  cases m? with
  | some m =>
    refine (memberBinding_finds m member.span).after fun b => ?_
    cases b with
    | declared id =>
      refine (refer_records.imp fun t h => ?_).then fun _ => .nothing _
      rw [← h.1.2 m rfl]
      exact h.2 id rfl
    | external s => exact .pure _
    | builtin => exact .pure _
  | none =>
    refine (chainResolved_still o).after fun resolved => .read fun env henv => ?_
    dsimp only
    split
    · exact (error_still _ _ _).after fun _ => .pure _
    · exact .pure _

theorem memberType_records (base : Ty) (member : Ident) :
    Records head (all [.ident member]) (memberType base member) := by
  unfold memberType
  refine (normalize_query base).still.after fun t => ?_
  extract_lets rest
  have plain (base : Ty) : Records head (all [.ident member]) (rest base) := by
    unfold rest
    split
    · exact .pure _
    · next module? name =>
      refine (findObject_query module? name).still.after fun o? => ?_
      cases o? with
      | some o => exact objectMemberType_records name o member
      | none =>
        refine (resolveNamed_query module? name).still.after fun t? => ?_
        split
        · exact .pure _
        · exact .pure _
    · exact .pure _
  split
  · exact (normalize_query _).still.after plain
  · exact (Finds.nothing _).after plain

/-! ## Expressions -/

theorem binaryType_still (op : BinaryOp) (left right : Ty) : Still head (binaryType op left right) := by
  unfold binaryType
  split
  · exact .nothing _
  · exact Still.bind (normalize_query left).still fun _ =>
      Still.bind (normalize_query right).still fun _ => .nothing _

theorem elementType_still (base : Ty) : Still head (elementType base) := by
  refine Still.bind (normalize_query base).still fun t => ?_
  split
  · exact .nothing _
  · exact .nothing _
  · exact .nothing _

theorem checkTarget_records (target : Expr) {check : Check Ty}
    (h : Records head (all [.expr target]) check) :
    Records head (all [.expr target]) (checkTarget target check) := by
  unfold checkTarget
  split
  · exact (error_still _ _ _).after fun _ => h.then fun _ => .nothing _
  · split
    · exact (writeName_records _).node
    · dsimp only
      split
      · refine table_finds.still.after fun t => ?_
        split
        · exact (setOutState_still _ _).after fun _ => h
        · exact h
      · exact h

/-- An argument whose check records at the tree of the argument. -/
abbrev RecordsArg (head : ModuleHead) (arg : Argument) : Prop :=
  Records head (all [.expr arg.1]) arg.2

/-- The trees of some arguments. -/
def argNodes (args : List Argument) : List Node := args.map (.expr ·.1)

variable {arg : Argument} {args : List Argument}

theorem notAPlace_records (index : Nat) (mode : ParamMode) (h : RecordsArg head arg) :
    Records head (all [.expr arg.1]) (notAPlace index mode arg) :=
  (error_still _ _ _).after fun _ => h.then fun _ => .nothing _

theorem checkArg_records (index : Nat) (h : RecordsArg head arg) (param? : Option ParamType) :
    Records head (all [.expr arg.1]) (checkArg index arg param?) := by
  cases param? with
  | none => exact h.then fun _ => .nothing _
  | some p =>
    unfold checkArg
    dsimp only
    split
    · split
      · exact (checkTarget_records arg.1 h).then fun _ => .nothing _
      · exact notAPlace_records index p.mode h
    · refine h.then fun type =>
        Still.bind (assignable_query p.type type).still fun fits => ?_
      split
      · exact .nothing _
      · exact error_still _ _ _

theorem checkArgList_records (index : Nat) (h : ∀ arg ∈ args, RecordsArg head arg)
    (params : List ParamType) :
    Records head (all (argNodes args)) (checkArgList index args params) := by
  induction args generalizing index params with
  | nil => exact .pure _
  | cons arg args ih =>
    exact (checkArg_records index (h arg List.mem_cons_self) _).seq fun _ =>
      ih (index + 1) (fun a ha => h a (List.mem_cons_of_mem arg ha)) _

theorem checkArgs_records (h : ∀ arg ∈ args, RecordsArg head arg) (signature? : Option Signature)
    (span : Span) : Records head (all (argNodes args)) (checkArgs args signature? span) := by
  cases signature? with
  | none => exact checkArgList_records 0 h []
  | some s =>
    unfold checkArgs
    dsimp only
    split
    · exact (error_still _ _ _).after fun _ => checkArgList_records 0 h _
    · exact checkArgList_records 0 h _

theorem callResult_records (callee : Ty) (h : ∀ arg ∈ args, RecordsArg head arg) (span : Span) :
    Records head (all (argNodes args)) (callResult callee args span) := by
  unfold callResult
  split
  · exact (checkArgs_records h _ span).then fun _ => .nothing _
  · exact (checkArgs_records h none span).then fun _ => .nothing _

theorem checkFirstArg_records (name : String) (h : RecordsArg head arg) :
    Records head (all [.expr arg.1]) (checkFirstArg name arg) := by
  unfold checkFirstArg
  split
  · split
    · exact checkTarget_records arg.1 h
    · exact (notAPlace_records 0 .inOut h).then fun _ => .nothing _
  · exact h

/-- Running the checks of some values one after the other. -/
theorem forM_arguments_records (h : ∀ arg ∈ args, RecordsArg head arg) :
    Records head (all (argNodes args)) (args.forM fun a => do let _ ← a.2; pure ()) := by
  induction args with
  | nil => exact .pure _
  | cons arg args ih =>
    exact ((h arg List.mem_cons_self).then fun _ => .nothing _).seq fun _ =>
      ih fun a ha => h a (List.mem_cons_of_mem arg ha)

theorem builtinCall_records (name : String) (h : ∀ arg ∈ args, RecordsArg head arg) :
    Records head (all (argNodes args)) (builtinCall name args) := by
  cases args with
  | nil => exact .pure _
  | cons arg rest =>
    exact (checkFirstArg_records name (h arg List.mem_cons_self)).seq fun _ =>
      (forM_arguments_records fun a ha => h a (List.mem_cons_of_mem arg ha)).then fun _ => .nothing _

theorem builtinCallee?_still (callee : Expr) : Still head (builtinCallee? callee) := by
  unfold builtinCallee?
  split
  · refine Still.bind table_finds.still fun t => ?_
    split
    · exact .nothing _
    · exact .nothing _
  · exact .nothing _

theorem checkCall_records (callee : Expr) {check : Check Ty}
    (h : Records head (all [.expr callee]) check) (hargs : ∀ arg ∈ args, RecordsArg head arg)
    (span : Span) :
    Records head (all (.expr callee :: argNodes args)) (checkCall callee check args span) := by
  refine (builtinCallee?_still callee).after fun name? => ?_
  cases name? with
  | some name => exact (builtinCall_records name hargs).within (List.sublist_cons_self _ _).subperm
  | none => exact h.seq fun type => callResult_records type hargs span

theorem methodCall_records {target : Expr} {check : Check Ty}
    (h : Records head (all [.expr target]) check) (method : Ident)
    (hargs : ∀ arg ∈ args, RecordsArg head arg) (span : Span) :
    Records head (all (.expr target :: .ident method :: argNodes args))
      (methodCall check method args span) :=
  h.seq fun type => (memberType_records type method).seq fun callee =>
    callResult_records callee hargs span

theorem inheritedCall_records (method : Ident) (hargs : ∀ arg ∈ args, RecordsArg head arg) :
    Records head (all (.ident method :: argNodes args)) (inheritedCall method args) := by
  refine RecordsWhen.within ?_ (List.sublist_cons_self _ _).subperm
  refine .read fun env henv => ?_
  split
  · exact callResult_records _ hargs _
  · next o _ =>
    refine (baseMethod_still o method.name).after fun base? => ?_
    cases base? with
    | some base => exact callResult_records _ hargs _
    | none => exact (error_still _ _ _).after fun _ => callResult_records _ hargs _

theorem selfType_still : Still head selfType := .read fun _ _ => .nothing _

theorem fieldAccess_records (base : Expr) {check : Check Ty}
    (h : Records head (all [.expr base]) check) (member : Ident) :
    Records head (all [.expr base, .ident member]) (fieldAccess base check member) := by
  have checked : Records head (all [.expr base, .ident member])
      (check >>= fun type => memberType type member) :=
    h.seq fun type => memberType_records type member
  unfold fieldAccess
  extract_lets rest
  split
  · next module =>
    intro env s henv hs _
    obtain ⟨⟨hnone, hquiet⟩ | ⟨hsome, hused⟩, hfaithful⟩ := moduleMember_cases module member henv hs
    · obtain ⟨hrecorded, hfaithful'⟩ := checked env _ henv hfaithful trivial
      rw [outcome_bind, hnone]
      exact ⟨.quiet_then hquiet hrecorded, hfaithful'⟩
    · obtain ⟨type, htype⟩ := Option.isSome_iff_exists.1 hsome
      rw [outcome_bind, htype]
      refine ⟨(hused.weaken ?_).weaken (Node.all_le (List.sublist_append_left [_] _).subperm), hfaithful⟩
      rw [Node.all_singleton (.expr _)]
      exact Multiset.le_cons_self _ _
  · exact checked

theorem firstType_records (h : ∀ arg ∈ args, RecordsArg head arg) :
    Records head (all (argNodes args)) (firstType args) := by
  cases args with
  | nil => exact .pure _
  | cons arg rest =>
    exact (h arg List.mem_cons_self).seq fun _ =>
      (forM_arguments_records fun a ha => h a (List.mem_cons_of_mem arg ha)).then fun _ => .nothing _

theorem argNodes_checkEach (es : List Expr) : argNodes (checkEach es) = es.map .expr := by
  unfold argNodes
  induction es with
  | nil => rw [checkEach, List.map_nil, List.map_nil]
  | cons e es ih => rw [checkEach, List.map_cons, List.map_cons, ih]

mutual

theorem checkExpr_records : ∀ e : Expr, Records head (all [.expr e]) (checkExpr e)
  | .name id => by
    rw [checkExpr]
    exact (readName_records id).node
  | .integer _ _ | .real _ _ | .string _ _ | .char _ _ | .bool _ _ | .nil _ _ | .missing _ => by
    rw [checkExpr]
    exact .pure _
  | .selfRef _ => by
    rw [checkExpr]
    exact selfType_still.records
  | .unary op operand _ => by
    rw [checkExpr]
    exact ((checkExpr_records operand).then fun _ => .nothing _).node
  | .binary op left right _ => by
    rw [checkExpr]
    exact ((checkExpr_records left).seq fun l => (checkExpr_records right).then fun r =>
      binaryType_still op l r).node
  | .call callee args span => by
    rw [checkExpr]
    have h := checkCall_records callee (checkExpr_records callee) (checkEach_records args) span
    rw [argNodes_checkEach] at h
    exact h.node
  | .index base indices _ => by
    rw [checkExpr]
    have h := firstType_records (checkEach_records indices)
    rw [argNodes_checkEach] at h
    exact ((checkExpr_records base).seq fun type => h.then fun _ => elementType_still type).node
  | .field base member _ => by
    rw [checkExpr]
    exact (fieldAccess_records base (checkExpr_records base) member).node
  | .deref base _ => by
    rw [checkExpr]
    refine ((checkExpr_records base).then fun type => ?_).node
    split
    · exact .nothing _
    · exact .nothing _
  | .set elements _ => by
    rw [checkExpr]
    have h := firstType_records (checkEach_records elements)
    rw [argNodes_checkEach] at h
    exact (h.then fun _ => .nothing _).node
  | .range low high _ => by
    rw [checkExpr]
    exact ((checkExpr_records low).seq fun _ => (checkExpr_records high).then fun _ => .nothing _).node
  | .ask call => by
    rw [checkExpr]
    exact (checkMethodCall_records call).node
  | .inherited method args _ => by
    rw [checkExpr]
    have h := inheritedCall_records method (checkEach_records args)
    rw [argNodes_checkEach] at h
    exact h.node

theorem checkMethodCall_records : ∀ call : MethodCall,
    Records head (all [.methodCall call]) (checkMethodCall call)
  | ⟨target, method, args, span⟩ => by
    rw [checkMethodCall]
    have h := methodCall_records (checkExpr_records target) method (checkEach_records args) span
    rw [argNodes_checkEach] at h
    exact h.node

theorem checkEach_records : ∀ es : List Expr, ∀ arg ∈ checkEach es, RecordsArg head arg
  | [] => by
    rw [checkEach]
    exact fun _ h => nomatch h
  | e :: es => by
    rw [checkEach]
    intro arg harg
    rcases List.mem_cons.1 harg with rfl | harg
    · exact checkExpr_records e
    · exact checkEach_records es arg harg

end

theorem checkValue_records (e : Expr) : Records head (all [.expr e]) (checkValue e) :=
  (checkExpr_records e).then fun _ => .nothing _

theorem checkPlace_records (target : Expr) : Records head (all [.expr target]) (checkPlace target) :=
  checkTarget_records target (checkExpr_records target)

/-! ## Statements -/

theorem checkCondition_records (e : Expr) : Records head (all [.expr e]) (checkCondition e) := by
  refine (checkExpr_records e).then fun t => Still.bind (normalize_query t).still fun type => ?_
  split
  · exact .nothing _
  · exact error_still _ _ _

theorem checkNumeric_records (what : String) (e : Expr) :
    Records head (all [.expr e]) (checkNumeric what e) := by
  refine (checkExpr_records e).then fun t => Still.bind (normalize_query t).still fun type => ?_
  split
  · exact .nothing _
  · exact error_still _ _ _

/-- The value is checked before the target, which stands before it. -/
theorem checkAssign_records (target value : Expr) :
    Records head (all [.expr target, .expr value]) (checkAssign target value) := by
  have checked : Records head (all [.expr value, .expr target]) (checkAssign target value) := by
    refine (checkExpr_records value).seq fun valueType => (checkPlace_records target).then
      fun targetType => Still.bind (assignable_query targetType valueType).still fun fits => ?_
    split
    · exact .nothing _
    · exact error_still _ _ _
  exact checked.perm (.swap _ _ _)

theorem checkReturn_records (value : Expr) (span : Span) :
    Records head (all [.expr value]) (checkReturn value span) := by
  refine (checkExpr_records value).then fun type => .read fun env henv => ?_
  split
  · exact .nothing _
  · exact error_still _ _ _
  · refine Still.bind (assignable_query _ type).still fun fits => ?_
    split
    · exact .nothing _
    · exact error_still _ _ _

theorem writeLoopVar_records (var : Ident) : Records head (all [.ident var]) (writeLoopVar var) :=
  (writeName_records var).then fun _ => .nothing _

theorem checkCallOf_records (call : MethodCall) :
    Records head (all [.methodCall call]) (checkCallOf call) :=
  (checkMethodCall_records call).then fun _ => .nothing _

theorem checkWaitSubject_records (subject : WaitSubject) :
    Records head (all [Node.ofWaitSubject subject]) (checkWaitSubject subject) := by
  cases subject with
  | method call => exact checkCallOf_records call
  | duration time => exact checkNumeric_records _ time

mutual

theorem checkStmt_records : ∀ s : Stmt, Records head (all [.stmt s]) (checkStmt s)
  | .assign target value _ => by
    rw [checkStmt]
    exact (checkAssign_records target value).node
  | .call call _ => by
    rw [checkStmt]
    exact (checkValue_records call).node
  | .if_ branches else? _ => by
    rw [checkStmt]
    exact ((checkBranches_records branches).seq fun _ => checkOptional_records else?).node
  | .while_ condition body _ => by
    rw [checkStmt]
    exact ((checkCondition_records condition).seq fun _ => checkBlock_records body).node
  | .repeat_ body condition _ => by
    rw [checkStmt]
    exact ((checkBlock_records body).seq fun _ => checkCondition_records condition).node
  | .for_ var first _ last step body _ => by
    rw [checkStmt]
    have h : Records head (all ((.expr first :: .expr last :: step.toList.map .expr) ++
        .ident var :: body.map .stmt)) (do
          checkValue first
          checkValue last
          step.forM checkValue
          writeLoopVar var
          checkBlock body) :=
      (checkValue_records first).seq fun _ => (checkValue_records last).seq fun _ =>
        (optionForM_records checkValue_records step).seq fun _ =>
          (writeLoopVar_records var).seq fun _ => checkBlock_records body
    exact (h.perm List.perm_middle).node
  | .forEach var group body _ => by
    rw [checkStmt]
    have h : Records head (all (.expr group :: .ident var :: body.map .stmt)) (do
        checkValue group
        writeLoopVar var
        checkBlock body) :=
      (checkValue_records group).seq fun _ => (writeLoopVar_records var).seq fun _ =>
        checkBlock_records body
    exact (h.perm (.swap _ _ _)).node
  | .loop body _ => by
    rw [checkStmt]
    exact (checkBlock_records body).node
  | .case selector arms otherwise _ => by
    rw [checkStmt]
    exact ((checkValue_records selector).seq fun _ => (checkArms_records arms).seq fun _ =>
      checkOptional_records otherwise).node
  | .return_ value span => by
    rw [checkStmt]
    exact (optionForM_records (fun e => checkReturn_records e span) value).node
  | .exit _ | .terminate _ => by
    rw [checkStmt]
    exact .pure _
  | .new target _ => by
    rw [checkStmt]
    exact ((checkPlace_records target).then fun _ => .nothing _).node
  | .dispose target _ => by
    rw [checkStmt]
    exact (checkValue_records target).node
  | .ask call _ => by
    rw [checkStmt]
    exact (checkCallOf_records call).node
  | .tell call delay _ => by
    rw [checkStmt]
    exact ((checkCallOf_records call).seq fun _ =>
      optionForM_records (checkNumeric_records _) delay).node
  | .wait subject body interrupt _ => by
    rw [checkStmt]
    exact ((checkWaitSubject_records subject).seq fun _ => (checkBlock_records body).seq fun _ =>
      checkOptional_records interrupt).node
  | .inherited method args _ => by
    rw [checkStmt]
    have h : Records head _ _ := inheritedCall_records method (checkEach_records args)
    rw [argNodes_checkEach] at h
    exact (h.then fun _ => .nothing _).node
  | .with_ subject body _ => by
    rw [checkStmt]
    have inside : Records head (all (body.map .stmt))
        (withReader (fun env => { env with insideWith := true }) (checkBlock body)) :=
      .withReader (fun _ => rfl) (fun _ => rfl) (checkBlock_records body)
    exact ((checkValue_records subject).seq fun _ => inside).node

theorem checkBlock_records : ∀ body : List Stmt,
    Records head (all (body.map .stmt)) (checkBlock body)
  | [] => by
    rw [checkBlock]
    exact .pure _
  | s :: rest => by
    rw [checkBlock]
    exact (checkStmt_records s).seq fun _ => checkBlock_records rest

theorem checkOptional_records : ∀ body? : Option (List Stmt),
    Records head (all (Node.ofBlock? body?)) (checkOptional body?)
  | none => by
    rw [checkOptional]
    exact .pure _
  | some body => by
    rw [checkOptional]
    exact checkBlock_records body

theorem checkBranches_records : ∀ branches : List CondBranch,
    Records head (all (branches.map .condBranch)) (checkBranches branches)
  | [] => by
    rw [checkBranches]
    exact .pure _
  | ⟨condition, body, span⟩ :: rest => by
    rw [checkBranches]
    have branch : Records head (all [.condBranch ⟨condition, body, span⟩]) (do
        checkCondition condition
        checkBlock body) :=
      ((checkCondition_records condition).seq fun _ => checkBlock_records body).node
    exact branch.seq fun _ => checkBranches_records rest

theorem checkArms_records : ∀ arms : List CaseArm,
    Records head (all (arms.map .caseArm)) (checkArms arms)
  | [] => by
    rw [checkArms]
    exact .pure _
  | ⟨labels, body, span⟩ :: rest => by
    rw [checkArms]
    have arm : Records head (all [.caseArm ⟨labels, body, span⟩]) (do
        labels.forM checkValue
        checkBlock body) :=
      ((forM_map_records checkValue_records labels).seq fun _ => checkBlock_records body).node
    exact arm.seq fun _ => checkArms_records rest

end

end SimFront.Check
