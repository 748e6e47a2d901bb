import SimFront.Proofs.Check.Search

/-!
# Expressions and statements know other modules by name

One lemma for each step of the checks of names, expressions and statements, in the
order of the steps.
-/

namespace SimFront.Check

variable {head : ModuleHead}

variable {α : Type}

/-! ## Reports and the symbol table -/

theorem report_byName (d : Diagnostic) : ByName head (report d) := .modify _ (fun _ _ _ => rfl) fun _ h => h

theorem error_byName (code : DiagnosticCode) (span : Span) (message : String) :
    ByName head (error code span message) := report_byName _

theorem warning_byName (code : DiagnosticCode) (span : Span) (message : String) :
    ByName head (warning code span message) := report_byName _

theorem modifyTable_byName (f : SymbolTable → SymbolTable) : ByName head (modifyTable f) :=
  .modify _ (fun _ _ _ => rfl) fun _ h => h

theorem table_byName : ByName head table := .query table_query

theorem symbol?_byName (id : Nat) : ByName head (symbol? id) := .query (symbol?_query id)

theorem define_byName (symbol : Symbol) : ByName head (define symbol) := by
  refine table_byName.bind fun t => ?_
  split
  · exact (modifyTable_byName _).bind fun _ => .pure _
  · exact (report_byName _).bind fun _ => .pure _

theorem inScope_byName (kind : ScopeKind) (span : Span) {step : Check α} (h : ByName head step) :
    ByName head (inScope kind span step) :=
  (modifyTable_byName _).bind fun _ => h.bind fun _ => (modifyTable_byName _).bind fun _ => .pure _

theorem refer_byName (id : Nat) (span : Span) : ByName head (refer id span) := modifyTable_byName _

theorem setOutState_byName (id : Nat) (f : OutState → OutState) : ByName head (setOutState id f) :=
  .modify _ (fun _ _ _ => rfl) fun _ h => h

theorem noteRead_byName (id : Nat) (span : Span) : ByName head (noteRead id span) := by
  refine (refer_byName id span).bind fun _ => .get (fun s => ?_) fun _ _ _ => rfl
  split
  · exact .pure ()
  · split
    · exact .pure ()
    · exact (setOutState_byName _ _).bind fun _ =>
        (symbol?_byName id).bind fun _ => warning_byName _ _ _

theorem markAssigned_byName (id : Nat) : ByName head (markAssigned id) := setOutState_byName _ _

/-! ## Repeated steps -/

theorem forM_byName {f : α → Check Unit} (h : ∀ a, ByName head (f a)) (as : List α) :
    ByName head (as.forM f) := by
  induction as with
  | nil => exact .pure _
  | cons a as ih => exact (h a).bind fun _ => ih

theorem optionForM_byName {f : α → Check Unit} (h : ∀ a, ByName head (f a)) (a? : Option α) :
    ByName head (a?.forM f) := by
  cases a? with
  | none => exact .pure _
  | some a => exact h a

/-! ## Names -/

theorem objectMemberAt_byName (scope : Nat) (id : Ident) : ByName head (objectMemberAt scope id) := by
  refine table_byName.bind fun t => ?_
  split
  · split
    · refine .read (fun env henv => ?_) fun _ _ _ => rfl
      split
      · next o _ =>
        refine (findMember_byName o id.name).bind fun m? => ?_
        cases m? with
        | none => exact .pure _
        | some m => exact (ByName.query (memberBinding_query m id.span)).bind fun _ => .pure _
      · exact .pure _
    · exact .pure _
  · exact .pure _

theorem nameIn_byName (id : Ident) (scopes : List Nat) : ByName head (nameIn id scopes) := by
  induction scopes with
  | nil => exact .pure _
  | cons scope rest ih =>
    refine table_byName.bind fun t => ?_
    split
    · exact .pure _
    · refine (objectMemberAt_byName scope id).bind fun b? => ?_
      cases b? with
      | none => exact ih
      | some b => exact .pure _

theorem resolveName_byName (id : Ident) : ByName head (resolveName id) := by
  refine table_byName.bind fun t => (nameIn_byName id _).bind fun b? => ?_
  cases b? with
  | some b => exact .pure _
  | none =>
    dsimp only
    split
    · exact .pure _
    · refine (ByName.query (lookupExternal_query id.name)).bind fun found => ?_
      cases found with
      | found b => exact .pure _
      | unknowable => exact .pure _
      | missing =>
        dsimp only
        split
        · exact .pure _
        · refine (ByName.query suppressUnknown_query).bind fun suppressed => ?_
          split
          · exact .pure _
          · exact (error_byName _ _ _).bind fun _ => .pure _

theorem valueType_byName (b : Binding) : ByName head (valueType b) := .query (valueType_query b)

theorem readName_byName (id : Ident) : ByName head (readName id) := by
  refine (resolveName_byName id).bind fun b? => ?_
  cases b? with
  | none => exact .pure _
  | some b =>
    cases b with
    | declared symbol => exact (noteRead_byName symbol id.span).bind fun _ => valueType_byName _
    | external s => exact valueType_byName _
    | builtin => exact valueType_byName _

theorem notAssignable_byName (id : Ident) (what : String) : ByName head (notAssignable id what) :=
  error_byName _ _ _

theorem writeName_byName (id : Ident) : ByName head (writeName id) := by
  refine (resolveName_byName id).bind fun b? => ?_
  cases b? with
  | none => exact .pure _
  | some b =>
    cases b with
    | declared symbol =>
      have rest (r : Unit) : ByName head (do let _ ← markAssigned symbol; valueType (.declared symbol)) :=
        (markAssigned_byName symbol).bind fun _ => valueType_byName _
      refine (refer_byName symbol id.span).bind fun _ => (symbol?_byName symbol).bind fun s? => ?_
      cases s? with
      | none => exact rest ()
      | some s =>
        dsimp only
        split
        · exact (error_byName _ _ _).bind rest
        · split
          · exact (notAssignable_byName _ _).bind rest
          · exact rest ()
    | external s =>
      dsimp only
      split
      · exact (notAssignable_byName _ _).bind fun _ => valueType_byName _
      · exact valueType_byName _
    | builtin => exact (notAssignable_byName _ _).bind fun _ => valueType_byName _

theorem moduleMember_byName (module member : Ident) : ByName head (moduleMember module member) := by
  refine table_byName.bind fun t => ?_
  split
  · exact .pure _
  · split
    · refine (refer_byName _ _).bind fun _ => (ByName.query (lookup_query _ _ _)).bind fun found => ?_
      cases found with
      | found b => exact (valueType_byName b).bind fun _ => .pure _
      | unknowable => exact .pure _
      | missing => exact (error_byName _ _ _).bind fun _ => .pure _
    · exact .pure _

theorem objectMemberType_byName (typeName : String) (o : ResolvedObject) (member : Ident) :
    ByName head (objectMemberType typeName o member) := by
  refine (findMember_byName o member.name).bind fun m? => ?_
  cases m? with
  | some m =>
    refine (ByName.query (memberBinding_query m member.span)).bind fun b => ?_
    cases b with
    | declared id => exact (refer_byName id member.span).bind fun _ => .pure _
    | external s => exact .pure _
    | builtin => exact .pure _
  | none =>
    refine (chainResolved_byName o).bind fun resolved => .read (fun env henv => ?_) fun _ _ _ => rfl
    dsimp only
    split
    · exact (error_byName _ _ _).bind fun _ => .pure _
    · exact .pure _

theorem normalize_byName (t : Ty) : ByName head (normalize t) := .query (normalize_query t)

theorem assignable_byName (target source : Ty) : ByName head (assignable target source) :=
  .query (assignable_query target source)

theorem memberType_byName (base : Ty) (member : Ident) : ByName head (memberType base member) := by
  unfold memberType
  refine (normalize_byName base).bind fun t => ?_
  extract_lets rest
  have plain (base : Ty) : ByName head (rest base) := by
    unfold rest
    split
    · exact .pure _
    · next module? name =>
      refine (ByName.query (findObject_query module? name)).bind fun o? => ?_
      cases o? with
      | some o => exact objectMemberType_byName name o member
      | none =>
        refine (ByName.query (resolveNamed_query module? name)).bind fun t? => ?_
        split
        · exact .pure _
        · exact .pure _
    · exact .pure _
  split
  · exact (normalize_byName _).bind plain
  · exact (ByName.pure _).bind plain

/-! ## Expressions -/

theorem binaryType_byName (op : BinaryOp) (left right : Ty) : ByName head (binaryType op left right) := by
  unfold binaryType
  split
  · exact .pure _
  · exact (normalize_byName left).bind fun _ => (normalize_byName right).bind fun _ => .pure _

theorem elementType_byName (base : Ty) : ByName head (elementType base) := by
  refine (normalize_byName base).bind fun t => ?_
  split
  · exact .pure _
  · exact .pure _
  · exact .pure _

theorem checkTarget_byName (target : Expr) {check : Check Ty} (h : ByName head check) :
    ByName head (checkTarget target check) := by
  unfold checkTarget
  split
  · exact (error_byName _ _ _).bind fun _ => h.bind fun _ => .pure _
  · split
    · exact writeName_byName _
    · dsimp only
      split
      · refine table_byName.bind fun t => ?_
        split
        · exact (markAssigned_byName _).bind fun _ => h
        · exact h
      · exact h

theorem notAPlace_byName (index : Nat) (mode : ParamMode) {arg : Argument} (h : ByName head arg.2) :
    ByName head (notAPlace index mode arg) :=
  (error_byName _ _ _).bind fun _ => h.bind fun _ => .pure _

theorem checkArg_byName (index : Nat) {arg : Argument} (h : ByName head arg.2)
    (param? : Option ParamType) : ByName head (checkArg index arg param?) := by
  cases param? with
  | none => exact h.bind fun _ => .pure _
  | some p =>
    unfold checkArg
    dsimp only
    split
    · split
      · exact (checkTarget_byName arg.1 h).bind fun _ => .pure _
      · exact notAPlace_byName index p.mode h
    · refine h.bind fun type => (assignable_byName p.type type).bind fun fits => ?_
      split
      · exact .pure _
      · exact error_byName _ _ _

theorem checkArgList_byName (index : Nat) {args : List Argument} (h : ∀ arg ∈ args, ByName head arg.2)
    (params : List ParamType) : ByName head (checkArgList index args params) := by
  induction args generalizing index params with
  | nil => exact .pure _
  | cons arg args ih =>
    exact (checkArg_byName index (h arg List.mem_cons_self) _).bind fun _ =>
      ih (index + 1) (fun a ha => h a (List.mem_cons_of_mem arg ha)) _

theorem checkArgs_byName {args : List Argument} (h : ∀ arg ∈ args, ByName head arg.2)
    (signature? : Option Signature) (span : Span) : ByName head (checkArgs args signature? span) := by
  cases signature? with
  | none => exact checkArgList_byName 0 h []
  | some s =>
    unfold checkArgs
    dsimp only
    split
    · exact (error_byName _ _ _).bind fun _ => checkArgList_byName 0 h _
    · exact checkArgList_byName 0 h _

theorem callResult_byName (callee : Ty) {args : List Argument} (h : ∀ arg ∈ args, ByName head arg.2)
    (span : Span) : ByName head (callResult callee args span) := by
  unfold callResult
  split
  · exact (checkArgs_byName h _ span).bind fun _ => .pure _
  · exact (checkArgs_byName h none span).bind fun _ => .pure _

theorem checkFirstArg_byName (name : String) {arg : Argument} (h : ByName head arg.2) :
    ByName head (checkFirstArg name arg) := by
  unfold checkFirstArg
  split
  · split
    · exact checkTarget_byName arg.1 h
    · exact (notAPlace_byName 0 .inOut h).bind fun _ => .pure _
  · exact h

/-- Running the checks of some values one after the other. -/
theorem forM_arguments_byName {args : List Argument} (h : ∀ arg ∈ args, ByName head arg.2) :
    ByName head (args.forM fun a => do let _ ← a.2; pure ()) := by
  induction args with
  | nil => exact .pure _
  | cons arg args ih =>
    exact ((h arg List.mem_cons_self).bind fun _ => .pure _).bind fun _ =>
      ih fun a ha => h a (List.mem_cons_of_mem arg ha)

theorem builtinCall_byName (name : String) {args : List Argument} (h : ∀ arg ∈ args, ByName head arg.2) :
    ByName head (builtinCall name args) := by
  cases args with
  | nil => exact .pure _
  | cons arg rest =>
    exact (checkFirstArg_byName name (h arg List.mem_cons_self)).bind fun _ =>
      (forM_arguments_byName fun a ha => h a (List.mem_cons_of_mem arg ha)).bind fun _ => .pure _

theorem builtinCallee?_byName (callee : Expr) : ByName head (builtinCallee? callee) := by
  unfold builtinCallee?
  split
  · refine table_byName.bind fun t => ?_
    split
    · exact .pure _
    · exact .pure _
  · exact .pure _

theorem checkCall_byName (callee : Expr) {check : Check Ty} (h : ByName head check)
    {args : List Argument} (hargs : ∀ arg ∈ args, ByName head arg.2) (span : Span) :
    ByName head (checkCall callee check args span) := by
  refine (builtinCallee?_byName callee).bind fun name? => ?_
  cases name? with
  | some name => exact builtinCall_byName name hargs
  | none => exact h.bind fun type => callResult_byName type hargs span

theorem methodCall_byName {check : Check Ty} (h : ByName head check) (method : Ident)
    {args : List Argument} (hargs : ∀ arg ∈ args, ByName head arg.2) (span : Span) :
    ByName head (methodCall check method args span) :=
  h.bind fun type => (memberType_byName type method).bind fun callee =>
    callResult_byName callee hargs span

theorem inheritedCall_byName (method : Ident) {args : List Argument}
    (hargs : ∀ arg ∈ args, ByName head arg.2) : ByName head (inheritedCall method args) := by
  refine .read (fun env henv => ?_) fun _ _ _ => rfl
  split
  · exact callResult_byName _ hargs _
  · next o _ =>
    refine (baseMethod_byName o method.name).bind fun base? => ?_
    cases base? with
    | some base => exact callResult_byName _ hargs _
    | none => exact (error_byName _ _ _).bind fun _ => callResult_byName _ hargs _

theorem selfType_byName : ByName head selfType := .read (fun _ _ => .pure _) fun _ _ _ => rfl

theorem fieldAccess_byName (base : Expr) {check : Check Ty} (h : ByName head check)
    (member : Ident) : ByName head (fieldAccess base check member) := by
  unfold fieldAccess
  extract_lets rest
  have accessed (declared? : Option Ty) : ByName head (rest declared?) := by
    cases declared? with
    | some type => exact .pure _
    | none => exact h.bind fun type => memberType_byName type member
  split
  · exact (moduleMember_byName _ member).bind accessed
  · exact (ByName.pure _).bind accessed

theorem firstType_byName {args : List Argument} (h : ∀ arg ∈ args, ByName head arg.2) :
    ByName head (firstType args) := by
  cases args with
  | nil => exact .pure _
  | cons arg rest =>
    exact (h arg List.mem_cons_self).bind fun _ =>
      (forM_arguments_byName fun a ha => h a (List.mem_cons_of_mem arg ha)).bind fun _ => .pure _

mutual

theorem checkExpr_byName : ∀ e : Expr, ByName head (checkExpr e)
  | .name id => by
    rw [checkExpr]
    exact readName_byName id
  | .integer _ _ | .real _ _ | .string _ _ | .char _ _ | .bool _ _ | .nil _ _ | .missing _ => by
    rw [checkExpr]
    exact .pure _
  | .selfRef _ => by
    rw [checkExpr]
    exact selfType_byName
  | .unary op operand _ => by
    rw [checkExpr]
    exact (checkExpr_byName operand).bind fun _ => .pure _
  | .binary op left right _ => by
    rw [checkExpr]
    exact (checkExpr_byName left).bind fun l => (checkExpr_byName right).bind fun r =>
      binaryType_byName op l r
  | .call callee args span => by
    rw [checkExpr]
    exact checkCall_byName callee (checkExpr_byName callee) (checkEach_byName args) span
  | .index base indices _ => by
    rw [checkExpr]
    exact (checkExpr_byName base).bind fun type =>
      (firstType_byName (checkEach_byName indices)).bind fun _ => elementType_byName type
  | .field base member _ => by
    rw [checkExpr]
    exact fieldAccess_byName base (checkExpr_byName base) member
  | .deref base _ => by
    rw [checkExpr]
    refine (checkExpr_byName base).bind fun type => ?_
    split
    · exact .pure _
    · exact .pure _
  | .set elements _ => by
    rw [checkExpr]
    exact (firstType_byName (checkEach_byName elements)).bind fun _ => .pure _
  | .range low high _ => by
    rw [checkExpr]
    exact (checkExpr_byName low).bind fun _ => (checkExpr_byName high).bind fun _ => .pure _
  | .ask call => by
    rw [checkExpr]
    exact checkMethodCall_byName call
  | .inherited method args _ => by
    rw [checkExpr]
    exact inheritedCall_byName method (checkEach_byName args)

theorem checkMethodCall_byName : ∀ call : MethodCall, ByName head (checkMethodCall call)
  | ⟨target, method, args, span⟩ => by
    rw [checkMethodCall]
    exact methodCall_byName (checkExpr_byName target) method (checkEach_byName args) span

theorem checkEach_byName : ∀ es : List Expr, ∀ arg ∈ checkEach es, ByName head arg.2
  | [] => by
    rw [checkEach]
    exact fun _ h => nomatch h
  | e :: es => by
    rw [checkEach]
    intro arg harg
    rcases List.mem_cons.1 harg with rfl | harg
    · exact checkExpr_byName e
    · exact checkEach_byName es arg harg

end

theorem checkValue_byName (e : Expr) : ByName head (checkValue e) :=
  (checkExpr_byName e).bind fun _ => .pure _

theorem checkPlace_byName (target : Expr) : ByName head (checkPlace target) :=
  checkTarget_byName target (checkExpr_byName target)

/-! ## Statements -/

theorem checkCondition_byName (e : Expr) : ByName head (checkCondition e) := by
  refine (checkExpr_byName e).bind fun t => (normalize_byName t).bind fun type => ?_
  split
  · exact .pure _
  · exact error_byName _ _ _

theorem checkNumeric_byName (what : String) (e : Expr) : ByName head (checkNumeric what e) := by
  refine (checkExpr_byName e).bind fun t => (normalize_byName t).bind fun type => ?_
  split
  · exact .pure _
  · exact error_byName _ _ _

theorem checkAssign_byName (target value : Expr) : ByName head (checkAssign target value) := by
  refine (checkExpr_byName value).bind fun valueType => (checkPlace_byName target).bind
    fun targetType => (assignable_byName targetType valueType).bind fun fits => ?_
  split
  · exact .pure _
  · exact error_byName _ _ _

theorem checkReturn_byName (value : Expr) (span : Span) : ByName head (checkReturn value span) := by
  refine (checkExpr_byName value).bind fun type => .read (fun env henv => ?_) fun _ _ _ => rfl
  split
  · exact .pure _
  · exact error_byName _ _ _
  · refine (assignable_byName _ type).bind fun fits => ?_
    split
    · exact .pure _
    · exact error_byName _ _ _

theorem writeLoopVar_byName (var : Ident) : ByName head (writeLoopVar var) :=
  (writeName_byName var).bind fun _ => .pure _

theorem checkCallOf_byName (call : MethodCall) : ByName head (checkCallOf call) :=
  (checkMethodCall_byName call).bind fun _ => .pure _

theorem checkWaitSubject_byName (subject : WaitSubject) : ByName head (checkWaitSubject subject) := by
  cases subject with
  | method call => exact checkCallOf_byName call
  | duration time => exact checkNumeric_byName _ time

mutual

theorem checkStmt_byName : ∀ s : Stmt, ByName head (checkStmt s)
  | .assign target value _ => by
    rw [checkStmt]
    exact checkAssign_byName target value
  | .call call _ => by
    rw [checkStmt]
    exact checkValue_byName call
  | .if_ branches else? _ => by
    rw [checkStmt]
    exact (checkBranches_byName branches).bind fun _ => checkOptional_byName else?
  | .while_ condition body _ => by
    rw [checkStmt]
    exact (checkCondition_byName condition).bind fun _ => checkBlock_byName body
  | .repeat_ body condition _ => by
    rw [checkStmt]
    exact (checkBlock_byName body).bind fun _ => checkCondition_byName condition
  | .for_ var first _ last step body _ => by
    rw [checkStmt]
    exact (checkValue_byName first).bind fun _ => (checkValue_byName last).bind fun _ =>
      (optionForM_byName checkValue_byName step).bind fun _ =>
        (writeLoopVar_byName var).bind fun _ => checkBlock_byName body
  | .forEach var group body _ => by
    rw [checkStmt]
    exact (checkValue_byName group).bind fun _ => (writeLoopVar_byName var).bind fun _ =>
      checkBlock_byName body
  | .loop body _ => by
    rw [checkStmt]
    exact checkBlock_byName body
  | .case selector arms otherwise _ => by
    rw [checkStmt]
    exact (checkValue_byName selector).bind fun _ => (checkArms_byName arms).bind fun _ =>
      checkOptional_byName otherwise
  | .return_ value span => by
    rw [checkStmt]
    exact optionForM_byName (fun e => checkReturn_byName e span) value
  | .exit _ | .terminate _ => by
    rw [checkStmt]
    exact .pure _
  | .new target _ => by
    rw [checkStmt]
    exact (checkPlace_byName target).bind fun _ => .pure _
  | .dispose target _ => by
    rw [checkStmt]
    exact checkValue_byName target
  | .ask call _ => by
    rw [checkStmt]
    exact checkCallOf_byName call
  | .tell call delay _ => by
    rw [checkStmt]
    exact (checkCallOf_byName call).bind fun _ => optionForM_byName (checkNumeric_byName _) delay
  | .wait subject body interrupt _ => by
    rw [checkStmt]
    exact (checkWaitSubject_byName subject).bind fun _ => (checkBlock_byName body).bind fun _ =>
      checkOptional_byName interrupt
  | .inherited method args _ => by
    rw [checkStmt]
    exact (inheritedCall_byName method (checkEach_byName args)).bind fun _ => .pure _
  | .with_ subject body _ => by
    rw [checkStmt]
    exact (checkValue_byName subject).bind fun _ =>
      .withReader _ (fun _ _ => rfl) (fun _ => rfl) (checkBlock_byName body)

theorem checkBlock_byName : ∀ body : List Stmt, ByName head (checkBlock body)
  | [] => by
    rw [checkBlock]
    exact .pure _
  | s :: rest => by
    rw [checkBlock]
    exact (checkStmt_byName s).bind fun _ => checkBlock_byName rest

theorem checkOptional_byName : ∀ body? : Option (List Stmt), ByName head (checkOptional body?)
  | none => by
    rw [checkOptional]
    exact .pure _
  | some body => by
    rw [checkOptional]
    exact checkBlock_byName body

theorem checkBranches_byName : ∀ branches : List CondBranch, ByName head (checkBranches branches)
  | [] => by
    rw [checkBranches]
    exact .pure _
  | ⟨condition, body, _⟩ :: rest => by
    rw [checkBranches]
    exact (checkCondition_byName condition).bind fun _ => (checkBlock_byName body).bind fun _ =>
      checkBranches_byName rest

theorem checkArms_byName : ∀ arms : List CaseArm, ByName head (checkArms arms)
  | [] => by
    rw [checkArms]
    exact .pure _
  | ⟨labels, body, _⟩ :: rest => by
    rw [checkArms]
    exact (forM_byName checkValue_byName labels).bind fun _ => (checkBlock_byName body).bind fun _ =>
      checkArms_byName rest

end

end SimFront.Check
