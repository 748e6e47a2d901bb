import SimFront.Proofs.Check.Touches

/-!
# What holds of expressions and statements because it holds of their parts

`Composes head J` says of a property of steps that it passes from the parts of a step to the
whole, and that it holds of the parts that the checks of expressions and statements are made
of: searches, uses of names, and reports that have none of the codes that are kept for other checks
(`heldCodes`).  Then it holds of these checks (`checkExpr_composes`, `checkBlock_composes`).

A property of all steps that touch the state without a report (`ComposesTouches`) is one of uses of
names (`ComposesTouches.composes`).
-/

namespace SimFront.Check

/-- The codes of what the rules for methods of object types report. -/
def methodCodes : List DiagnosticCode := [.invalidOverride, .overrideMismatch, .hidesBaseMethod]

/-- The codes of what the rules for object types report. -/
def ruleCodes : List DiagnosticCode := .circularInheritance :: methodCodes

/-- The codes of what is reported at the end of a routine. -/
def idleCodes : List DiagnosticCode := [.unusedSymbol, .outNeverAssigned]

/-- The codes that expressions and statements are not reported under. -/
def heldCodes : List DiagnosticCode := ruleCodes ++ idleCodes

/-- The step looks something up, and records no use of it. -/
def Searches {α : Type} (head : ModuleHead) (p : Check α) : Prop :=
  Still head p ∧ Touches (Standing.plain head fun _ => False) p

/-- A property of steps that is closed under what names are looked up by. -/
structure ComposesSearches (head : ModuleHead) (J : (α : Type) → Check α → Prop) : Prop where
  bind {α β : Type} {p : Check α} {f : α → Check β} : J α p → (∀ a, J β (f a)) → J β (p >>= f)
  get {α : Type} {f : CheckState → Check α} : (∀ s, J α (f s)) → J α (get >>= f)
  read {α : Type} {f : Env → Check α} :
    (∀ env, env.head = head → J α (f env)) → J α (read >>= f)
  withReader {α : Type} {p : Check α} (f : Env → Env) : (∀ env, (f env).resolver? = env.resolver?) →
    (∀ env, (f env).head = env.head) → J α p → J α (withReader f p : Check α)
  search {α : Type} {p : Check α} : Searches head p → J α p
  report {d : Diagnostic} : d.code ∉ heldCodes → J Unit (report d)

/-- A property of steps that is closed under what expressions and statements are checked by. -/
structure Composes (head : ModuleHead) (J : (α : Type) → Check α → Prop) : Prop
    extends ComposesSearches head J where
  readName (id : Ident) : J Ty (readName id)
  writeName (id : Ident) : J Ty (writeName id)
  moduleMember (module member : Ident) : J _ (moduleMember module member)
  objectMemberType (typeName : String) (o : ResolvedObject) (member : Ident) :
    J Ty (objectMemberType typeName o member)

/-- A property of steps that is closed under what uses of names are recorded by. -/
structure ComposesTouches (head : ModuleHead) (J : (α : Type) → Check α → Prop) : Prop where
  bind {α β : Type} {p : Check α} {f : α → Check β} : J α p → (∀ a, J β (f a)) → J β (p >>= f)
  get {α : Type} {f : CheckState → Check α} : (∀ s, J α (f s)) → J α (get >>= f)
  read {α : Type} {f : Env → Check α} :
    (∀ env, env.head = head → J α (f env)) → J α (read >>= f)
  withReader {α : Type} {p : Check α} (f : Env → Env) : (∀ env, (f env).resolver? = env.resolver?) →
    (∀ env, (f env).head = env.head) → J α p → J α (withReader f p : Check α)
  /-- What may be touched is touched without a report. -/
  touch {α : Type} {p : Check α} : Touches (Standing.plain head fun _ => False) p → J α p
  report {d : Diagnostic} : d.code ∉ ruleCodes → J Unit (report d)

variable {head : ModuleHead} {J : (α : Type) → Check α → Prop}

/-! ## Names -/

section Searches

variable (h : ComposesSearches head J)

include h

theorem ComposesSearches.pure {α : Type} (a : α) : J α (pure a : Check α) :=
  h.search ⟨.nothing a, .pure a⟩

theorem ComposesSearches.query {α : Type} {p : Check α} (hp : Query head p) : J α p :=
  h.search ⟨hp.still, hp.touches⟩

theorem resolveName_composes (id : Ident) : J _ (resolveName id) := by
  refine h.bind (h.query table_query) fun t =>
    h.bind (h.search ⟨(nameIn_finds id _).still, nameIn_touches id _⟩) fun b? => ?_
  cases b? with
  | some b => exact h.pure _
  | none =>
    dsimp only
    split
    · exact h.pure _
    · refine h.bind (h.query (lookupExternal_query id.name)) fun found => ?_
      cases found with
      | found b => exact h.pure _
      | unknowable => exact h.pure _
      | missing =>
        dsimp only
        split
        · exact h.pure _
        · refine h.bind (h.query suppressUnknown_query) fun suppressed => ?_
          split
          · exact h.pure _
          · exact h.bind (h.report (show DiagnosticCode.undefinedReference ∉ heldCodes by decide))
              fun _ => h.pure _

end Searches

/-! ## Uses of names -/

section Touches

variable (h : ComposesTouches head J)

include h

theorem ComposesTouches.pure {α : Type} (a : α) : J α (pure a : Check α) := h.touch (.pure a)

theorem ComposesTouches.query {α : Type} {p : Check α} (hp : Query head p) : J α p :=
  h.touch hp.touches

theorem ComposesTouches.error {code : DiagnosticCode} (hcode : code ∉ ruleCodes) (span : Span)
    (message : String) : J _ (error code span message) := h.report hcode

theorem ComposesTouches.warning {code : DiagnosticCode} (hcode : code ∉ ruleCodes) (span : Span)
    (message : String) : J _ (warning code span message) := h.report hcode

theorem ComposesTouches.searches : ComposesSearches head J where
  bind := h.bind
  get := h.get
  read := h.read
  withReader := h.withReader
  search hp := h.touch hp.2
  report hcode := h.report fun hrule => hcode (List.mem_append_left _ hrule)

theorem refer_composes (id : Nat) (span : Span) : J _ (refer id span) :=
  h.touch (refer_touches id span)

theorem noteRead_composes (id : Nat) (span : Span) : J _ (noteRead id span) := by
  refine h.bind (refer_composes h id span) fun _ => h.get fun s => ?_
  split
  · exact h.pure _
  · split
    · exact h.pure _
    · refine h.bind (h.touch (setOutState_touches id fun a => ?_)) fun _ =>
        h.bind (h.query (symbol?_query id)) fun _ => h.warning (by decide) _ _
      cases a with
      | none => trivial
      | some a => exact ⟨fun h => h, fun _ => Bool.or_true _⟩

theorem readName_composes (id : Ident) : J _ (readName id) := by
  refine h.bind (resolveName_composes h.searches id) fun b? => ?_
  cases b? with
  | none => exact h.pure _
  | some b =>
    cases b with
    | declared symbol =>
      exact h.bind (noteRead_composes h symbol id.span) fun _ => h.query (valueType_query _)
    | external s => exact h.query (valueType_query _)
    | builtin => exact h.query (valueType_query _)

theorem notAssignable_composes (id : Ident) (what : String) : J _ (notAssignable id what) :=
  h.error (by decide) _ _

theorem writeName_composes (id : Ident) : J _ (writeName id) := by
  refine h.bind (resolveName_composes h.searches id) fun b? => ?_
  cases b? with
  | none => exact h.pure _
  | some b =>
    cases b with
    | declared symbol =>
      have rest (_ : Unit) : J _ (do markAssigned symbol; valueType (.declared symbol)) :=
        h.bind (h.touch (markAssigned_touches symbol)) fun _ => h.query (valueType_query _)
      refine h.bind (refer_composes h symbol id.span) fun _ =>
        h.bind (h.query (symbol?_query symbol)) fun s? => ?_
      cases s? with
      | none => exact rest ()
      | some s =>
        dsimp only
        split
        · exact h.bind (h.error (by decide) _ _) rest
        · split
          · exact h.bind (notAssignable_composes h _ _) rest
          · exact rest ()
    | external s =>
      dsimp only
      split
      · exact h.bind (notAssignable_composes h _ _) fun _ => h.query (valueType_query _)
      · exact h.query (valueType_query _)
    | builtin => exact h.bind (notAssignable_composes h _ _) fun _ => h.query (valueType_query _)

theorem moduleMember_composes (module member : Ident) : J _ (moduleMember module member) := by
  refine h.bind (h.query table_query) fun t => ?_
  split
  · exact h.pure _
  · split
    · refine h.bind (refer_composes h _ _) fun _ =>
        h.bind (h.query (lookup_query _ _ _)) fun found => ?_
      cases found with
      | found b => exact h.bind (h.query (valueType_query b)) fun _ => h.pure _
      | unknowable => exact h.pure _
      | missing => exact h.bind (h.error (by decide) _ _) fun _ => h.pure _
    · exact h.pure _

theorem objectMemberType_composes (typeName : String) (o : ResolvedObject) (member : Ident) :
    J _ (objectMemberType typeName o member) := by
  refine h.bind (h.touch (findMember_touches o member.name)) fun m? => ?_
  cases m? with
  | some m =>
    refine h.bind (h.query (memberBinding_query m member.span)) fun b => ?_
    cases b with
    | declared id => exact h.bind (refer_composes h id member.span) fun _ => h.pure _
    | external s => exact h.pure _
    | builtin => exact h.pure _
  | none =>
    refine h.bind (h.touch (chainResolved_touches o)) fun resolved => h.read fun env _ => ?_
    dsimp only
    split
    · exact h.bind (h.error (by decide) _ _) fun _ => h.pure _
    · exact h.pure _

theorem ComposesTouches.composes : Composes head J where
  toComposesSearches := h.searches
  readName := readName_composes h
  writeName := writeName_composes h
  moduleMember := moduleMember_composes h
  objectMemberType := objectMemberType_composes h

end Touches

section Composes

variable (h : Composes head J)

include h

theorem error_composes {code : DiagnosticCode} (hcode : code ∉ heldCodes) (span : Span)
    (message : String) : J _ (error code span message) := h.report hcode

theorem warning_composes {code : DiagnosticCode} (hcode : code ∉ heldCodes) (span : Span)
    (message : String) : J _ (warning code span message) := h.report hcode

theorem markAssigned_composes (id : Nat) : J _ (markAssigned id) :=
  h.search ⟨setOutState_still id _, markAssigned_touches id⟩

/-! ## Repeated steps -/

theorem forM_composes {α : Type} {f : α → Check Unit} (hf : ∀ a, J _ (f a)) (as : List α) :
    J _ (as.forM f) := by
  induction as with
  | nil => exact h.pure _
  | cons a as ih => exact h.bind (hf a) fun _ => ih

theorem optionForM_composes {α : Type} {f : α → Check Unit} (hf : ∀ a, J _ (f a))
    (a? : Option α) : J _ (a?.forM f) := by
  cases a? with
  | none => exact h.pure _
  | some a => exact hf a

/-! ## Members -/

theorem memberType_composes (base : Ty) (member : Ident) : J _ (memberType base member) := by
  unfold memberType
  refine h.bind (h.query (normalize_query base)) fun t => ?_
  extract_lets rest
  have plain (base : Ty) : J _ (rest base) := by
    unfold rest
    split
    · exact h.pure _
    · next module? name =>
      refine h.bind (h.query (findObject_query module? name)) fun o? => ?_
      cases o? with
      | some o => exact h.objectMemberType name o member
      | none =>
        refine h.bind (h.query (resolveNamed_query module? name)) fun t? => ?_
        split
        · exact h.pure _
        · exact h.pure _
    · exact h.pure _
  split
  · exact h.bind (h.query (normalize_query _)) plain
  · exact h.bind (h.pure _) plain

/-! ## Expressions -/

theorem binaryType_composes (op : BinaryOp) (left right : Ty) : J _ (binaryType op left right) := by
  unfold binaryType
  split
  · exact h.pure _
  · exact h.bind (h.query (normalize_query left)) fun _ =>
      h.bind (h.query (normalize_query right)) fun _ => h.pure _

theorem elementType_composes (base : Ty) : J _ (elementType base) := by
  refine h.bind (h.query (normalize_query base)) fun t => ?_
  split
  · exact h.pure _
  · exact h.pure _
  · exact h.pure _

theorem checkTarget_composes (target : Expr) {check : Check Ty} (hcheck : J _ check) :
    J _ (checkTarget target check) := by
  unfold checkTarget
  split
  · exact h.bind (error_composes h (by decide) _ _) fun _ => h.bind hcheck fun _ => h.pure _
  · split
    · exact h.writeName _
    · dsimp only
      split
      · refine h.bind (h.query table_query) fun t => ?_
        split
        · exact h.bind (markAssigned_composes h _) fun _ => hcheck
        · exact hcheck
      · exact hcheck

variable {arg : Argument} {args : List Argument}

theorem notAPlace_composes (index : Nat) (mode : ParamMode) (harg : J _ arg.2) :
    J _ (notAPlace index mode arg) :=
  h.bind (error_composes h (by decide) _ _) fun _ => h.bind harg fun _ => h.pure _

theorem checkArg_composes (index : Nat) (harg : J _ arg.2) (param? : Option ParamType) :
    J _ (checkArg index arg param?) := by
  cases param? with
  | none => exact h.bind harg fun _ => h.pure _
  | some p =>
    unfold checkArg
    dsimp only
    split
    · split
      · exact h.bind (checkTarget_composes h arg.1 harg) fun _ => h.pure _
      · exact notAPlace_composes h index p.mode harg
    · refine h.bind harg fun type => h.bind (h.query (assignable_query p.type type)) fun fits => ?_
      split
      · exact h.pure _
      · exact error_composes h (by decide) _ _

theorem checkArgList_composes (index : Nat) (hargs : ∀ arg ∈ args, J _ arg.2)
    (params : List ParamType) : J _ (checkArgList index args params) := by
  induction args generalizing index params with
  | nil => exact h.pure _
  | cons arg args ih =>
    exact h.bind (checkArg_composes h index (hargs arg List.mem_cons_self) _) fun _ =>
      ih (index + 1) (fun a ha => hargs a (List.mem_cons_of_mem arg ha)) _

theorem checkArgs_composes (hargs : ∀ arg ∈ args, J _ arg.2) (signature? : Option Signature)
    (span : Span) : J _ (checkArgs args signature? span) := by
  cases signature? with
  | none => exact checkArgList_composes h 0 hargs []
  | some s =>
    unfold checkArgs
    dsimp only
    split
    · exact h.bind (error_composes h (by decide) _ _) fun _ => checkArgList_composes h 0 hargs _
    · exact checkArgList_composes h 0 hargs _

theorem callResult_composes (callee : Ty) (hargs : ∀ arg ∈ args, J _ arg.2) (span : Span) :
    J _ (callResult callee args span) := by
  unfold callResult
  split
  · exact h.bind (checkArgs_composes h hargs _ span) fun _ => h.pure _
  · exact h.bind (checkArgs_composes h hargs none span) fun _ => h.pure _

theorem checkFirstArg_composes (name : String) (harg : J _ arg.2) :
    J _ (checkFirstArg name arg) := by
  unfold checkFirstArg
  split
  · split
    · exact checkTarget_composes h arg.1 harg
    · exact h.bind (notAPlace_composes h 0 .inOut harg) fun _ => h.pure _
  · exact harg

/-- Running the checks of some values one after the other. -/
theorem forM_arguments_composes (hargs : ∀ arg ∈ args, J _ arg.2) :
    J _ (args.forM fun a => do let _ ← a.2; pure ()) := by
  induction args with
  | nil => exact h.pure _
  | cons arg args ih =>
    exact h.bind (h.bind (hargs arg List.mem_cons_self) fun _ => h.pure _) fun _ =>
      ih fun a ha => hargs a (List.mem_cons_of_mem arg ha)

theorem builtinCall_composes (name : String) (hargs : ∀ arg ∈ args, J _ arg.2) :
    J _ (builtinCall name args) := by
  cases args with
  | nil => exact h.pure _
  | cons arg rest =>
    exact h.bind (checkFirstArg_composes h name (hargs arg List.mem_cons_self)) fun _ =>
      h.bind (forM_arguments_composes h fun a ha => hargs a (List.mem_cons_of_mem arg ha)) fun _ =>
        h.pure _

theorem builtinCallee?_composes (callee : Expr) : J _ (builtinCallee? callee) := by
  unfold builtinCallee?
  split
  · refine h.bind (h.query table_query) fun t => ?_
    split
    · exact h.pure _
    · exact h.pure _
  · exact h.pure _

theorem checkCall_composes (callee : Expr) {check : Check Ty} (hcheck : J _ check)
    (hargs : ∀ arg ∈ args, J _ arg.2) (span : Span) : J _ (checkCall callee check args span) := by
  refine h.bind (builtinCallee?_composes h callee) fun name? => ?_
  cases name? with
  | some name => exact builtinCall_composes h name hargs
  | none => exact h.bind hcheck fun type => callResult_composes h type hargs span

theorem methodCall_composes {check : Check Ty} (hcheck : J _ check) (method : Ident)
    (hargs : ∀ arg ∈ args, J _ arg.2) (span : Span) : J _ (methodCall check method args span) :=
  h.bind hcheck fun type => h.bind (memberType_composes h type method) fun callee =>
    callResult_composes h callee hargs span

theorem inheritedCall_composes (method : Ident) (hargs : ∀ arg ∈ args, J _ arg.2) :
    J _ (inheritedCall method args) := by
  refine h.read fun env _ => ?_
  split
  · exact callResult_composes h _ hargs _
  · next o _ =>
    refine h.bind (h.search ⟨baseMethod_still o method.name, baseMethod_touches o method.name⟩) fun base? => ?_
    cases base? with
    | some base => exact callResult_composes h _ hargs _
    | none =>
      exact h.bind (error_composes h (by decide) _ _) fun _ => callResult_composes h _ hargs _

theorem fieldAccess_composes (base : Expr) {check : Check Ty} (hcheck : J _ check)
    (member : Ident) : J _ (fieldAccess base check member) := by
  unfold fieldAccess
  extract_lets rest
  have accessed (declared? : Option Ty) : J _ (rest declared?) := by
    cases declared? with
    | some type => exact h.pure _
    | none => exact h.bind hcheck fun type => memberType_composes h type member
  split
  · exact h.bind (h.moduleMember _ member) accessed
  · exact h.bind (h.pure _) accessed

theorem firstType_composes (hargs : ∀ arg ∈ args, J _ arg.2) : J _ (firstType args) := by
  cases args with
  | nil => exact h.pure _
  | cons arg rest =>
    exact h.bind (hargs arg List.mem_cons_self) fun _ =>
      h.bind (forM_arguments_composes h fun a ha => hargs a (List.mem_cons_of_mem arg ha)) fun _ =>
        h.pure _

end Composes

mutual

theorem checkExpr_composes (h : Composes head J) : ∀ e : Expr, J _ (checkExpr e)
  | .name id => by
    rw [checkExpr]
    exact h.readName id
  | .integer _ _ | .real _ _ | .string _ _ | .char _ _ | .bool _ _ | .nil _ _ | .missing _ => by
    rw [checkExpr]
    exact h.pure _
  | .selfRef _ => by
    rw [checkExpr]
    exact h.read fun _ _ => h.pure _
  | .unary op operand _ => by
    rw [checkExpr]
    exact h.bind (checkExpr_composes h operand) fun _ => h.pure _
  | .binary op left right _ => by
    rw [checkExpr]
    exact h.bind (checkExpr_composes h left) fun l => h.bind (checkExpr_composes h right) fun r =>
      binaryType_composes h op l r
  | .call callee args span => by
    rw [checkExpr]
    exact checkCall_composes h callee (checkExpr_composes h callee) (checkEach_composes h args) span
  | .index base indices _ => by
    rw [checkExpr]
    exact h.bind (checkExpr_composes h base) fun type =>
      h.bind (firstType_composes h (checkEach_composes h indices)) fun _ =>
        elementType_composes h type
  | .field base member _ => by
    rw [checkExpr]
    exact fieldAccess_composes h base (checkExpr_composes h base) member
  | .deref base _ => by
    rw [checkExpr]
    refine h.bind (checkExpr_composes h base) fun type => ?_
    split
    · exact h.pure _
    · exact h.pure _
  | .set elements _ => by
    rw [checkExpr]
    exact h.bind (firstType_composes h (checkEach_composes h elements)) fun _ => h.pure _
  | .range low high _ => by
    rw [checkExpr]
    exact h.bind (checkExpr_composes h low) fun _ => h.bind (checkExpr_composes h high) fun _ =>
      h.pure _
  | .ask call => by
    rw [checkExpr]
    exact checkMethodCall_composes h call
  | .inherited method args _ => by
    rw [checkExpr]
    exact inheritedCall_composes h method (checkEach_composes h args)

theorem checkMethodCall_composes (h : Composes head J) : ∀ call : MethodCall,
    J _ (checkMethodCall call)
  | ⟨target, method, args, span⟩ => by
    rw [checkMethodCall]
    exact methodCall_composes h (checkExpr_composes h target) method
      (checkEach_composes h args) span

theorem checkEach_composes (h : Composes head J) : ∀ es : List Expr, ∀ arg ∈ checkEach es, J _ arg.2
  | [] => by
    rw [checkEach]
    exact fun _ h => nomatch h
  | e :: es => by
    rw [checkEach]
    intro arg harg
    rcases List.mem_cons.1 harg with rfl | harg
    · exact checkExpr_composes h e
    · exact checkEach_composes h es arg harg

end

section Composes

variable (h : Composes head J)

include h

theorem checkValue_composes (e : Expr) : J _ (checkValue e) :=
  h.bind (checkExpr_composes h e) fun _ => h.pure _

theorem checkPlace_composes (target : Expr) : J _ (checkPlace target) :=
  checkTarget_composes h target (checkExpr_composes h target)

/-! ## Statements -/

theorem checkCondition_composes (e : Expr) : J _ (checkCondition e) := by
  refine h.bind (checkExpr_composes h e) fun t =>
    h.bind (h.query (normalize_query t)) fun type => ?_
  split
  · exact h.pure _
  · exact error_composes h (by decide) _ _

theorem checkNumeric_composes (what : String) (e : Expr) : J _ (checkNumeric what e) := by
  refine h.bind (checkExpr_composes h e) fun t =>
    h.bind (h.query (normalize_query t)) fun type => ?_
  split
  · exact h.pure _
  · exact error_composes h (by decide) _ _

theorem checkAssign_composes (target value : Expr) : J _ (checkAssign target value) := by
  refine h.bind (checkExpr_composes h value) fun valueType =>
    h.bind (checkPlace_composes h target) fun targetType =>
      h.bind (h.query (assignable_query targetType valueType)) fun fits => ?_
  split
  · exact h.pure _
  · exact error_composes h (by decide) _ _

theorem checkReturn_composes (value : Expr) (span : Span) : J _ (checkReturn value span) := by
  refine h.bind (checkExpr_composes h value) fun type => h.read fun env _ => ?_
  split
  · exact h.pure _
  · exact error_composes h (by decide) _ _
  · refine h.bind (h.query (assignable_query _ type)) fun fits => ?_
    split
    · exact h.pure _
    · exact error_composes h (by decide) _ _

theorem writeLoopVar_composes (var : Ident) : J _ (writeLoopVar var) :=
  h.bind (h.writeName var) fun _ => h.pure _

theorem checkCallOf_composes (call : MethodCall) : J _ (checkCallOf call) :=
  h.bind (checkMethodCall_composes h call) fun _ => h.pure _

theorem checkWaitSubject_composes (subject : WaitSubject) : J _ (checkWaitSubject subject) := by
  cases subject with
  | method call => exact checkCallOf_composes h call
  | duration time => exact checkNumeric_composes h _ time

end Composes

mutual

theorem checkStmt_composes (h : Composes head J) : ∀ s : Stmt, J _ (checkStmt s)
  | .assign target value _ => by
    rw [checkStmt]
    exact checkAssign_composes h target value
  | .call call _ => by
    rw [checkStmt]
    exact checkValue_composes h call
  | .if_ branches else? _ => by
    rw [checkStmt]
    exact h.bind (checkBranches_composes h branches) fun _ => checkOptional_composes h else?
  | .while_ condition body _ => by
    rw [checkStmt]
    exact h.bind (checkCondition_composes h condition) fun _ => checkBlock_composes h body
  | .repeat_ body condition _ => by
    rw [checkStmt]
    exact h.bind (checkBlock_composes h body) fun _ => checkCondition_composes h condition
  | .for_ var first _ last step body _ => by
    rw [checkStmt]
    exact h.bind (checkValue_composes h first) fun _ => h.bind (checkValue_composes h last) fun _ =>
      h.bind (optionForM_composes h (checkValue_composes h) step) fun _ =>
        h.bind (writeLoopVar_composes h var) fun _ => checkBlock_composes h body
  | .forEach var group body _ => by
    rw [checkStmt]
    exact h.bind (checkValue_composes h group) fun _ =>
      h.bind (writeLoopVar_composes h var) fun _ => checkBlock_composes h body
  | .loop body _ => by
    rw [checkStmt]
    exact checkBlock_composes h body
  | .case selector arms otherwise _ => by
    rw [checkStmt]
    exact h.bind (checkValue_composes h selector) fun _ =>
      h.bind (checkArms_composes h arms) fun _ => checkOptional_composes h otherwise
  | .return_ value span => by
    rw [checkStmt]
    exact optionForM_composes h (fun e => checkReturn_composes h e span) value
  | .exit _ | .terminate _ => by
    rw [checkStmt]
    exact h.pure _
  | .new target _ => by
    rw [checkStmt]
    exact h.bind (checkPlace_composes h target) fun _ => h.pure _
  | .dispose target _ => by
    rw [checkStmt]
    exact checkValue_composes h target
  | .ask call _ => by
    rw [checkStmt]
    exact checkCallOf_composes h call
  | .tell call delay _ => by
    rw [checkStmt]
    exact h.bind (checkCallOf_composes h call) fun _ =>
      optionForM_composes h (checkNumeric_composes h _) delay
  | .wait subject body interrupt _ => by
    rw [checkStmt]
    exact h.bind (checkWaitSubject_composes h subject) fun _ =>
      h.bind (checkBlock_composes h body) fun _ => checkOptional_composes h interrupt
  | .inherited method args _ => by
    rw [checkStmt]
    exact h.bind (inheritedCall_composes h method (checkEach_composes h args)) fun _ => h.pure _
  | .with_ subject body _ => by
    rw [checkStmt]
    exact h.bind (checkValue_composes h subject) fun _ =>
      h.withReader _ (fun _ => rfl) (fun _ => rfl) (checkBlock_composes h body)

theorem checkBlock_composes (h : Composes head J) : ∀ body : List Stmt, J _ (checkBlock body)
  | [] => by
    rw [checkBlock]
    exact h.pure _
  | s :: rest => by
    rw [checkBlock]
    exact h.bind (checkStmt_composes h s) fun _ => checkBlock_composes h rest

theorem checkOptional_composes (h : Composes head J) : ∀ body? : Option (List Stmt),
    J _ (checkOptional body?)
  | none => by
    rw [checkOptional]
    exact h.pure _
  | some body => by
    rw [checkOptional]
    exact checkBlock_composes h body

theorem checkBranches_composes (h : Composes head J) : ∀ branches : List CondBranch,
    J _ (checkBranches branches)
  | [] => by
    rw [checkBranches]
    exact h.pure _
  | ⟨condition, body, _⟩ :: rest => by
    rw [checkBranches]
    exact h.bind (checkCondition_composes h condition) fun _ =>
      h.bind (checkBlock_composes h body) fun _ => checkBranches_composes h rest

theorem checkArms_composes (h : Composes head J) : ∀ arms : List CaseArm, J _ (checkArms arms)
  | [] => by
    rw [checkArms]
    exact h.pure _
  | ⟨labels, body, _⟩ :: rest => by
    rw [checkArms]
    exact h.bind (forM_composes h (checkValue_composes h) labels) fun _ =>
      h.bind (checkBlock_composes h body) fun _ => checkArms_composes h rest

end

/-! ## Unused symbols -/

theorem reportUnused_composes (h : ComposesTouches head J) (id : Nat) : J _ (reportUnused id) := by
  refine h.bind (h.query (symbol?_query id)) fun s? => ?_
  cases s? with
  | none => exact h.pure _
  | some s =>
    dsimp only
    split
    · refine h.get fun st => ?_
      split
      · exact h.warning (by decide) _ _
      · refine h.bind (h.query table_query) fun t => ?_
        split
        · exact h.warning (by decide) _ _
        · exact h.pure _
    · exact h.pure _

theorem reportAllUnused_composes (h : ComposesTouches head J) : J _ reportAllUnused :=
  h.bind (h.query table_query) fun _ => forM_composes h.composes (reportUnused_composes h) _

end SimFront.Check
