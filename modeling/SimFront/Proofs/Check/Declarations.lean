import SimFront.Grammar.Module
import SimFront.Proofs.Check.Steps

/-!
# Declarations and whole modules know other modules by name

One lemma for each step of the checks of types, declarations, imports, bodies and
object types, up to the check of a whole module (`checkModule_byName`).  So an analysis asks for
each module once, and for all that it depends on (`asked_once`).
-/

namespace SimFront.Check

variable {head : ModuleHead}

variable {α : Type}

/-! ## Type specifications -/

theorem currentScope_byName : ByName head currentScope := .query currentScope_query

theorem typeOfName_byName (q : QualIdent) : ByName head (typeOfName q) := by
  unfold typeOfName
  dsimp only
  split
  · exact .pure _
  · exact currentScope_byName.bind fun scope =>
      .bind (.modify _ (fun _ _ _ => rfl) fun _ h => h) fun _ => .pure _

theorem checkArrayIndex_byName (index : ArrayIndex) : ByName head (checkArrayIndex index) := by
  cases index with
  | range low high span => exact (checkValue_byName low).bind fun _ => checkValue_byName high
  | type name => exact (typeOfName_byName name).bind fun _ => .pure _

theorem defineEnumValues_byName (owner? : Option Ident) (values : List Ident) :
    ByName head (defineEnumValues owner? values) :=
  forM_byName (fun _ => (define_byName _).bind fun _ => .pure _) values

theorem defineFields_byName (owner? : Option Ident) (sect : SectionKind) (type : Ty)
    (names : List Ident) : ByName head (defineFields owner? sect type names) := by
  induction names with
  | nil => exact .pure _
  | cons n ns ih => exact (define_byName _).bind fun _ => ih.bind fun _ => .pure _

theorem defineMethod_byName (owner? : Option Ident) (sect : SectionKind) (dispatch : Dispatch)
    (name : Ident) (signature : Signature) :
    ByName head (defineMethod owner? sect dispatch name signature) :=
  (define_byName _).bind fun _ => .pure _

theorem noteObject_byName (owner? : Option Ident) (scope : Nat) :
    ByName head (noteObject owner? scope) := by
  cases owner? with
  | none => exact .pure _
  | some o =>
    refine table_byName.bind fun t => ?_
    split
    · exact .pure _
    · exact .modify _ (fun _ _ _ => rfl) fun _ h => h

theorem mapM_byName {α β : Type} {f : α → Check β} (hf : ∀ a, ByName head (f a)) (as : List α) :
    ByName head (as.mapM f) := by
  induction as with
  | nil => exact .pure []
  | cons a as ih =>
    rw [List.mapM_cons]
    exact (hf a).bind fun _ => ih.bind fun _ => .pure _

mutual

theorem typeOfSpec_byName (owner? : Option Ident) : ∀ spec : TypeSpec,
    ByName head (typeOfSpec owner? spec)
  | .named name => by
    rw [typeOfSpec]
    exact typeOfName_byName name
  | .array indices element _ => by
    rw [typeOfSpec]
    exact (forM_byName checkArrayIndex_byName indices).bind fun _ =>
      (typeOfSpec_byName none element).bind fun _ => .pure _
  | .record fields span => by
    rw [typeOfSpec]
    exact (inScope_byName .record span (fieldsOf_byName owner? .public_ fields)).bind
      fun _ => .pure _
  | .pointer target _ => by
    rw [typeOfSpec]
    exact (typeOfSpec_byName none target).bind fun _ => .pure _
  | .set element _ => by
    rw [typeOfSpec]
    exact (typeOfSpec_byName none element).bind fun _ => .pure _
  | .enum values _ => by
    rw [typeOfSpec]
    exact (defineEnumValues_byName owner? values).bind fun _ => .pure _
  | .subrange low high _ => by
    rw [typeOfSpec]
    exact (checkExpr_byName low).bind fun _ => (checkValue_byName high).bind fun _ => .pure _
  | .procedure params result _ => by
    rw [typeOfSpec]
    exact (paramsOf_byName params).bind fun _ => (resultOf_byName result).bind fun _ => .pure _
  | .object ⟨bases, sections, span⟩ => by
    rw [typeOfSpec]
    exact (mapM_byName typeOfName_byName bases).bind fun _ => (modifyTable_byName _).bind fun _ =>
      currentScope_byName.bind fun scope => (sectionsOf_byName owner? sections).bind fun _ =>
        (modifyTable_byName _).bind fun _ => (noteObject_byName owner? scope).bind fun _ => .pure _

theorem paramsOf_byName : ∀ params : List Param, ByName head (paramsOf params)
  | [] => by
    rw [paramsOf]
    exact .pure _
  | ⟨mode, names, spec, _⟩ :: rest => by
    rw [paramsOf]
    exact (typeOfSpec_byName none spec).bind fun _ => (paramsOf_byName rest).bind fun _ => .pure _

theorem resultOf_byName : ∀ spec? : Option TypeSpec, ByName head (resultOf spec?)
  | none => by
    rw [resultOf]
    exact .pure _
  | some spec => by
    rw [resultOf]
    exact (typeOfSpec_byName none spec).bind fun _ => .pure _

theorem fieldsOf_byName (owner? : Option Ident) (sect : SectionKind) :
    ∀ fields : List FieldDecl, ByName head (fieldsOf owner? sect fields)
  | [] => by
    rw [fieldsOf]
    exact .pure _
  | ⟨names, spec, _⟩ :: rest => by
    rw [fieldsOf]
    exact (typeOfSpec_byName none spec).bind fun type =>
      (defineFields_byName owner? sect type names).bind fun _ =>
        (fieldsOf_byName owner? sect rest).bind fun _ => .pure _

theorem memberOf_byName (owner? : Option Ident) (sect : SectionKind) :
    ∀ m : ObjectMember, ByName head (memberOf owner? sect m)
  | .field ⟨names, spec, _⟩ => by
    rw [memberOf]
    exact (typeOfSpec_byName none spec).bind fun type =>
      (defineFields_byName owner? sect type names).bind fun _ => .pure _
  | .method ⟨dispatch, name, params, result, _⟩ => by
    rw [memberOf]
    exact (paramsOf_byName params).bind fun _ => (resultOf_byName result).bind fun _ =>
      (defineMethod_byName owner? sect dispatch name _).bind fun _ => .pure _

theorem membersOf_byName (owner? : Option Ident) (sect : SectionKind) :
    ∀ members : List ObjectMember, ByName head (membersOf owner? sect members)
  | [] => by
    rw [membersOf]
    exact .pure _
  | m :: rest => by
    rw [membersOf]
    exact (memberOf_byName owner? sect m).bind fun _ =>
      (membersOf_byName owner? sect rest).bind fun _ => .pure _

theorem sectionsOf_byName (owner? : Option Ident) :
    ∀ sections : List ObjectSection, ByName head (sectionsOf owner? sections)
  | [] => by
    rw [sectionsOf]
    exact .pure _
  | ⟨kind, members, _⟩ :: rest => by
    rw [sectionsOf]
    exact (membersOf_byName owner? kind members).bind fun _ =>
      (sectionsOf_byName owner? rest).bind fun _ => .pure _

end

theorem signatureOf_byName (params : List Param) (result : Option TypeSpec) :
    ByName head (signatureOf params result) :=
  (paramsOf_byName params).bind fun _ => (resultOf_byName result).bind fun _ => .pure _

/-! ## Declarations -/

theorem declareType_byName (d : TypeDecl) : ByName head (declareType d) := by
  refine (define_byName _).bind fun id? => (typeOfSpec_byName _ d.type).bind fun type => ?_
  cases id? with
  | none => exact .pure _
  | some id => exact modifyTable_byName _

theorem constType_byName (d : ConstDecl) : ByName head (constType d) := by
  refine (checkExpr_byName d.value).bind fun value => ?_
  split
  · exact .pure _
  · next spec _ =>
    refine (typeOfSpec_byName none spec).bind fun declared =>
      (assignable_byName declared value).bind fun fits => ?_
    dsimp only
    split
    · exact .pure _
    · exact (error_byName _ _ _).bind fun _ => .pure _

theorem declareConst_byName (d : ConstDecl) : ByName head (declareConst d) :=
  (constType_byName d).bind fun _ => (define_byName _).bind fun _ => .pure _

theorem checkInit_byName (type : Ty) (init : Expr) : ByName head (checkInit type init) := by
  refine (checkExpr_byName init).bind fun value => (assignable_byName type value).bind fun fits => ?_
  split
  · exact .pure _
  · exact error_byName _ _ _

theorem declareVars_byName (d : VarDecl) : ByName head (declareVars d) :=
  (typeOfSpec_byName none d.type).bind fun type =>
    (optionForM_byName (checkInit_byName type) d.init).bind fun _ =>
      forM_byName (fun _ => (define_byName _).bind fun _ => .pure _) d.names

theorem declareProcedure_byName (d : ProcDecl) : ByName head (declareProcedure d) :=
  (signatureOf_byName _ _).bind fun _ => .bind (.modify _ (fun _ _ _ => rfl) fun _ h => h) fun _ =>
    (define_byName _).bind fun _ => .pure _

theorem declare_byName (d : Decl) : ByName head (declare d) := by
  cases d with
  | type d => exact declareType_byName d
  | const d => exact declareConst_byName d
  | var d => exact declareVars_byName d
  | procedure d => exact declareProcedure_byName d
  | objectImpl d => exact .pure _

theorem declareAll_byName (ds : List Decl) : ByName head (declareAll ds) :=
  forM_byName declare_byName ds

theorem checkPendingType_byName (p : PendingType) : ByName head (checkPendingType p) := by
  refine (ByName.query (lookup_query p.module? p.name p.scope)).bind fun found => ?_
  cases found with
  | found b =>
    refine (ByName.query (isPlaceholder_query b)).bind fun placeholder => ?_
    split
    · exact .pure _
    · refine (ByName.query (bindingSymbol?_query b)).bind fun s? => ?_
      cases s? with
      | none => exact .pure _
      | some s =>
        dsimp only
        split
        · split
          · exact modifyTable_byName _
          · exact .pure _
        · exact error_byName _ _ _
  | unknowable => exact .pure _
  | missing => exact error_byName _ _ _

theorem checkPendingTypes_byName : ByName head checkPendingTypes :=
  .get (fun _ => forM_byName checkPendingType_byName _) fun _ _ _ => rfl

/-! ## Imports -/

theorem otherModule_byName (halone : head.alone = false) {source : Ident}
    (h : source.name ≠ head.name) : ByName head (otherModule source) := by
  refine .read (fun env henv => ?_) fun env r? hr => ?_
  · refine (ByName.query (.ask fun hname => absurd hname h)).bind fun table? => ?_
    dsimp only
    split
    · refine .get (fun s => ?_) fun _ _ _ => rfl
      split
      · exact .pure _
      · exact .bind (.modify _ (fun _ _ _ => rfl) fun _ h => h) fun _ =>
          (warning_byName _ _ _).bind fun _ => .pure _
    · exact .pure _
  · simp only [hr halone]

theorem importFrom_byName (halone : head.alone = false) {source : Ident}
    {use : Option SymbolTable → Check Unit}
    (huse : source.name ≠ head.name → ∀ table?, ByName head (use table?)) :
    ByName head (importFrom source use) := by
  refine .read (fun env henv => ?_) fun _ _ _ => rfl
  have hhead : env.moduleName = head.name := congrArg ModuleHead.name henv
  split
  · exact warning_byName _ _ _
  · next hname =>
    rw [hhead] at hname
    exact (otherModule_byName halone hname).bind fun table? => huse hname table?

theorem addWholeImport_byName (halone : head.alone = false) {name : String}
    (hname : name ≠ head.name) :
    ByName head (modify fun s => { s with wholeImports := s.wholeImports ++ [name] }) := by
  refine .modify _ (fun _ _ _ => rfl) fun s hs => ⟨fun hmem => ?_, fun h => ?_⟩
  · exact (List.mem_append.1 hmem).elim hs.1 fun h => hname (List.mem_singleton.1 h).symm
  · rw [halone] at h
    cases h

theorem importModule_byName (halone : head.alone = false) (module : Ident) :
    ByName head (importModule module) := by
  -- a module that imports itself does not get to the list
  refine importFrom_byName halone fun hname _ => .get (fun s => ?_) fun _ _ _ => rfl
  split
  · exact .pure _
  · exact (addWholeImport_byName halone hname).bind fun _ => (define_byName _).bind fun _ => .pure _

theorem definePlaceholder_byName (name source : Ident) : ByName head (definePlaceholder name source) := by
  refine (define_byName _).bind fun id? => ?_
  cases id? with
  | none => exact .pure _
  | some id => exact .modify _ (fun _ _ _ => rfl) fun _ h => h

theorem importSymbol_byName (source : SymbolTable) (module : Ident) (item : ImportItem)
    (s : Symbol) : ByName head (importSymbol source module item s) := by
  refine (define_byName _).bind fun _ => ?_
  split
  · exact forM_byName (fun _ => (define_byName _).bind fun _ => .pure _) _
  · exact .pure _

theorem importItem_byName (module : Ident) (table? : Option SymbolTable) (item : ImportItem) :
    ByName head (importItem module table? item) := by
  cases table? with
  | none => exact definePlaceholder_byName _ _
  | some source =>
    unfold importItem
    dsimp only
    split
    · exact importSymbol_byName source module item _
    · exact (warning_byName _ _ _).bind fun _ => definePlaceholder_byName _ _

theorem importNames_byName (halone : head.alone = false) (module : Ident)
    (items : List ImportItem) : ByName head (importNames module items) :=
  importFrom_byName halone fun _ table? => forM_byName (importItem_byName module table?) items

theorem importClause_byName (halone : head.alone = false) (i : Import) :
    ByName head (importClause i) := by
  cases i with
  | names module items span => exact importNames_byName halone module items
  | modules modules span => exact forM_byName (importModule_byName halone) modules

/-! ## Object types -/

theorem mismatch_byName (name : String) (span : Span) (s : Signature) (base : Member)
    (baseSignature : Signature) : ByName head (mismatch name span s base baseSignature) := by
  unfold mismatch
  extract_lets _ _ rest
  have reported (declared? : Option Nat) : ByName head (rest declared?) := by
    cases declared? with
    | none => exact (ByName.pure _).bind fun _ => .pure _
    | some id => exact (symbol?_byName id).bind fun _ => .pure _
  split
  · exact (ByName.pure _).bind reported
  · exact (ByName.query (memberSymbol?_query _ _)).bind reported

theorem checkOverride_byName (o : ResolvedObject) (chainResolved : Bool) (span : Span)
    (name : String) (method : MethodInfo) :
    ByName head (checkOverride o chainResolved span name method) := by
  refine (baseMethod_byName o name).bind fun base? => ?_
  split
  · split
    · exact error_byName _ _ _
    · exact .pure _
  · split
    · exact .pure _
    · split
      · exact warning_byName _ _ _
      · split
        · exact (mismatch_byName _ _ _ _ _).bind fun _ => report_byName _
        · exact .pure _

theorem checkOverrides_byName (o : ResolvedObject) (chainResolved : Bool) (decl : ObjectDecl)
    (span : Span) (methods : List (String × MethodInfo)) :
    ByName head (checkOverrides o chainResolved decl span methods) := by
  induction methods with
  | nil => exact .pure _
  | cons m rest ih =>
    exact table_byName.bind fun _ => (checkOverride_byName _ _ _ _ _).bind fun _ => ih

theorem checkObjectType_byName (decl : ObjectDecl) : ByName head (checkObjectType decl) := by
  refine (symbol?_byName decl.symbol).bind fun s? => ?_
  cases s? with
  | none => exact .pure _
  | some s =>
    dsimp only
    split
    · refine (inheritsItself_byName _).bind fun circular => ?_
      split
      · exact error_byName _ _ _
      · exact (chainResolved_byName _).bind fun _ => checkOverrides_byName _ _ _ _ _
    · exact .pure _

theorem checkObjectTypes_byName : ByName head checkObjectTypes :=
  .get (fun _ => forM_byName checkObjectType_byName _) fun _ _ _ => rfl

/-! ## Bodies -/

theorem defineParams_byName (mode : ParamMode) (names : List Ident) (types : List ParamType) :
    ByName head (defineParams mode names types) := by
  induction names generalizing types with
  | nil => exact .pure _
  | cons n ns ih => exact (define_byName _).bind fun _ => (ih _).bind fun _ => .pure _

theorem defineAllParams_byName (params : List Param) (types : List ParamType) :
    ByName head (defineAllParams params types) := by
  induction params generalizing types with
  | nil => exact .pure _
  | cons p rest ih =>
    obtain ⟨mode, names, spec, span⟩ := p
    exact (defineParams_byName _ _ _).bind fun _ => (ih _).bind fun _ => .pure _

theorem reportUnused_byName (id : Nat) : ByName head (reportUnused id) := by
  refine (symbol?_byName id).bind fun s? => ?_
  cases s? with
  | none => exact .pure _
  | some s =>
    dsimp only
    split
    · refine .get (fun st => ?_) fun _ _ _ => rfl
      split
      · exact warning_byName _ _ _
      · refine table_byName.bind fun t => ?_
        split
        · exact warning_byName _ _ _
        · exact .pure _
    · exact .pure _

theorem reportAllUnused_byName : ByName head reportAllUnused :=
  table_byName.bind fun _ => forM_byName reportUnused_byName _

theorem inRoutine_byName (result? : Option Ty) (outs : List Nat) {step : Check Unit}
    (h : ByName head step) : ByName head (inRoutine result? outs step) :=
  .get (fun _ => .bind (.modify _ (fun _ _ _ => rfl) fun _ h => h) fun _ =>
    .bind (.withReader _ (fun _ _ => rfl) (fun _ => rfl) h) fun _ => reportAllUnused_byName.bind fun _ =>
      .modify _ (fun _ _ _ => rfl) fun _ h => h) fun _ _ _ => rfl

theorem checkRoutine_byName (params : List Param) (signature : Signature) (locals : List Decl)
    {bodies : Check Unit} (h : ByName head bodies) (body : List Stmt) :
    ByName head (checkRoutine params signature locals bodies body) :=
  (defineAllParams_byName params _).bind fun outs => inRoutine_byName _ outs <|
    (declareAll_byName locals).bind fun _ => h.bind fun _ => checkBlock_byName body

theorem checkMethodName_byName (name : Ident) : ByName head (checkMethodName name) := by
  refine .read (fun env henv => ?_) fun _ _ _ => rfl
  split
  · exact .pure _
  · split
    · split
      · refine (ByName.query (memberSymbol?_query _ _)).bind fun id? => ?_
        cases id? with
        | none => exact .pure _
        | some id => exact refer_byName id _
      · exact .pure _
    · exact error_byName _ _ _

theorem implementedObject_byName (name : Ident) : ByName head (implementedObject name) := by
  refine (ByName.query (findObject_query none name.name)).bind fun o? => ?_
  extract_lets _ rest
  have referred (done : Unit) : ByName head (rest done) := by
    refine table_byName.bind fun t => ?_
    split
    · split
      · exact (refer_byName _ _).bind fun _ => .pure _
      · exact .pure _
    · exact .pure _
  split
  · refine (ByName.query suppressUnknown_query).bind fun suppressed => ?_
    split
    · exact referred ()
    · exact (error_byName _ _ _).bind referred
  · exact referred ()

theorem inObject_byName (o? : Option ResolvedObject) (span : Span) {step : Check Unit}
    (h : ByName head step) : ByName head (inObject o? span step) := by
  have rest (resolved : Bool) : ByName head (inScope .object span do
      let context : ObjectContext := ⟨← currentScope, o?, resolved⟩
      withReader (fun env => { env with objects := context :: env.objects }) step) :=
    inScope_byName _ _ <| currentScope_byName.bind fun _ => .withReader _ (fun _ _ => rfl) (fun _ => rfl) h
  cases o? with
  | none => exact (ByName.pure false).bind rest
  | some o => exact (chainResolved_byName o).bind rest

mutual

theorem checkBodyOf_byName : ∀ d : Decl, ByName head (checkBodyOf d)
  | .procedure ⟨heading, locals, body, isForward, span⟩ => by
    rw [checkBodyOf]
    split
    · exact .pure _
    · exact .get (fun _ => inScope_byName _ _
        (checkRoutine_byName _ _ _ (checkBodies_byName locals) _)) fun _ _ _ => rfl
  | .objectImpl ⟨name, methods, span⟩ => by
    rw [checkBodyOf]
    exact (implementedObject_byName name).bind fun o? =>
      inObject_byName o? span (checkMethods_byName methods)
  | .type _ | .const _ | .var _ => by
    rw [checkBodyOf]
    exact .pure _

theorem checkBodies_byName : ∀ ds : List Decl, ByName head (checkBodies ds)
  | [] => by
    rw [checkBodies]
    exact .pure _
  | d :: ds => by
    rw [checkBodies]
    exact (checkBodyOf_byName d).bind fun _ => checkBodies_byName ds

theorem checkMethods_byName : ∀ methods : List MethodImpl, ByName head (checkMethods methods)
  | [] => by
    rw [checkMethods]
    exact .pure _
  | ⟨heading, locals, body, span⟩ :: rest => by
    rw [checkMethods]
    exact (checkMethodName_byName _).bind fun _ => (signatureOf_byName _ _).bind fun _ =>
      (inScope_byName _ _ (checkRoutine_byName _ _ _ (checkBodies_byName locals) _)).bind fun _ =>
        checkMethods_byName rest

end

/-! ## Modules -/

theorem checkExport_byName (e : Export) : ByName head (checkExport e) := by
  refine forM_byName (fun n => table_byName.bind fun t => ?_) e.names
  split
  · exact refer_byName _ _
  · exact error_byName _ _ _

/-- A head says rightly of a module that it imports nothing. -/
theorem checkImports_byName {m : Module} (h : head.alone = true → m.imports = []) :
    ByName head (m.imports.forM importClause) := by
  cases halone : head.alone with
  | false => exact forM_byName (importClause_byName halone) m.imports
  | true =>
    rw [h halone]
    exact .pure ()

theorem checkModule_byName (m : Module) (h : head.alone = true → m.imports = []) :
    ByName head (checkModule m) :=
  (define_byName _).bind fun _ => (checkImports_byName h).bind fun _ =>
    (declareAll_byName m.decls).bind fun _ => (checkBodies_byName m.decls).bind fun _ =>
      checkObjectTypes_byName.bind fun _ => (optionForM_byName checkBlock_byName m.body).bind
        fun _ => (forM_byName checkExport_byName m.exports).bind fun _ => checkPendingTypes_byName

end SimFront.Check

namespace SimFront

/-! ## Analyses -/

/-- The state in which the analysis of a module ends. -/
def CheckState.after (resolver? : Option Resolver) (m : Module) : CheckState :=
  ((Check.checkModule m).outcome (.ofModule resolver? m) (.ofModule m)).2

theorem analyze_eq (resolver? : Option Resolver) (m : Module) :
    analyze resolver? m =
      { table := (CheckState.after resolver? m).table,
        diagnostics := (CheckState.after resolver? m).reports.reverse.mergeSort
          fun a b => a.span.start.offset ≤ b.span.start.offset,
        asked := (CheckState.after resolver? m).asked.reverse } := rfl

theorem mem_diagnostics {resolver? : Option Resolver} {m : Module} {x : Diagnostic} :
    x ∈ (analyze resolver? m).diagnostics ↔ x ∈ (CheckState.after resolver? m).reports := by
  rw [analyze_eq, List.mem_mergeSort, List.mem_reverse]

theorem faithful_ofModule (resolver? : Option Resolver) (m : Module) :
    (CheckState.ofModule m).Faithful (.ofModule resolver? m) where
  answers _ he := nomatch he
  asked := (ite_self _).symm
  distinct := List.Pairwise.nil
  imports h := nomatch h
  own h := nomatch h

theorem faithful_after (resolver? : Option Resolver) (m : Module) :
    (CheckState.after resolver? m).Faithful (.ofModule resolver? m) :=
  ((Check.checkModule_byName m fun h => Bool.noConfusion h).faithful rfl
    (faithful_ofModule resolver? m)).1

/-- With a resolver, an analysis asks it for all that is remembered of other modules. -/
theorem analyze_asked (r : Resolver) (m : Module) :
    (analyze (some r) m).asked = ((CheckState.after (some r) m).modules.map Prod.fst).reverse :=
  congrArg List.reverse (faithful_after (some r) m).asked

/-- Only an implementation module asks for a module of its own name. -/
theorem own_name_asked {r : Resolver} {m : Module}
    (h : m.name.name ∈ (analyze (some r) m).asked) : m.kind = .implementation := by
  rw [analyze_asked, List.mem_reverse] at h
  exact (faithful_after (some r) m).own h

/-- What an analysis remembers of other modules, another resolver tells it too if it gives the
same answers to what was asked. -/
theorem answers_of_asked {r : Resolver} {m : Module} {r? : Option Resolver}
    (h : ∀ name ∈ (analyze (some r) m).asked, r?.bind (·.find? name) = r.find? name) :
    ∀ e ∈ (CheckState.after (some r) m).modules, r?.bind (·.find? e.1) = e.2 := by
  intro e he
  rw [← (faithful_after (some r) m).answers e he]
  refine h e.1 ?_
  rw [analyze_asked, List.mem_reverse]
  exact List.mem_map_of_mem he

/-- An analysis ends in the same state whoever gives the answers that it remembers.  If the module
imports nothing, there may be a resolver or none on either side. -/
theorem after_of_answers (head : ModuleHead) {m : Module} {r? r'? : Option Resolver}
    (hhead : (Env.ofModule r? m).head = head.shown)
    (himports : head.alone = true → m.imports = [])
    (hr : head.alone = false → r'?.isSome = r?.isSome)
    (h : ∀ e ∈ (CheckState.after r? m).modules, r'?.bind (·.find? e.1) = e.2) :
    CheckState.after r'? m = (CheckState.after r? m).askedOf r'? := by
  have known : Check.ByName head (Check.checkModule m) := Check.checkModule_byName m himports
  have hsame := known.congr hhead ⟨List.not_mem_nil, fun _ => rfl⟩ (faithful_ofModule r? m) hr h
  have hstart : (CheckState.ofModule m).askedOf r'? = .ofModule m :=
    (faithful_ofModule r'? m).askedOf_eq rfl
  rw [hstart] at hsame
  exact congrArg Prod.snd hsame

/-- An analysis ends in the same state whoever gives the same answers to what it asked for. -/
theorem after_congr (head : ModuleHead) {r : Resolver} {m : Module} {r? : Option Resolver}
    (hhead : (Env.ofModule (some r) m).head = head.shown)
    (himports : head.alone = true → m.imports = []) (hr : head.alone = false → r?.isSome = true)
    (h : ∀ name ∈ (analyze (some r) m).asked, r?.bind (·.find? name) = r.find? name) :
    CheckState.after r? m = (CheckState.after (some r) m).askedOf r? :=
  after_of_answers head hhead himports hr (answers_of_asked h)

/-- An analysis comes to the same with every resolver that gives the same answers to what it
asked for. -/
theorem analyze_congr {r r' : Resolver} {m : Module}
    (h : ∀ name ∈ (analyze (some r) m).asked, r'.find? name = r.find? name) :
    analyze (some r') m = analyze (some r) m := by
  have hsame : CheckState.after (some r') m = CheckState.after (some r) m :=
    (after_congr (Env.ofModule none m).head rfl (fun h => Bool.noConfusion h)
      (fun _ => rfl) h).trans ((faithful_after (some r) m).askedOf_eq rfl)
  rw [analyze_eq, analyze_eq, hsame]

/-- An analysis asks the resolver for no module twice, whatever the answers are, and what it says of
all other modules makes no difference. -/
theorem asked_once (resolver? : Option Resolver) (m : Module) :
    (analyze resolver? m).asked.Nodup ∧
      ∀ r, resolver? = some r → ∀ r' : Resolver,
        (∀ name ∈ (analyze resolver? m).asked, r'.find? name = r.find? name) →
          analyze (some r') m = analyze resolver? m := by
  have hfaithful := faithful_after resolver? m
  constructor
  · have hdistinct : (CheckState.after resolver? m).asked.Nodup := by
      rw [hfaithful.asked]
      split
      · exact hfaithful.distinct
      · exact List.nodup_nil
    rw [analyze_eq]
    exact (List.reverse_perm _).nodup_iff.2 hdistinct
  · rintro r rfl r' hanswers
    exact analyze_congr hanswers

/-- That a module is unknown is remembered too, also of the definition module that goes with this
one. -/
example : ((parseText "IMPLEMENTATION MODULE M;
    FROM Lib IMPORT T; IMPORT Lib; VAR a: T; b: Lib.T; c, d: Q.T; e, f: T2; END MODULE."
    .strict).toOption.map fun p => (analyze (some []) p.module).asked) =
      some ["Lib", "Q", "M"] := by
  decide +kernel

/-- Where a module imports nothing, a resolver that knows none of the modules that it is asked
for is as good as none. -/
theorem analyze_of_unknown {r : Resolver} {m : Module} (himports : m.imports = [])
    (h : ∀ name ∈ (analyze (some r) m).asked, r.find? name = none) :
    analyze none m = { analyze (some r) m with asked := [] } := by
  have hsame : CheckState.after none m = (CheckState.after (some r) m).askedOf none :=
    after_congr { (Env.ofModule none m).head with alone := true } rfl
      (fun _ => himports) (fun h => Bool.noConfusion h) fun name hname => (h name hname).symm
  rw [analyze_eq, hsame]
  rfl

end SimFront
