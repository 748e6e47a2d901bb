import SimFront.Proofs.Check.Composed
import SimFront.Proofs.Check.ModuleScopes
import SimFront.Proofs.Types.Parts

/-!
# What holds of declarations and bodies because it holds of their parts

`ComposesTypes head J` says of a property of steps that it passes on to the whole from the parts
that imports, declarations and bodies are made of.  Types are declared in several steps that
belong together, so a declaration of a type counts as one part; what goes on inside it is built
from smaller ones (`ComposesDecls`).  All of an analysis but the rules for object types is made
of such parts (`checkDeclared_composes`, `checkUses_composes`).
-/

namespace SimFront

/-- What holds of all symbols that are declared: types are copies, until they are filled in, and
copies hold no bare name. -/
structure Symbol.Admitted (s : Symbol) : Prop where
  type : s.kind = .type → s.isImported
  copy : s.isImported → s.type.IsQualified

/-- What another module exports is a copy. -/
theorem SymbolTable.admitted_of_exported {t : SymbolTable} {module name : String} {s : Symbol}
    (h : t.exported? module name = some s) : s.Admitted := by
  obtain ⟨original, -, rfl⟩ := Option.map_eq_some_iff.1 h
  exact ⟨fun _ => rfl, fun _ => original.type.isQualified_qualify module⟩

namespace Check

/-- The members of an object type are declared in a scope of their own, and that is noted. -/
def objectScope {α : Type} (owner? : Option Ident) (span : Span) (members : Check α) :
    Check α := do
  let r ← inScope .object span do
    let scope ← currentScope
    let a ← members
    pure (scope, a)
  noteObject owner? r.1
  pure r.2

/-- A step inside a routine with its parameters. -/
def routineScope (kind : ScopeKind) (span : Span) (params : List Param) (signature : Signature)
    (step : Check Unit) : Check Unit :=
  inScope kind span do
    let outs ← defineAllParams params signature.params
    inRoutine signature.result outs step

/-- A property of steps that is closed under what specifications of types are checked by. -/
structure ComposesDecls (head : ModuleHead) (J : (α : Type) → Check α → Prop) : Prop
    extends Composes head J where
  define {symbol : Symbol} : symbol.Admitted → J _ (define symbol)
  scope {α : Type} {kind : ScopeKind} {p : Check α} (span : Span) :
    kind = .record ∨ kind = .object → J α p → J α (inScope kind span p)
  object {α : Type} {p : Check α} (owner? : Option Ident) (span : Span) :
    J α p → J α (objectScope owner? span p)
  /-- The table, the reports, the object types that were noted and the OUT parameters stay as they
  are. -/
  aside {f : CheckState → CheckState} : ByName head (modify f) →
    (∀ s, (f s).table = s.table ∧ (f s).reports = s.reports ∧ (f s).objectDecls = s.objectDecls ∧
      (f s).outParams = s.outParams) → J Unit (modify f)

/-- A property of steps that is closed under what modules are checked by, up to the rules for
object types. -/
structure ComposesTypes (head : ModuleHead) (J : (α : Type) → Check α → Prop) : Prop
    extends ComposesDecls head J where
  type (d : TypeDecl) : J _ (declareType d)
  routine {kind : ScopeKind} {p : Check Unit} (span : Span) (params : List Param)
    (signature : Signature) : kind = .procedure ∨ kind = .method → J Unit p →
    J Unit (routineScope kind span params signature p)
  methodName (name : Ident) : J _ (checkMethodName name)
  implementedObject (name : Ident) : J _ (implementedObject name)
  pendingType (p : PendingType) : J _ (checkPendingType p)
  exported (e : Export) : J _ (checkExport e)

/-- A property of steps that is closed under what touches the state, and under what changes its
table. -/
structure ComposesParts (head : ModuleHead) (J : (α : Type) → Check α → Prop) : Prop
    extends ComposesTouches head J where
  define {symbol : Symbol} : symbol.Admitted → J _ (define symbol)
  enter (kind : ScopeKind) (span : Span) : J _ (modifyTable (·.enter kind span))
  leave : J _ (modifyTable (·.leave))
  /-- The table, the reports and the object types that were noted stay as they are. -/
  aside {f : CheckState → CheckState} : ByName head (modify f) →
    (∀ s, (f s).table = s.table ∧ (f s).reports = s.reports ∧ (f s).objectDecls = s.objectDecls) →
    J Unit (modify f)
  note (owner? : Option Ident) (scope : Nat) : J _ (noteObject owner? scope)

variable {head : ModuleHead} {J : (α : Type) → Check α → Prop}

/-! ## Type specifications -/

section Specs

variable (h : ComposesDecls head J)

include h

/-- A symbol of the module itself that is no type. -/
theorem ComposesDecls.plain {symbol : Symbol} (hkind : symbol.kind ≠ .type)
    (hown : symbol.origin? = none) : J _ (Check.define symbol) :=
  h.define ⟨fun htype => absurd htype hkind, fun himported => by
    rw [Symbol.isImported, hown] at himported
    cases himported⟩

/-- A symbol that stands for what is not known of another module. -/
theorem ComposesDecls.untyped {symbol : Symbol} (hkind : symbol.kind ≠ .type)
    (htype : symbol.type = .unknown) : J _ (Check.define symbol) :=
  h.define ⟨fun htype => absurd htype hkind, fun _ => htype ▸ Ty.isQualified_unknown⟩

theorem currentScope_composes : J _ currentScope := h.query currentScope_query

theorem typeOfName_composes (q : QualIdent) : J _ (typeOfName q) := by
  unfold typeOfName
  dsimp only
  split
  · exact h.pure _
  · exact h.bind (currentScope_composes h) fun scope =>
      h.bind (h.aside (.modify _ (fun _ _ _ => rfl) fun _ h => h) fun _ => ⟨rfl, rfl, rfl, rfl⟩)
        fun _ => h.pure _

theorem checkArrayIndex_composes (index : ArrayIndex) : J _ (checkArrayIndex index) := by
  cases index with
  | range low high span =>
    exact h.bind (checkValue_composes h.toComposes low) fun _ =>
      checkValue_composes h.toComposes high
  | type name => exact h.bind (typeOfName_composes h name) fun _ => h.pure _

theorem defineEnumValues_composes (owner? : Option Ident) (values : List Ident) :
    J _ (defineEnumValues owner? values) :=
  forM_composes h.toComposes (fun _ => h.bind (h.plain (by rintro ⟨⟩) rfl) fun _ => h.pure _) values

theorem defineFields_composes (owner? : Option Ident) (sect : SectionKind) (type : Ty)
    (names : List Ident) : J _ (defineFields owner? sect type names) := by
  induction names with
  | nil => exact h.pure _
  | cons n ns ih => exact h.bind (h.plain (by rintro ⟨⟩) rfl) fun _ => h.bind ih fun _ => h.pure _

theorem defineMethod_composes (owner? : Option Ident) (sect : SectionKind) (dispatch : Dispatch)
    (name : Ident) (signature : Signature) :
    J _ (defineMethod owner? sect dispatch name signature) :=
  h.bind (h.plain (by rintro ⟨⟩) rfl) fun _ => h.pure _

theorem mapM_composes {α β : Type} {f : α → Check β} (hf : ∀ a, J _ (f a)) (as : List α) :
    J _ (as.mapM f) := by
  induction as with
  | nil => exact h.pure []
  | cons a as ih =>
    rw [List.mapM_cons]
    exact h.bind (hf a) fun _ => h.bind ih fun _ => h.pure _

end Specs

mutual

theorem typeOfSpec_composes (h : ComposesDecls head J) (owner? : Option Ident) :
    ∀ spec : TypeSpec, J _ (typeOfSpec owner? spec)
  | .named name => by
    rw [typeOfSpec]
    exact typeOfName_composes h name
  | .array indices element _ => by
    rw [typeOfSpec]
    exact h.bind (forM_composes h.toComposes (checkArrayIndex_composes h) indices) fun _ =>
      h.bind (typeOfSpec_composes h none element) fun _ => h.pure _
  | .record fields span => by
    rw [typeOfSpec]
    exact h.bind (h.scope span (.inl rfl) (fieldsOf_composes h owner? .public_ fields))
      fun _ => h.pure _
  | .pointer target _ => by
    rw [typeOfSpec]
    exact h.bind (typeOfSpec_composes h none target) fun _ => h.pure _
  | .set element _ => by
    rw [typeOfSpec]
    exact h.bind (typeOfSpec_composes h none element) fun _ => h.pure _
  | .enum values _ => by
    rw [typeOfSpec]
    exact h.bind (defineEnumValues_composes h owner? values) fun _ => h.pure _
  | .subrange low high _ => by
    rw [typeOfSpec]
    exact h.bind (checkExpr_composes h.toComposes low) fun _ =>
      h.bind (checkValue_composes h.toComposes high) fun _ => h.pure _
  | .procedure params result _ => by
    rw [typeOfSpec]
    exact h.bind (paramsOf_composes h params) fun _ => h.bind (resultOf_composes h result) fun _ =>
      h.pure _
  | .object ⟨bases, sections, span⟩ => by
    rw [typeOfSpec]
    have members (baseTypes : List Ty) : J _ (do
        let r ← objectScope owner? span (sectionsOf owner? sections)
        pure (Ty.object ⟨baseTypes, Members.ofList r.1, Members.ofList r.2⟩)) :=
      h.bind (h.object owner? span (sectionsOf_composes h owner? sections)) fun _ => h.pure _
    exact h.bind (mapM_composes h (typeOfName_composes h) bases) members

theorem paramsOf_composes (h : ComposesDecls head J) : ∀ params : List Param, J _ (paramsOf params)
  | [] => by
    rw [paramsOf]
    exact h.pure _
  | ⟨mode, names, spec, _⟩ :: rest => by
    rw [paramsOf]
    exact h.bind (typeOfSpec_composes h none spec) fun _ =>
      h.bind (paramsOf_composes h rest) fun _ => h.pure _

theorem resultOf_composes (h : ComposesDecls head J) : ∀ spec? : Option TypeSpec,
    J _ (resultOf spec?)
  | none => by
    rw [resultOf]
    exact h.pure _
  | some spec => by
    rw [resultOf]
    exact h.bind (typeOfSpec_composes h none spec) fun _ => h.pure _

theorem fieldsOf_composes (h : ComposesDecls head J) (owner? : Option Ident) (sect : SectionKind) :
    ∀ fields : List FieldDecl, J _ (fieldsOf owner? sect fields)
  | [] => by
    rw [fieldsOf]
    exact h.pure _
  | ⟨names, spec, _⟩ :: rest => by
    rw [fieldsOf]
    exact h.bind (typeOfSpec_composes h none spec) fun type =>
      h.bind (defineFields_composes h owner? sect type names) fun _ =>
        h.bind (fieldsOf_composes h owner? sect rest) fun _ => h.pure _

theorem memberOf_composes (h : ComposesDecls head J) (owner? : Option Ident) (sect : SectionKind) :
    ∀ m : ObjectMember, J _ (memberOf owner? sect m)
  | .field ⟨names, spec, _⟩ => by
    rw [memberOf]
    exact h.bind (typeOfSpec_composes h none spec) fun type =>
      h.bind (defineFields_composes h owner? sect type names) fun _ => h.pure _
  | .method ⟨dispatch, name, params, result, _⟩ => by
    rw [memberOf]
    exact h.bind (paramsOf_composes h params) fun _ => h.bind (resultOf_composes h result) fun _ =>
      h.bind (defineMethod_composes h owner? sect dispatch name _) fun _ => h.pure _

theorem membersOf_composes (h : ComposesDecls head J) (owner? : Option Ident)
    (sect : SectionKind) : ∀ members : List ObjectMember, J _ (membersOf owner? sect members)
  | [] => by
    rw [membersOf]
    exact h.pure _
  | m :: rest => by
    rw [membersOf]
    exact h.bind (memberOf_composes h owner? sect m) fun _ =>
      h.bind (membersOf_composes h owner? sect rest) fun _ => h.pure _

theorem sectionsOf_composes (h : ComposesDecls head J) (owner? : Option Ident) :
    ∀ sections : List ObjectSection, J _ (sectionsOf owner? sections)
  | [] => by
    rw [sectionsOf]
    exact h.pure _
  | ⟨kind, members, _⟩ :: rest => by
    rw [sectionsOf]
    exact h.bind (membersOf_composes h owner? kind members) fun _ =>
      h.bind (sectionsOf_composes h owner? rest) fun _ => h.pure _

end

/-! ## Declarations -/

section Parts

variable (h : ComposesDecls head J)

include h

theorem signatureOf_composes (params : List Param) (result : Option TypeSpec) :
    J _ (signatureOf params result) :=
  h.bind (paramsOf_composes h params) fun _ =>
    h.bind (resultOf_composes h result) fun _ => h.pure _

theorem constType_composes (d : ConstDecl) : J _ (constType d) := by
  refine h.bind (checkExpr_composes h.toComposes d.value) fun value => ?_
  split
  · exact h.pure _
  · next spec _ =>
    refine h.bind (typeOfSpec_composes h none spec) fun declared =>
      h.bind (h.query (assignable_query declared value)) fun fits => ?_
    dsimp only
    split
    · exact h.pure _
    · exact h.bind (error_composes h.toComposes (by decide) _ _) fun _ => h.pure _

theorem declareConst_composes (d : ConstDecl) : J _ (declareConst d) :=
  h.bind (constType_composes h d) fun _ =>
    h.bind (h.plain (by rintro ⟨⟩) rfl) fun _ => h.pure _

theorem checkInit_composes (type : Ty) (init : Expr) : J _ (checkInit type init) := by
  refine h.bind (checkExpr_composes h.toComposes init) fun value =>
    h.bind (h.query (assignable_query type value)) fun fits => ?_
  split
  · exact h.pure _
  · exact error_composes h.toComposes (by decide) _ _

theorem declareVars_composes (d : VarDecl) : J _ (declareVars d) :=
  h.bind (typeOfSpec_composes h none d.type) fun type =>
    h.bind (optionForM_composes h.toComposes (checkInit_composes h type) d.init) fun _ =>
      forM_composes h.toComposes
        (fun _ => h.bind (h.plain (by rintro ⟨⟩) rfl) fun _ => h.pure _) d.names

theorem declareProcedure_composes (d : ProcDecl) : J _ (declareProcedure d) :=
  h.bind (signatureOf_composes h _ _) fun _ =>
    h.bind (h.aside (.modify _ (fun _ _ _ => rfl) fun _ h => h) fun _ => ⟨rfl, rfl, rfl, rfl⟩) fun _ =>
      h.bind (h.plain (by rintro ⟨⟩) rfl) fun _ => h.pure _

theorem defineParams_composes (mode : ParamMode) (names : List Ident) (types : List ParamType) :
    J _ (defineParams mode names types) := by
  induction names generalizing types with
  | nil => exact h.pure _
  | cons n ns ih => exact h.bind (h.plain (by rintro ⟨⟩) rfl) fun _ => h.bind (ih _) fun _ => h.pure _

theorem defineAllParams_composes (params : List Param) (types : List ParamType) :
    J _ (defineAllParams params types) := by
  induction params generalizing types with
  | nil => exact h.pure _
  | cons p rest ih =>
    obtain ⟨mode, names, spec, span⟩ := p
    exact h.bind (defineParams_composes h _ _ _) fun _ => h.bind (ih _) fun _ => h.pure _

end Parts

section Decls

variable (h : ComposesTypes head J)

include h

theorem declare_composes (d : Decl) : J _ (declare d) := by
  cases d with
  | type d => exact h.type d
  | const d => exact declareConst_composes h.toComposesDecls d
  | var d => exact declareVars_composes h.toComposesDecls d
  | procedure d => exact declareProcedure_composes h.toComposesDecls d
  | objectImpl d => exact h.pure _

theorem declareAll_composes (ds : List Decl) : J _ (declareAll ds) :=
  forM_composes h.toComposes (declare_composes h) ds

theorem checkPendingTypes_composes : J _ checkPendingTypes :=
  h.get fun _ => forM_composes h.toComposes h.pendingType _

/-! ## Imports -/

theorem otherModule_composes {source : Ident} (hname : source.name ≠ head.name) :
    J _ (otherModule source) := by
  refine h.read fun env henv =>
    h.bind (h.query (.ask fun heq => absurd heq hname)) fun table? => ?_
  dsimp only
  split
  · refine h.get fun s => ?_
    split
    · exact h.pure _
    · exact h.bind (h.aside (.modify _ (fun _ _ _ => rfl) fun _ h => h) fun _ => ⟨rfl, rfl, rfl, rfl⟩)
        fun _ => h.bind (warning_composes h.toComposes (by decide) _ _) fun _ => h.pure _
  · exact h.pure _

theorem importFrom_composes {source : Ident} {use : Option SymbolTable → Check Unit}
    (huse : source.name ≠ head.name → ∀ table?, J _ (use table?)) :
    J _ (importFrom source use) := by
  refine h.read fun env henv => ?_
  have hhead : env.moduleName = head.name := congrArg ModuleHead.name henv
  split
  · exact warning_composes h.toComposes (by decide) _ _
  · next hname =>
    rw [hhead] at hname
    exact h.bind (otherModule_composes h hname) fun table? => huse hname table?

theorem importModule_composes (halone : head.alone = false) (module : Ident) :
    J _ (importModule module) := by
  refine importFrom_composes h fun hname _ => h.get fun s => ?_
  split
  · exact h.pure _
  · exact h.bind (h.aside (addWholeImport_byName halone hname) fun _ => ⟨rfl, rfl, rfl, rfl⟩) fun _ =>
      h.bind (h.untyped (by rintro ⟨⟩) rfl) fun _ => h.pure _

theorem definePlaceholder_composes (name source : Ident) : J _ (definePlaceholder name source) := by
  refine h.bind (h.untyped (by rintro ⟨⟩) rfl) fun id? => ?_
  cases id? with
  | none => exact h.pure _
  | some id =>
    exact h.aside (.modify _ (fun _ _ _ => rfl) fun _ h => h) fun _ => ⟨rfl, rfl, rfl, rfl⟩

omit h in
theorem admitted_importedValue (source : SymbolTable) (module type : Ident) (value : String) :
    (importedValue source module type value).Admitted := by
  unfold importedValue
  split
  · next s hs =>
    have hs := source.admitted_of_exported hs
    exact ⟨hs.type, hs.copy⟩
  · exact ⟨fun _ => rfl, fun _ => Ty.isQualified_named _ _⟩

theorem importSymbol_composes (source : SymbolTable) (module : Ident) (item : ImportItem)
    {s : Symbol} (hs : s.Admitted) : J _ (importSymbol source module item s) := by
  refine h.bind (h.define ⟨hs.type, hs.copy⟩) fun _ => ?_
  split
  · exact forM_composes h.toComposes (fun v =>
      h.bind (h.define (admitted_importedValue source module item.name v)) fun _ => h.pure _) _
  · exact h.pure _

theorem importItem_composes (module : Ident) (table? : Option SymbolTable) (item : ImportItem) :
    J _ (importItem module table? item) := by
  cases table? with
  | none => exact definePlaceholder_composes h _ _
  | some source =>
    unfold importItem
    dsimp only
    split
    · next s hs =>
      exact importSymbol_composes h source module item (source.admitted_of_exported hs)
    · exact h.bind (warning_composes h.toComposes (by decide) _ _) fun _ =>
        definePlaceholder_composes h _ _

theorem importClause_composes (halone : head.alone = false) (i : Import) :
    J _ (importClause i) := by
  cases i with
  | names module items span =>
    exact importFrom_composes h fun _ table? =>
      forM_composes h.toComposes (importItem_composes h module table?) items
  | modules modules span =>
    exact forM_composes h.toComposes (importModule_composes h halone) modules

/-! ## Bodies -/

/-- The declarations and the body of a routine, in its scope. -/
theorem checkRoutine_composes {kind : ScopeKind} (hkind : kind = .procedure ∨ kind = .method)
    (span : Span) (params : List Param) (signature : Signature) (locals : List Decl)
    {bodies : Check Unit} (hbodies : J _ bodies) (body : List Stmt) :
    J _ (inScope kind span (checkRoutine params signature locals bodies body)) :=
  h.routine span params signature hkind <| h.bind (declareAll_composes h locals) fun _ =>
    h.bind hbodies fun _ => checkBlock_composes h.toComposes body

theorem inObject_composes (o? : Option ResolvedObject) (span : Span) {step : Check Unit}
    (hstep : J _ step) : J _ (inObject o? span step) := by
  have inside (resolved : Bool) : J _ (inScope .object span do
      let context : ObjectContext := ⟨← currentScope, o?, resolved⟩
      withReader (fun env => { env with objects := context :: env.objects }) step) :=
    h.scope span (.inr rfl) <| h.bind (currentScope_composes h.toComposesDecls)
      fun _ => h.withReader _ (fun _ => rfl) (fun _ => rfl) hstep
  cases o? with
  | none => exact h.bind (h.pure false) inside
  | some o => exact h.bind (h.search ⟨chainResolved_still o, chainResolved_touches o⟩) inside

end Decls

mutual

theorem checkBodyOf_composes (h : ComposesTypes head J) : ∀ d : Decl, J _ (checkBodyOf d)
  | .procedure ⟨heading, locals, body, isForward, span⟩ => by
    rw [checkBodyOf]
    split
    · exact h.pure _
    · exact h.get fun _ =>
        checkRoutine_composes h (.inl rfl) span _ _ locals (checkBodies_composes h locals) _
  | .objectImpl ⟨name, methods, span⟩ => by
    rw [checkBodyOf]
    exact h.bind (h.implementedObject name) fun o? =>
      inObject_composes h o? span (checkMethods_composes h methods)
  | .type _ | .const _ | .var _ => by
    rw [checkBodyOf]
    exact h.pure _

theorem checkBodies_composes (h : ComposesTypes head J) : ∀ ds : List Decl, J _ (checkBodies ds)
  | [] => by
    rw [checkBodies]
    exact h.pure _
  | d :: ds => by
    rw [checkBodies]
    exact h.bind (checkBodyOf_composes h d) fun _ => checkBodies_composes h ds

theorem checkMethods_composes (h : ComposesTypes head J) : ∀ methods : List MethodImpl,
    J _ (checkMethods methods)
  | [] => by
    rw [checkMethods]
    exact h.pure _
  | ⟨heading, locals, body, span⟩ :: rest => by
    rw [checkMethods]
    exact h.bind (h.methodName _) fun _ =>
      h.bind (signatureOf_composes h.toComposesDecls _ _) fun _ =>
        h.bind (checkRoutine_composes h (.inr rfl) span _ _ locals (checkBodies_composes h locals) _)
          fun _ => checkMethods_composes h rest

end

section Modules

variable (h : ComposesTypes head J)

include h

/-! ## Modules -/

theorem checkDeclared_composes (halone : head.alone = false) (m : Module) :
    J _ (checkDeclared m) := by
  have front : J _ (checkFront m) := h.bind (h.plain (by rintro ⟨⟩) rfl) fun _ =>
    forM_composes h.toComposes (importClause_composes h halone) m.imports
  exact h.bind front fun _ => h.bind (declareAll_composes h m.decls) fun _ =>
    checkBodies_composes h m.decls

theorem checkUses_composes (m : Module) : J _ (checkUses m) :=
  h.bind (optionForM_composes h.toComposes (checkBlock_composes h.toComposes) m.body) fun _ =>
    h.bind (forM_composes h.toComposes h.exported m.exports) fun _ =>
      checkPendingTypes_composes h

end Modules

/-! ## Properties of smaller parts -/

section Parts

variable (h : ComposesParts head J)

include h

theorem inScope_composes {α : Type} (kind : ScopeKind) (span : Span) {step : Check α}
    (hstep : J _ step) : J _ (inScope kind span step) :=
  h.bind (h.enter kind span) fun _ => h.bind hstep fun _ => h.bind h.leave fun _ => h.pure _

theorem ComposesParts.decls : ComposesDecls head J where
  toComposes := h.composes
  define := h.define
  scope span _ hp := inScope_composes h _ span hp
  object owner? span hp := by
    refine h.bind (inScope_composes h .object span ?_) fun r =>
      h.bind (h.note owner? r.1) fun _ => h.pure _
    exact h.bind (h.query currentScope_query) fun _ => h.bind hp fun _ => h.pure _
  aside hname hf := h.aside hname fun s => ⟨(hf s).1, (hf s).2.1, (hf s).2.2.1⟩

theorem checkPendingType_composes (p : PendingType) : J _ (checkPendingType p) := by
  refine h.bind (h.query (lookup_query p.module? p.name p.scope)) fun found => ?_
  cases found with
  | found b =>
    refine h.bind (h.query (isPlaceholder_query b)) fun placeholder => ?_
    split
    · exact h.pure _
    · refine h.bind (h.query (bindingSymbol?_query b)) fun s? => ?_
      cases s? with
      | none => exact h.pure _
      | some s =>
        dsimp only
        split
        · split
          · exact h.touch (referIn_touches (fun _ => p.scope) _ p.span)
          · exact h.pure _
        · exact h.error (by decide) _ _
  | unknowable => exact h.pure _
  | missing => exact h.error (by decide) _ _

theorem inRoutine_composes (result? : Option Ty) (outs : List Nat) {step : Check Unit}
    (hstep : J _ step) : J _ (inRoutine result? outs step) := by
  have outParams (f : CheckState → List (Nat × OutState))
      (hf : ∀ s ms as, f { s with modules := ms, asked := as } = f s) :
      J _ (modify fun s => { s with outParams := f s } : Check Unit) :=
    h.aside (.modify _ (fun s ms as => by rw [hf]) fun _ h => h) fun _ => ⟨rfl, rfl, rfl⟩
  exact h.get fun around => h.bind (outParams _ fun _ _ _ => rfl) fun _ =>
    h.bind (h.withReader _ (fun _ => rfl) (fun _ => rfl) hstep) fun _ =>
      h.bind (reportAllUnused_composes h.toComposesTouches) fun _ =>
        outParams (fun _ => around.outParams) fun _ _ _ => rfl

theorem checkMethodName_composes (name : Ident) : J _ (checkMethodName name) := by
  refine h.read fun env henv => ?_
  split
  · exact h.pure _
  · split
    · split
      · refine h.bind (h.query (memberSymbol?_query _ _)) fun id? => ?_
        cases id? with
        | none => exact h.pure _
        | some id => exact refer_composes h.toComposesTouches id _
      · exact h.pure _
    · exact h.error (by decide) _ _

theorem implementedObject_composes (name : Ident) : J _ (implementedObject name) := by
  refine h.bind (h.query (findObject_query none name.name)) fun o? => ?_
  extract_lets _ rest
  have referred (done : Unit) : J _ (rest done) := by
    refine h.bind (h.query table_query) fun t => ?_
    split
    · split
      · exact h.bind (refer_composes h.toComposesTouches _ _) fun _ => h.pure _
      · exact h.pure _
    · exact h.pure _
  split
  · refine h.bind (h.query suppressUnknown_query) fun suppressed => ?_
    split
    · exact referred ()
    · exact h.bind ((h.error (by decide) _ _)) referred
  · exact referred ()

theorem checkExport_composes (e : Export) : J _ (checkExport e) := by
  refine forM_composes h.composes (fun n => h.bind (h.query table_query) fun t => ?_) e.names
  split
  · exact refer_composes h.toComposesTouches _ _
  · exact h.error (by decide) _ _

theorem ComposesParts.types (htype : ∀ d, J _ (declareType d)) : ComposesTypes head J where
  toComposesDecls := h.decls
  type := htype
  routine span params _ _ hp := inScope_composes h _ span <|
    h.bind (defineAllParams_composes h.decls params _) fun outs => inRoutine_composes h _ outs hp
  methodName := checkMethodName_composes h
  implementedObject := implementedObject_composes h
  pendingType := checkPendingType_composes h
  exported := checkExport_composes h

end Parts

end Check

end SimFront
