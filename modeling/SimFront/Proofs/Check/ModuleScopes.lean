import SimFront.Proofs.Check.Scopes

/-!
# Which scopes the analysis of a module opens

One lemma for each step of the checks of declarations, bodies and imports.  The table of an
analysis can be built, it shows the scopes of the module as it is written
(`shows_after`), and without a resolver its types are the module's own (`ownTypes_after`).
It declares nothing behind the bodies of its declarations (`table_after`).
-/

namespace SimFront.Check

variable {head : ModuleHead} {resolver? : Option Resolver} {F : List ScopeTree}

/-! ## Declarations -/

theorem declareType_opens (d : TypeDecl) :
    Opens head resolver? (Decl.type d).headScopes (declareType d) := by
  have hscopes : (Decl.type d).headScopes = (Node.typeSpec d.type).scopes := by
    show (Node.decl (.type d)).scopes = _
    rw [Node.scopes_through rfl rfl, Node.children, Node.childrenOfDecl, List.flatMap_cons,
      Node.scopes_of_isPlain (n := .ident d.name) rfl, List.nil_append, List.flatMap_singleton]
  rw [hscopes]
  refine (define_opens fun _ _ => rfl).after fun id? =>
    (typeOfSpec_opens (some d.name) d.type).then fun type => ?_
  cases id? with
  | none => exact .pure _
  | some id => exact retype_opens id type

theorem declareConst_opens (d : ConstDecl) :
    Opens head resolver? (Decl.const d).headScopes (declareConst d) := by
  have hscopes : (Decl.const d).headScopes =
      (d.type.toList.map Node.typeSpec).flatMap Node.scopes := by
    show (Node.decl (.const d)).scopes = _
    rw [Node.scopes_through rfl rfl, Node.children, Node.childrenOfDecl, List.flatMap_cons,
      Node.scopes_of_isPlain (n := .ident d.name) rfl, List.nil_append, List.flatMap_append,
      List.flatMap_singleton, Node.scopes_of_isPlain (n := .expr d.value) rfl, List.append_nil]
  have typed : Opens head resolver? ((d.type.toList.map Node.typeSpec).flatMap Node.scopes)
      (constType d) := by
    refine (checkExpr_opens d.value).after fun value => ?_
    cases d.type with
    | none => exact .pure _
    | some spec =>
      rw [Option.toList_some, List.map_singleton, List.flatMap_singleton]
      refine (typeOfSpec_opens none spec).then fun declared =>
        (assignable_query declared value).opens.then fun fits => ?_
      dsimp only
      split
      · exact .pure _
      · exact (report_opens _).then fun _ => .pure _
  rw [hscopes]
  exact typed.then fun _ => (define_opens_of_kind (by rintro ⟨⟩)).then fun _ => .pure _

theorem checkInit_opens (type : Ty) (init : Expr) :
    Opens head resolver? [] (checkInit type init) := by
  refine (checkExpr_opens init).then fun value =>
    (assignable_query type value).opens.then fun fits => ?_
  split
  · exact .pure _
  · exact report_opens _

theorem declareVars_opens (d : VarDecl) :
    Opens head resolver? (Decl.var d).headScopes (declareVars d) := by
  have hscopes : (Decl.var d).headScopes = (Node.typeSpec d.type).scopes := by
    show (Node.decl (.var d)).scopes = _
    rw [Node.scopes_through rfl rfl, Node.children, Node.childrenOfDecl,
      Node.flatMap_scopes_map (fun _ => rfl), List.flatMap_cons,
      Node.flatMap_scopes_of_isPlain (List.forall_mem_map.2 fun _ _ => rfl), List.append_nil]
  rw [hscopes]
  exact (typeOfSpec_opens none d.type).then fun type =>
    (optionForM_opens_nothing (checkInit_opens type) d.init).then fun _ =>
      forM_opens_nothing
        (fun _ => (define_opens_of_kind (by rintro ⟨⟩)).then fun _ => .pure _) d.names

theorem declareProcedure_opens (d : ProcDecl) :
    Opens head resolver? (Decl.procedure d).headScopes (declareProcedure d) := by
  have kept (signature : Signature) : Opens head resolver? [] (modify fun s => { s with
      signatures := (d.heading.span.start.offset, signature) :: s.signatures } : Check Unit) :=
    ByName.opens (.modify _ (fun _ _ _ => rfl) fun _ h => h) fun _ _ => rfl
  rw [Decl.headScopes, Node.scopes_procHeading]
  exact (signatureOf_opens _ _).then fun signature => (kept signature).then fun _ =>
    (define_opens_of_kind (by rintro ⟨⟩)).then fun _ => .pure _

theorem declare_opens (d : Decl) : Opens head resolver? d.headScopes (declare d) := by
  cases d with
  | type d => exact declareType_opens d
  | const d => exact declareConst_opens d
  | var d => exact declareVars_opens d
  | procedure d => exact declareProcedure_opens d
  | objectImpl d => exact .pure _

theorem declareAll_opens (ds : List Decl) :
    Opens head resolver? (ds.flatMap Decl.headScopes) (declareAll ds) := forM_opens declare_opens ds

/-! ## Bodies -/

theorem defineParams_opens (mode : ParamMode) (names : List Ident) (types : List ParamType) :
    Opens head resolver? [] (defineParams mode names types) := by
  induction names generalizing types with
  | nil => exact .pure _
  | cons n ns ih =>
    exact (define_opens_of_kind (by rintro ⟨⟩)).then fun _ => (ih _).then fun _ => .pure _

theorem defineAllParams_opens (params : List Param) (types : List ParamType) :
    Opens head resolver? [] (defineAllParams params types) := by
  induction params generalizing types with
  | nil => exact .pure _
  | cons p rest ih =>
    obtain ⟨mode, names, spec, span⟩ := p
    exact (defineParams_opens _ _ _).then fun _ => (ih _).then fun _ => .pure _

theorem inRoutine_opens (result? : Option Ty) (outs : List Nat) {step : Check Unit}
    (h : Opens head resolver? F step) : Opens head resolver? F (inRoutine result? outs step) := by
  have outParams (around : List (Nat × OutState)) :
      Opens head resolver? [] (modify fun s => { s with outParams := around } : Check Unit) :=
    ByName.opens (.modify _ (fun _ _ _ => rfl) fun _ h => h) fun _ _ => rfl
  have inside : Opens head resolver? F
      (withReader (fun env => { env with routine? := some result? }) step) :=
    .withReader (fun _ => rfl) (fun _ => rfl) h
  exact .get fun s => (outParams _).after fun _ => inside.then fun _ =>
    reportAllUnused_still.opens.then fun _ => outParams _

theorem checkRoutine_opens (params : List Param) (signature : Signature) (locals : List Decl)
    {bodies : Check Unit} (h : Opens head resolver? (Decl.allBodyScopes locals) bodies)
    (body : List Stmt) : Opens head resolver? (Decl.blockScopes locals)
      (checkRoutine params signature locals bodies body) := by
  have inside : Opens head resolver? (Decl.blockScopes locals) (do
      declareAll locals
      bodies
      checkBlock body) :=
    (declareAll_opens locals).seq fun _ => h.then fun _ => checkBlock_opens body
  exact (defineAllParams_opens params _).after fun outs => inRoutine_opens _ outs inside

theorem refer_opens (id : Nat) (span : Span) : Opens head resolver? [] (refer id span) :=
  (refer_touches id span).opens

theorem checkMethodName_opens (name : Ident) : Opens head resolver? [] (checkMethodName name) := by
  refine .read fun env => ?_
  split
  · exact .pure _
  · split
    · split
      · refine (memberSymbol?_query _ name.name).opens.then fun id? => ?_
        cases id? with
        | none => exact .pure _
        | some id => exact refer_opens id _
      · exact .pure _
    · exact report_opens _

theorem implementedObject_opens (name : Ident) :
    Opens head resolver? [] (implementedObject name) := by
  refine (findObject_query none name.name).opens.then fun o? => ?_
  extract_lets _ rest
  have referred (done : Unit) : Opens head resolver? [] (rest done) := by
    refine table_query.opens.then fun t => ?_
    split
    · split
      · exact (refer_opens _ _).then fun _ => .pure _
      · exact .pure _
    · exact .pure _
  split
  · refine suppressUnknown_query.opens.then fun suppressed => ?_
    split
    · exact referred ()
    · exact (report_opens _).then referred
  · exact referred ()

theorem inObject_opens (o? : Option ResolvedObject) (span : Span) {step : Check Unit}
    (h : Opens head resolver? F step) :
    Opens head resolver? [.node span F] (inObject o? span step) := by
  have inside (resolved : Bool) : Opens head resolver? F (do
      let context : ObjectContext := ⟨← currentScope, o?, resolved⟩
      withReader (fun env => { env with objects := context :: env.objects }) step) :=
    currentScope_query.opens.after fun _ => Opens.withReader (fun _ => rfl) (fun _ => rfl) h
  cases o? with
  | none => exact (Opens.pure false).after fun _ => inScope_opens _ _ (inside _)
  | some o => exact (chainResolved_still o).opens.after fun _ => inScope_opens _ _ (inside _)

mutual

theorem checkBodyOf_opens : ∀ d : Decl, Opens head resolver? d.bodyScopes (checkBodyOf d)
  | .procedure ⟨heading, locals, body, isForward, span⟩ => by
    rw [checkBodyOf, Decl.bodyScopes]
    split
    · exact .pure _
    · exact .get fun s => inScope_opens .procedure span
        (checkRoutine_opens _ _ _ (checkBodies_opens locals) body)
  | .objectImpl ⟨name, methods, span⟩ => by
    rw [checkBodyOf, Decl.bodyScopes]
    exact (implementedObject_opens name).after fun o? =>
      inObject_opens o? span (checkMethods_opens methods)
  | .type _ | .const _ | .var _ => by
    rw [checkBodyOf, Decl.bodyScopes]
    exact .pure _

theorem checkBodies_opens : ∀ ds : List Decl,
    Opens head resolver? (Decl.allBodyScopes ds) (checkBodies ds)
  | [] => by
    rw [checkBodies, Decl.allBodyScopes]
    exact .pure _
  | d :: ds => by
    rw [checkBodies, Decl.allBodyScopes]
    exact (checkBodyOf_opens d).seq fun _ => checkBodies_opens ds

theorem checkMethods_opens : ∀ methods : List MethodImpl,
    Opens head resolver? (Decl.allMethodScopes methods) (checkMethods methods)
  | [] => by
    rw [checkMethods, Decl.allMethodScopes]
    exact .pure _
  | ⟨heading, locals, body, span⟩ :: rest => by
    rw [checkMethods, Decl.allMethodScopes, Decl.methodScopes, Node.scopes_methodHeading,
      List.append_assoc]
    exact (checkMethodName_opens heading.name).after fun _ =>
      (signatureOf_opens heading.params heading.result).seq fun signature =>
        (inScope_opens .method span
          (checkRoutine_opens _ _ _ (checkBodies_opens locals) body)).seq fun _ =>
          checkMethods_opens rest

end

/-! ## Imports -/

/-- Without a resolver no module is found. -/
theorem otherModule_none {env : Env} {s : CheckState} (hs : s.Faithful env)
    (hresolver : env.resolver? = none) (source : Ident) :
    ((otherModule source).outcome env s).1 = none := by
  have hvalue : ((moduleTable? source.name).outcome env s).1 = none := by
    rw [moduleTable?_value hs, Env.answer, hresolver]
    rfl
  unfold otherModule
  rw [outcome_read, outcome_bind, hvalue, hresolver]
  rfl

theorem importFrom_opens {source : Ident} {use : Option SymbolTable → Check Unit}
    (huse : source.name ≠ head.name → ∀ table?, (resolver? = none → table? = none) →
      Opens head resolver? [] (use table?)) :
    Opens head resolver? [] (importFrom source use) := by
  intro env s henv hresolver hs
  subst henv
  unfold importFrom
  rw [outcome_read]
  split
  · exact report_opens _ env s rfl hresolver hs
  · next hname =>
    have hstill : Still env.head (otherModule source) := otherModule_still hname
    obtain ⟨hopened, hfaithful⟩ := hstill.opens env s rfl hresolver hs
    obtain ⟨hopened', hfaithful'⟩ := huse hname ((otherModule source).outcome env s).1
      (fun hnone => otherModule_none hs (hresolver.trans hnone) source) env _ rfl hresolver
      hfaithful
    exact ⟨hopened.seq hopened', hfaithful'⟩

theorem importModule_opens (module : Ident) : Opens head resolver? [] (importModule module) := by
  refine importFrom_opens fun hname _ _ => .get fun s => ?_
  split
  · exact .pure _
  · have noted : Opens head resolver? [] (modify fun s => { s with
        wholeImports := s.wholeImports ++ [module.name] } : Check Unit) := by
      rintro env s rfl hresolver hs
      exact (addWholeImport_byName rfl hname).opens (fun _ _ => rfl) env s rfl hresolver hs
    exact noted.then fun _ => (define_opens_of_kind (by rintro ⟨⟩)).then fun _ => .pure _

theorem definePlaceholder_opens (name source : Ident) :
    Opens head resolver? [] (definePlaceholder name source) := by
  refine (define_opens_of_kind (by rintro ⟨⟩)).then fun id? => ?_
  cases id? with
  | none => exact .pure _
  | some id => exact ByName.opens (.modify _ (fun _ _ _ => rfl) fun _ h => h) fun _ _ => rfl

theorem importSymbol_opens (hresolver : resolver? ≠ none) (source : SymbolTable) (module : Ident)
    (item : ImportItem) (s : Symbol) :
    Opens head resolver? [] (importSymbol source module item s) := by
  have hown (symbol : Symbol) : OwnType resolver? symbol := fun hnone => absurd hnone hresolver
  refine (define_opens (hown _)).then fun _ => ?_
  split
  · exact forM_opens_nothing (fun _ => (define_opens (hown _)).then fun _ => .pure _) _
  · exact .pure _

theorem importItem_opens (module : Ident) {table? : Option SymbolTable}
    (htable : resolver? = none → table? = none) (item : ImportItem) :
    Opens head resolver? [] (importItem module table? item) := by
  cases table? with
  | none => exact definePlaceholder_opens item.localName module
  | some source =>
    have hresolver : resolver? ≠ none := fun hnone => nomatch htable hnone
    unfold importItem
    dsimp only
    split
    · exact importSymbol_opens hresolver source module item _
    · exact (report_opens _).then fun _ => definePlaceholder_opens item.localName module

theorem importClause_opens (i : Import) : Opens head resolver? [] (importClause i) := by
  cases i with
  | names module items span =>
    exact importFrom_opens fun _ table? htable =>
      forM_opens_nothing (importItem_opens module htable) items
  | modules modules span => exact forM_opens_nothing importModule_opens modules

/-! ## Modules -/

theorem checkExport_touches (e : Export) :
    Touches (Standing.plain head fun _ => True) (checkExport e) := by
  refine forM_touches fun n _ => table_query.touches.bind fun t => ?_
  split
  · exact refer_touches _ _
  · exact error_touches trivial _ _

/-- The check of a module up to the bodies of its declarations. -/
def checkDeclared (m : Module) : Check Unit := do
  checkFront m
  declareAll m.decls
  checkBodies m.decls

/-- The check of a module behind its object types. -/
def checkUses (m : Module) : Check Unit := do
  m.body.forM checkBlock
  m.exports.forM checkExport
  checkPendingTypes

theorem checkFront_opens (m : Module) : Opens head resolver? [] (checkFront m) :=
  (define_opens_of_kind (by rintro ⟨⟩)).then fun _ =>
    forM_opens_nothing importClause_opens m.imports

theorem checkDeclared_opens (m : Module) :
    Opens head resolver? (Decl.blockScopes m.decls) (checkDeclared m) :=
  (checkFront_opens m).after fun _ =>
    (declareAll_opens m.decls).seq fun _ => checkBodies_opens m.decls

theorem checkUses_touches (m : Module) :
    Touches (Standing.plain head fun _ => True) (checkUses m) :=
  (optionForM_touches fun body _ => checkBlock_touches (.none _) body fun _ _ => covers_all _).bind
    fun _ => (forM_touches fun e _ => checkExport_touches e).bind fun _ =>
      .get fun _ => forM_touches fun _ _ => checkPendingType_touches trivial

theorem checkModule_opens (m : Module) :
    Opens head resolver? (Decl.blockScopes m.decls) (checkModule m) :=
  (checkDeclared_opens m).then fun _ => checkObjectTypes_still.opens.then fun _ =>
    (checkUses_touches m).opens

end SimFront.Check

namespace SimFront

open SymbolTable (Opened)

/-- An analysis opens the scopes of the declarations of its module below the one that it starts
with. -/
theorem opened_after (resolver? : Option Resolver) (m : Module) :
    Opened (resolver? = none) (Decl.blockScopes m.decls) (CheckState.ofModule m).table
      (CheckState.after resolver? m).table :=
  (Check.checkModule_opens m _ _ rfl rfl (faithful_ofModule resolver? m)).1

/-- The table of an analysis is one that can be built. -/
theorem reachable_after (resolver? : Option Resolver) (m : Module) :
    (CheckState.after resolver? m).table.Reachable ∧
      (CheckState.after resolver? m).table.current = SymbolTable.root := by
  obtain ⟨hbuilt, -, hcurrent⟩ := (opened_after resolver? m).reachable (.new m.name.name m.span)
  exact ⟨hbuilt, hcurrent⟩

/-- The table of an analysis shows the scopes of the module. -/
theorem shows_after (resolver? : Option Resolver) (m : Module) :
    (CheckState.after resolver? m).table.Shows m.scopeTree SymbolTable.root := by
  obtain ⟨cs, hopened⟩ := (opened_after resolver? m).shows (.new m.name.name m.span)
  obtain ⟨sc, hsc, hspan, -⟩ := hopened.keeps SymbolTable.root _ rfl
  refine ⟨⟨sc, hsc, hspan⟩, ?_⟩
  have hroot : (CheckState.after resolver? m).table.children SymbolTable.root = cs :=
    hopened.children
  rw [hroot]
  exact hopened.shows

/-- The state in which the declarations of a module and their bodies were gone through. -/
def CheckState.declared (resolver? : Option Resolver) (m : Module) : CheckState :=
  ((Check.checkDeclared m).outcome (.ofModule resolver? m) (.ofModule m)).2

/-- From then on the analysis of a module records uses in the table, and nothing else. -/
theorem table_after (resolver? : Option Resolver) (m : Module) :
    (CheckState.after resolver? m).table =
      { (CheckState.declared resolver? m).table with
        references := (CheckState.after resolver? m).table.references } := by
  have hdeclared : (CheckState.declared resolver? m).Faithful (.ofModule resolver? m) :=
    (Check.checkDeclared_opens m _ _ rfl rfl (faithful_ofModule resolver? m)).2
  obtain ⟨⟨htable, -⟩, hfaithful, -⟩ := Check.checkObjectTypes_still _ _ rfl hdeclared
  obtain ⟨rs, hrs, -⟩ := (Check.checkUses_touches m _ _ ⟨rfl, hfaithful⟩).1.table
  have hafter : (CheckState.after resolver? m).table =
      { (CheckState.declared resolver? m).table with references := rs } := by
    rw [← htable]
    exact hrs
  rw [hafter]

/-- Without a resolver all types in the table of an analysis are the module's own. -/
theorem ownTypes_after (m : Module) {id : Nat} {s : Symbol}
    (hs : (CheckState.after none m).table.symbol? id = some s) (hkind : s.kind = .type) :
    s.origin? = none :=
  (opened_after none m).own rfl (fun _ _ h => nomatch h) id s hs hkind

end SimFront
