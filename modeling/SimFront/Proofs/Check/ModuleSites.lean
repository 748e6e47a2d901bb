import Mathlib.Tactic.Abel
import SimFront.Proofs.Check.Sites

/-!
# Sites of declarations, bodies and whole modules

One lemma for each step of the checks of declarations, bodies and imports.  A declaration
is checked twice, for what it brings in (`headNodes`) and for the bodies in it
(`bodyNodes`); the two share no node (`decl_split`).  The check of a whole module records
at the nodes of the module, and at last once more at the type names that were put off
(`recorded_after`).
-/

namespace SimFront.Check

open CheckState (Quiet Recorded)
open Node (all)

variable {head : ModuleHead}

/-! ## Declarations -/

/-- What is checked when a declaration brings in its names. -/
def headNodes : Decl → List Node
  | .procedure d =>
    .ident d.heading.name :: (typeNodes d.heading.params ++ d.heading.result.toList.map .typeSpec)
  | .objectImpl _ => []
  | d => Node.childrenOfDecl d

/-- What is checked in the scope of a routine. -/
def routineNodes (params : List Param) (locals : List Decl) (body : List Stmt) : List Node :=
  nameNodes params ++ (locals.map .decl ++ body.map .stmt)

/-- What is checked when the bodies in a declaration are. -/
def bodyNodes : Decl → Multiset Node
  | .procedure d => .decl (.procedure d) ::ₘ all (routineNodes d.heading.params d.locals d.body)
  | .objectImpl d => all [.decl (.objectImpl d)]
  | _ => 0

/-- A heading and the scope of its routine share no node. -/
theorem routine_split {n c : Node} {name : Ident} {params : List Param}
    {result : List Node} {locals : List Decl} {body : List Stmt}
    (hn : n.children = c :: (locals.map .decl ++ body.map .stmt))
    (hc : c.children = .ident name :: (params.map .param ++ result)) :
    all (.ident name :: (typeNodes params ++ result)) +
      (n ::ₘ all (routineNodes params locals body)) ≤ all [n] := by
  obtain ⟨others, hparams⟩ := Multiset.le_iff_exists_add.1 (params_split params)
  refine Multiset.le_iff_exists_add.2 ⟨{c} + others, ?_⟩
  have htree : all [n] = {n} + ({c} + (all [.ident name] + (all (params.map .param) +
      all result)) + (all (locals.map .decl) + all (body.map .stmt))) := by
    rw [Node.all_singleton, hn, Node.all_cons, Node.all_singleton c, hc, Node.all_cons]
    simp only [Node.all_append, Multiset.singleton_add]
  rw [htree, hparams, Node.all_cons (.ident name) (_ ++ _)]
  unfold routineNodes
  simp only [Node.all_append, ← Multiset.singleton_add]
  abel

theorem decl_split (d : Decl) : all (headNodes d) + bodyNodes d ≤ all [.decl d] := by
  have plain {d : Decl} (hhead : headNodes d = Node.childrenOfDecl d) (hbody : bodyNodes d = 0) :
      all (headNodes d) + bodyNodes d ≤ all [.decl d] := by
    rw [hhead, hbody, add_zero, Node.all_singleton]
    exact Multiset.le_cons_self _ _
  cases d with
  | procedure d => exact routine_split (c := .procHeading d.heading) rfl rfl
  | objectImpl d => exact le_of_eq (zero_add _)
  | type d => exact plain rfl rfl
  | const d => exact plain rfl rfl
  | var d => exact plain rfl rfl

theorem decls_split (ds : List Decl) :
    all (ds.flatMap headNodes) + (ds.map bodyNodes).sum ≤ all (ds.map .decl) := by
  induction ds with
  | nil => exact le_of_eq rfl
  | cons d ds ih =>
    rw [List.flatMap_cons, Node.all_append, List.map_cons, List.sum_cons, List.map_cons,
      Node.all_cons, add_add_add_comm]
    exact add_le_add (decl_split d) ih

theorem declareType_records (d : TypeDecl) :
    Records head (all (headNodes (.type d))) (declareType d) := by
  refine (define_records rfl rfl).seq fun id? => ?_
  rw [← add_zero (all [_])]
  refine (typeOfSpec_records (some d.name) d.type).bind fun type => ?_
  cases id? with
  | none => exact .pure _
  | some id => exact retype_records id type

theorem constType_records (d : ConstDecl) :
    Records head (all (d.type.toList.map .typeSpec ++ [.expr d.value])) (constType d) := by
  have typed : Records head (all ([.expr d.value] ++ d.type.toList.map .typeSpec)) (constType d) := by
    refine (checkExpr_records d.value).seq fun value => ?_
    cases d.type with
    | none => exact .pure _
    | some spec =>
      refine (typeOfSpec_records none spec).then fun declared =>
        Still.bind (assignable_query declared value).still fun fits => ?_
      dsimp only
      split
      · exact .nothing _
      · exact Still.bind (error_still _ _ _) fun _ => .nothing _
  exact typed.perm List.perm_append_comm

theorem declareConst_records (d : ConstDecl) :
    Records head (all (headNodes (.const d))) (declareConst d) := by
  have declared : Records head (all ((d.type.toList.map .typeSpec ++ [.expr d.value]) ++
      [.ident d.name])) (declareConst d) :=
    (constType_records d).seq fun _ => (define_records rfl rfl).then fun _ => .nothing _
  exact declared.perm List.perm_append_comm

theorem checkInit_records (type : Ty) (init : Expr) :
    Records head (all [.expr init]) (checkInit type init) := by
  refine (checkExpr_records init).then fun value =>
    Still.bind (assignable_query type value).still fun fits => ?_
  split
  · exact .nothing _
  · exact error_still _ _ _

theorem declareVars_records (d : VarDecl) :
    Records head (all (headNodes (.var d))) (declareVars d) := by
  have declared : Records head (all ((.typeSpec d.type :: d.init.toList.map .expr) ++
      d.names.map .ident)) (declareVars d) :=
    (typeOfSpec_records none d.type).seq fun type =>
      (optionForM_records (checkInit_records type) d.init).seq fun _ =>
        forM_map_records (fun _ => (define_records rfl rfl).then fun _ => .nothing _) d.names
  exact declared.perm List.perm_append_comm

theorem declareProcedure_records (d : ProcDecl) :
    Records head (all (headNodes (.procedure d))) (declareProcedure d) := by
  have kept (signature : Signature) : Still head (modify fun s => { s with
      signatures := (d.heading.span.start.offset, signature) :: s.signatures } : Check Unit) :=
    ByName.still (.modify _ (fun _ _ _ => rfl) fun _ h => h) fun _ _ => ⟨rfl, rfl⟩
  have declared : Records head (all ((typeNodes d.heading.params ++
      d.heading.result.toList.map .typeSpec) ++ [.ident d.heading.name])) (declareProcedure d) :=
    (signatureOf_records _ _).seq fun signature => (kept signature).after fun _ =>
      (define_records rfl rfl).then fun _ => .nothing _
  exact declared.perm List.perm_append_comm

theorem declare_records (d : Decl) : Records head (all (headNodes d)) (declare d) := by
  cases d with
  | type d => exact declareType_records d
  | const d => exact declareConst_records d
  | var d => exact declareVars_records d
  | procedure d => exact declareProcedure_records d
  | objectImpl d => exact .pure _

theorem declareAll_records (ds : List Decl) :
    Records head (all (ds.flatMap headNodes)) (declareAll ds) :=
  forM_records declare_records ds

/-! ## Bodies -/

theorem defineParams_records (mode : ParamMode) (names : List Ident) (types : List ParamType) :
    Records head (all (names.map .ident)) (defineParams mode names types) := by
  induction names generalizing types with
  | nil => exact .pure _
  | cons n ns ih => exact (define_records rfl rfl).seq fun _ => (ih _).then fun _ => .nothing _

theorem defineAllParams_records (params : List Param) (types : List ParamType) :
    Records head (all (nameNodes params)) (defineAllParams params types) := by
  induction params generalizing types with
  | nil => exact .pure _
  | cons p rest ih =>
    obtain ⟨mode, names, spec, span⟩ := p
    exact (defineParams_records _ _ _).seq fun _ => (ih _).then fun _ => .nothing _

theorem reportUnused_still (id : Nat) : Still head (reportUnused id) := by
  refine Still.bind (symbol?_query id).still fun s? => ?_
  cases s? with
  | none => exact .nothing _
  | some s =>
    dsimp only
    split
    · refine Still.get fun st _ => ?_
      split
      · exact warning_still _ _ _
      · refine Still.bind table_finds.still fun t => ?_
        split
        · exact warning_still _ _ _
        · exact .nothing _
    · exact .nothing _

theorem forM_still {α : Type} {f : α → Check Unit} (h : ∀ a, Still head (f a)) (as : List α) :
    Still head (as.forM f) := by
  induction as with
  | nil => exact .nothing _
  | cons a as ih => exact Still.bind (h a) fun _ => ih

theorem reportAllUnused_still : Still head reportAllUnused :=
  Still.bind table_finds.still fun _ => forM_still reportUnused_still _

theorem inRoutine_records {U : Multiset Node} (result? : Option Ty) (outs : List Nat)
    {step : Check Unit} (h : Records head U step) :
    Records head U (inRoutine result? outs step) := by
  have outParams (around : List (Nat × OutState)) :
      Still head (modify fun s => { s with outParams := around } : Check Unit) :=
    ByName.still (.modify _ (fun _ _ _ => rfl) fun _ h => h) fun _ _ => ⟨rfl, rfl⟩
  have inside : Records head U
      (withReader (fun env => { env with routine? := some result? }) step) :=
    .withReader (fun _ => rfl) (fun _ => rfl) h
  exact .get fun s => (outParams _).after fun _ => inside.then fun _ =>
    Still.bind reportAllUnused_still fun _ => outParams _

theorem checkRoutine_records (params : List Param) (signature : Signature) (locals : List Decl)
    {bodies : Check Unit} (h : Records head (locals.map bodyNodes).sum bodies) (body : List Stmt) :
    Records head (all (routineNodes params locals body))
      (checkRoutine params signature locals bodies body) := by
  have inside : Records head (all (locals.map .decl ++ body.map .stmt)) (do
      declareAll locals
      bodies
      checkBlock body) := by
    refine ((declareAll_records locals).bind fun _ => h.bind fun _ =>
      checkBlock_records body).weaken ?_
    rw [Node.all_append, ← add_assoc]
    exact add_le_add_left (decls_split locals) _
  exact (defineAllParams_records params _).seq fun outs => inRoutine_records _ outs inside

theorem checkMethodName_records (name : Ident) :
    Records head (all [.ident name]) (checkMethodName name) := by
  refine .read fun env _ => ?_
  split
  · exact .pure _
  · split
    · split
      · refine (memberSymbol?_finds _ name.name).after fun id? => ?_
        cases id? with
        | none => exact .pure _
        | some id => exact refer_records.imp fun _ h => h.2 id rfl
      · exact .pure _
    · exact (error_still _ _ _).records

theorem implementedObject_records (name : Ident) :
    Records head (all [.ident name]) (implementedObject name) := by
  refine (findObject_query none name.name).still.after fun o? => ?_
  extract_lets _ rest
  have referred (done : Unit) : Records head (all [.ident name]) (rest done) := by
    refine table_finds.after fun t => ?_
    split
    · next id hid =>
      split
      · refine (refer_records.imp fun t' h => ?_).then fun _ => .nothing _
        rw [← h.2]
        exact SymbolTable.declares_of_lookupFrom? hid
      · exact .pure _
    · exact .pure _
  split
  · refine suppressUnknown_query.still.after fun suppressed => ?_
    split
    · exact referred ()
    · exact (error_still _ _ _).after referred
  · exact referred ()

theorem inObject_records {U : Multiset Node} (o? : Option ResolvedObject) {n : Node}
    {step : Check Unit} (h : Records head U step) (hU : ∀ m ∈ U, m ∈ n.preorder) :
    Records head (n ::ₘ U) (inObject o? n.span step) := by
  have inside (resolved : Bool) : Records head U (do
      let context : ObjectContext := ⟨← currentScope, o?, resolved⟩
      withReader (fun env => { env with objects := context :: env.objects }) step) :=
    currentScope_query.still.after fun _ => Records.withReader (fun _ => rfl) (fun _ => rfl) h
  cases o? with
  | none => exact (Finds.nothing false).after fun _ => inScope_records (inside _) hU
  | some o => exact (chainResolved_still o).after fun _ => inScope_records (inside _) hU

/-- The nodes of a routine stand below the node that has its span. -/
theorem routine_below {n c : Node} {name : Ident} {params : List Param}
    {result : List Node} {locals : List Decl} {body : List Stmt}
    (hn : n.children = c :: (locals.map .decl ++ body.map .stmt))
    (hc : c.children = .ident name :: (params.map .param ++ result)) :
    ∀ m ∈ all (routineNodes params locals body), m ∈ n.preorder := by
  intro m hm
  refine Node.mem_all_singleton.1 (Multiset.mem_of_le (routine_split hn hc) ?_)
  exact Multiset.mem_add.2 (.inr (Multiset.mem_cons_of_mem hm))

mutual

theorem checkBodyOf_records : ∀ d : Decl, Records head (bodyNodes d) (checkBodyOf d)
  | .procedure ⟨heading, locals, body, isForward, span⟩ => by
    rw [checkBodyOf]
    split
    · exact .pure _
    · refine .get fun s => ?_
      exact inScope_records (n := .decl (.procedure ⟨heading, locals, body, isForward, span⟩))
        (checkRoutine_records _ _ _ (checkBodies_records locals) body)
        (routine_below (c := .procHeading heading) rfl rfl)
  | .objectImpl ⟨name, methods, span⟩ => by
    rw [checkBodyOf]
    let n : Node := .decl (.objectImpl ⟨name, methods, span⟩)
    have below : ∀ m ∈ all (methods.map .methodImpl), m ∈ n.preorder := by
      intro m hm
      rw [← Node.mem_all_singleton, Node.all_singleton]
      refine Multiset.mem_cons_of_mem (Multiset.mem_of_le (Node.all_le ?_) hm)
      exact (List.sublist_cons_self _ _).subperm
    refine ((implementedObject_records name).bind fun o? =>
      inObject_records o? (n := n) (checkMethods_records methods) below).weaken (le_of_eq ?_)
    show _ = all [n]
    rw [Node.all_singleton n, show n.children = [.ident name] ++ methods.map .methodImpl from rfl,
      Node.all_append, Multiset.add_cons]
  | .type _ | .const _ | .var _ => by
    rw [checkBodyOf]
    exact .pure _

theorem checkBodies_records : ∀ ds : List Decl,
    Records head (ds.map bodyNodes).sum (checkBodies ds)
  | [] => by
    rw [checkBodies]
    exact .pure _
  | d :: ds => by
    rw [checkBodies, List.map_cons, List.sum_cons]
    exact (checkBodyOf_records d).bind fun _ => checkBodies_records ds

theorem checkMethods_records : ∀ methods : List MethodImpl,
    Records head (all (methods.map .methodImpl)) (checkMethods methods)
  | [] => by
    rw [checkMethods]
    exact .pure _
  | ⟨heading, locals, body, span⟩ :: rest => by
    rw [checkMethods]
    let n : Node := .methodImpl ⟨heading, locals, body, span⟩
    have method : Records head (all [n]) (do
        checkMethodName heading.name
        let signature ← signatureOf heading.params heading.result
        inScope .method n.span
          (checkRoutine heading.params signature locals (checkBodies locals) body)) := by
      refine ((checkMethodName_records heading.name).bind fun _ =>
        (signatureOf_records heading.params heading.result).bind fun signature =>
          inScope_records (n := n) (checkRoutine_records _ _ _ (checkBodies_records locals) body)
            (routine_below (c := .methodHeading heading) rfl rfl)).weaken ?_
      rw [← add_assoc, ← Node.all_cons]
      exact routine_split (c := .methodHeading heading) rfl rfl
    exact method.seq fun _ => checkMethods_records rest

end

/-! ## Imports -/

theorem otherModule_still {source : Ident} (h : source.name ≠ head.name) :
    Still head (otherModule source) := by
  have noted : Still head (modify fun s => { s with
      unresolved := source.name :: s.unresolved } : Check Unit) :=
    ByName.still (.modify _ (fun _ _ _ => rfl) fun _ h => h) fun _ _ => ⟨rfl, rfl⟩
  refine .read fun env _ => Still.bind (Query.ask fun hname => absurd hname h).still fun table? => ?_
  dsimp only
  split
  · refine Still.get fun s _ => ?_
    split
    · exact .nothing _
    · exact Still.bind noted fun _ => Still.bind (warning_still _ _ _) fun _ => .nothing _
  · exact .nothing _

theorem importFrom_records {U : Multiset Node} {source : Ident}
    {use : Option SymbolTable → Check Unit}
    (huse : source.name ≠ head.name → ∀ table?, Records head U (use table?)) :
    Records head U (importFrom source use) := by
  refine .read fun env henv => ?_
  subst henv
  split
  · exact (warning_still _ _ _).records
  · next hname => exact (otherModule_still hname).after fun table? => huse hname table?

theorem importModule_records (module : Ident) :
    Records head (all [.ident module]) (importModule module) := by
  refine importFrom_records fun hname _ => .get fun s => ?_
  split
  · exact .pure _
  · have noted : Still head (modify fun s => { s with
        wholeImports := s.wholeImports ++ [module.name] } : Check Unit) := by
      rintro env s rfl hs
      exact (addWholeImport_byName rfl hname).still (fun _ _ => ⟨rfl, rfl⟩) env s rfl hs
    exact noted.after fun _ => (define_records rfl rfl).then fun _ => .nothing _

theorem definePlaceholder_records (name source : Ident) :
    Records head (all [.ident name]) (definePlaceholder name source) := by
  refine (define_records rfl rfl).then fun id? => ?_
  cases id? with
  | none => exact .nothing _
  | some id => exact ByName.still (.modify _ (fun _ _ _ => rfl) fun _ h => h) fun _ _ => ⟨rfl, rfl⟩

theorem importedValue_span (source : SymbolTable) (module type : Ident) (value : String) :
    (importedValue source module type value).span = type.span := by
  unfold importedValue
  split <;> rfl

theorem isImported_importedValue (source : SymbolTable) (module type : Ident) (value : String) :
    (importedValue source module type value).isImported := by
  unfold importedValue
  split
  · next s hs =>
    obtain ⟨original, -, rfl⟩ := Option.map_eq_some_iff.1 hs
    rfl
  · rfl

/-- The name under which an item is known is one of the names that it consists of. -/
theorem localName_le (item : ImportItem) : all [.ident item.localName] ≤ all [.importItem item] := by
  rw [Node.all_singleton (.importItem item)]
  refine le_trans (Node.all_le (List.Sublist.subperm ?_)) (Multiset.le_cons_self _ _)
  unfold ImportItem.localName
  cases h : item.alias? with
  | none => simp [Node.children, h]
  | some i => simp [Node.children, h]

theorem importSymbol_records (source : SymbolTable) (module : Ident) (item : ImportItem)
    (s : Symbol) : Records head (all [.importItem item]) (importSymbol source module item s) := by
  have value (values : List String) {env : Env} {s s' : CheckState}
      (h : Recorded (all [.importItem item]) s s') :
      Recorded (all [.importItem item]) s ((values.forM fun v => do
        let _ ← define (importedValue source module item.name v)
        pure () : Check Unit).outcome env s').2 := by
    induction values generalizing s' with
    | nil => exact h
    | cons v vs ih =>
      refine ih ?_
      obtain ⟨id, t, hdefine, hstate⟩ | hquiet :=
        define_cases (importedValue source module item.name v) env s'
      · show Recorded _ s ((define _).outcome env s').2
        rw [hstate]
        refine .value h ?_ (isImported_importedValue _ _ _ _) (importedValue_span _ _ _ _) hdefine
        rw [Node.all_singleton]
        exact Multiset.mem_cons_self _ _
      · exact h.then_quiet hquiet
  intro env st henv hs _
  refine ⟨?_, ((importSymbol_byName source module item s).faithful henv hs).1⟩
  have named : Records head (all [.ident item.localName])
      (define { s with name := item.localName.name, span := item.localName.span }) :=
    define_records rfl rfl
  obtain ⟨hrecorded, -⟩ := named env st henv hs trivial
  unfold importSymbol
  rw [outcome_bind]
  split
  · exact value _ (hrecorded.weaken (localName_le item))
  · exact hrecorded.weaken (localName_le item)

theorem importItem_records (module : Ident) (table? : Option SymbolTable) (item : ImportItem) :
    Records head (all [.importItem item]) (importItem module table? item) := by
  have placeholder : Records head (all [.importItem item])
      (definePlaceholder item.localName module) :=
    (definePlaceholder_records item.localName module).weaken (localName_le item)
  cases table? with
  | none => exact placeholder
  | some source =>
    unfold importItem
    dsimp only
    split
    · exact importSymbol_records source module item _
    · exact (warning_still _ _ _).after fun _ => placeholder

theorem importClause_records (i : Import) : Records head (all [.import i]) (importClause i) := by
  cases i with
  | names module items span =>
    have named : Records head (all (items.map .importItem)) (importNames module items) :=
      importFrom_records fun _ table? => forM_map_records (importItem_records module table?) items
    exact (named.within (List.sublist_cons_self _ _).subperm).node
  | modules modules span => exact (forM_map_records importModule_records modules).node

/-! ## Object types -/

theorem mismatch_still (name : String) (span : Span) (s : Signature) (base : Member)
    (baseSignature : Signature) : Still head (mismatch name span s base baseSignature) := by
  unfold mismatch
  extract_lets _ _ rest
  have reported (declared? : Option Nat) : Still head (rest declared?) := by
    cases declared? with
    | none => exact Still.bind (.nothing _) fun _ => .nothing _
    | some id => exact Still.bind (symbol?_query id).still fun _ => .nothing _
  split
  · exact Still.bind (.nothing _) reported
  · exact Still.bind (memberSymbol?_query _ _).still reported

theorem checkOverride_still (o : ResolvedObject) (chainResolved : Bool) (span : Span)
    (name : String) (method : MethodInfo) :
    Still head (checkOverride o chainResolved span name method) := by
  refine Still.bind (baseMethod_still o name) fun base? => ?_
  split
  · split
    · exact error_still _ _ _
    · exact .nothing _
  · split
    · exact .nothing _
    · split
      · exact warning_still _ _ _
      · split
        · exact Still.bind (mismatch_still _ _ _ _ _) fun _ => report_still _
        · exact .nothing _

theorem checkOverrides_still (o : ResolvedObject) (chainResolved : Bool) (decl : ObjectDecl)
    (span : Span) (methods : List (String × MethodInfo)) :
    Still head (checkOverrides o chainResolved decl span methods) := by
  induction methods with
  | nil => exact .nothing _
  | cons m rest ih =>
    exact Still.bind table_finds.still fun _ => Still.bind (checkOverride_still _ _ _ _ _) fun _ => ih

theorem checkObjectType_still (decl : ObjectDecl) : Still head (checkObjectType decl) := by
  refine Still.bind (symbol?_query decl.symbol).still fun s? => ?_
  cases s? with
  | none => exact .nothing _
  | some s =>
    dsimp only
    split
    · refine Still.bind (inheritsItself_still _) fun circular => ?_
      split
      · exact error_still _ _ _
      · exact Still.bind (chainResolved_still _) fun _ => checkOverrides_still _ _ _ _ _
    · exact .nothing _

theorem checkObjectTypes_still : Still head checkObjectTypes :=
  Still.get fun _ _ => forM_still checkObjectType_still _

/-! ## Exports and names of types -/

theorem checkExport_records (e : Export) : Records head (all [.export e]) (checkExport e) := by
  refine RecordsWhen.node (forM_map_records (fun n => table_finds.after fun t => ?_) e.names)
  split
  · next id hid =>
    refine refer_records.imp fun t' h => ?_
    rw [← h.2]
    exact SymbolTable.declares_of_lookupFrom? hid
  · exact (error_still _ _ _).records

/-- The node of a type name that was put off. -/
def pendingNode (p : PendingType) : Node := .ident ⟨p.name, p.span⟩

theorem checkPendingType_records (p : PendingType) :
    Records head (all [pendingNode p]) (checkPendingType p) := by
  refine (lookup_finds p.module? p.name p.scope).after fun found => ?_
  cases found with
  | found b =>
    refine (isPlaceholder_query b).still.after fun placeholder => ?_
    split
    · exact .pure _
    · refine (bindingSymbol?_query b).still.after fun s? => ?_
      cases s? with
      | none => exact .pure _
      | some s =>
        dsimp only
        split
        · split
          · next id =>
            exact (referIn_records (i := ⟨p.name, p.span⟩) p.scope).imp fun _ h => h.2 _ rfl id rfl
          · exact .pure _
        · exact (error_still _ _ _).records
  | unknowable => exact .pure _
  | missing => exact (error_still _ _ _).records

/-! ## Modules -/

/-- The check of a module up to its exports. -/
def checkParts (m : Module) : Check Unit := do
  let _ ← define { name := m.name.name, kind := .module, span := m.name.span }
  m.imports.forM importClause
  declareAll m.decls
  checkBodies m.decls
  checkObjectTypes
  m.body.forM checkBlock
  m.exports.forM checkExport

theorem body_records (body? : Option (List Stmt)) :
    Records head (all (Node.ofBlock? body?)) (body?.forM checkBlock) := by
  cases body? with
  | none => exact .pure _
  | some body => exact checkBlock_records body

/-- The check of the name of a module and of its imports. -/
def checkFront (m : Module) : Check Unit := do
  let _ ← define { name := m.name.name, kind := .module, span := m.name.span }
  m.imports.forM importClause

/-- The check of what a module declares and does itself. -/
def checkOwn (m : Module) : Check Unit := do
  declareAll m.decls
  checkBodies m.decls
  checkObjectTypes
  m.body.forM checkBlock
  m.exports.forM checkExport

/-- The parts of a module behind its name that are not imports. -/
def ownNodes (m : Module) : List Node :=
  m.exports.map .export ++ m.decls.map .decl ++ Node.ofBlock? m.body

theorem checkFront_records (m : Module) :
    Records head (all (.ident m.name :: m.imports.map .import)) (checkFront m) := by
  have named : Records head (all [.ident m.name])
      (define { name := m.name.name, kind := .module, span := m.name.span }) :=
    define_records rfl rfl
  exact named.seq fun _ => forM_map_records importClause_records m.imports

theorem checkOwn_records (m : Module) : Records head (all (ownNodes m)) (checkOwn m) := by
  have declared : Records head (all (m.decls.flatMap headNodes)) (declareAll m.decls) :=
    declareAll_records m.decls
  have parts := declared.bind fun _ => (checkBodies_records m.decls).bind fun _ =>
    checkObjectTypes_still.after fun _ => (body_records m.body).bind fun _ =>
      forM_map_records checkExport_records m.exports
  obtain ⟨others, hdecls⟩ := Multiset.le_iff_exists_add.1 (decls_split m.decls)
  refine RecordsWhen.weaken parts (Multiset.le_iff_exists_add.2 ⟨others, ?_⟩)
  unfold ownNodes
  simp only [Node.all_append, hdecls]
  abel

theorem checkParts_records (m : Module) : Records head (all [.module m]) (checkParts m) := by
  have front : Records head _ (checkFront m) := checkFront_records m
  have parts := front.seq fun _ => checkOwn_records m
  refine RecordsWhen.node (parts.perm (List.Perm.of_eq ?_))
  unfold ownNodes
  simp only [Node.children, List.cons_append, List.append_assoc]

end SimFront.Check

namespace SimFront

open Check

/-- Between the states before and after its analysis a module is recorded at its own nodes, and
then at the type names that were put off. -/
theorem recorded_after (resolver? : Option Resolver) (m : Module) : ∃ s : CheckState,
    CheckState.Recorded (Node.all [.module m]) (.ofModule m) s ∧
    CheckState.Recorded (Node.all (s.pendingTypes.reverse.map pendingNode)) s
      (.after resolver? m) := by
  have hs := faithful_ofModule resolver? m
  obtain ⟨hparts, hfaithful⟩ := checkParts_records m _ _ rfl hs trivial
  obtain ⟨hpending, -⟩ := forM_map_records checkPendingType_records _ _ _ rfl hfaithful trivial
  exact ⟨_, hparts, hpending⟩

end SimFront
