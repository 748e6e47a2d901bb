import SimFront.Proofs.Check.BaseMethods
import SimFront.Proofs.Check.ObjectMethods

/-!
# Object types of procedures

The rules for object types look up bases in the scope of the module, wherever the types are
declared.  So object types that are declared in a procedure are not found by one another: their
bases count as not known, and neither circles nor base methods are found.  All that is left to
report are methods that are to override in types that name no bases; these reports are the same in
a procedure and in the module itself (`local_objects_report`).
-/

namespace SimFront

open CheckState (Adds Describes)

namespace Hierarchy

variable {bases : ResolvedObject → List ResolvedObject} {o o' : ResolvedObject}

/-- What has no bases inherits from itself alone. -/
theorem eq_of_inherits (h : bases o = []) (hinherits : Inherits bases o o') : o' = o := by
  rcases Relation.ReflTransGen.cases_head hinherits with rfl | ⟨b, hb, -⟩
  · rfl
  · rw [HasBase, h] at hb
    cases hb

theorem acyclic_of_none (h : bases o = []) : Acyclic bases o :=
  acyclic_of_baseless fun b hb => by
    rw [h] at hb
    cases hb

theorem apart_of_none (h : bases o = []) : Apart bases o := fun _ _ ha hb _ =>
  (eq_of_inherits h ha).trans (eq_of_inherits h hb).symm

end Hierarchy

namespace Check

open Hierarchy

variable {head : ModuleHead} {env : Env} {s : CheckState}

/-! ## Object types without known bases -/

/-- No base method is found where no base is. -/
theorem baseMethod_of_none (hs : s.Faithful env) {o : ResolvedObject}
    (hbases : basesOf env s o = []) (name : String) :
    ((baseMethod o name).outcome env s).1 = none := by
  obtain ⟨found?, visited, hvisits, hvalue⟩ := visits_baseMethod hs o name
  rw [hvalue]
  generalize hempty : basesOf env s o = os at hvisits
  obtain rfl := hempty.symm.trans hbases
  cases hvisits
  rfl

/-- Where no base is found, none is unknown if there is none. -/
theorem chainResolved_of_none (hs : s.Faithful env) {o : ResolvedObject}
    (hbases : basesOf env s o = []) :
    ((chainResolved o).outcome env s).1 = true ↔ o.info.bases = [] := by
  rw [chainResolved_iff hs (apart_of_none hbases).keyed .refl]
  constructor
  · intro hresolved
    refine List.eq_nil_iff_forall_not_mem.2 fun base hbase => ?_
    obtain ⟨b, hb⟩ := Option.isSome_iff_exists.1 (hresolved o .refl base hbase)
    have hmem : b ∈ basesOf env s o := List.mem_filterMap.2 ⟨base, hbase, hb⟩
    rw [hbases] at hmem
    cases hmem
  · intro hnone o' hinherits
    rw [eq_of_inherits hbases hinherits]
    unfold Resolved
    rw [hnone]
    exact List.forall_mem_nil _

/-- On an object type whose bases are not found only methods that are to override are reported, and
that only if it names no bases. -/
theorem objectReport_of_none (hs : s.Faithful env) {e : ObjectDecl} {symbol : Symbol}
    {info : ObjectInfo} (hsymbol : s.table.symbol? e.symbol = some symbol)
    (hinfo : symbol.type = .object info) (hbases : basesOf env s ⟨e.name, info, none⟩ = [])
    (x : Diagnostic) : ObjectReport env s e x ↔ info.bases = [] ∧ ∃ m ∈ info.methods,
      m.2.isOverride = true ∧ x = .error .invalidOverride (methodSpan s e symbol.span m.1)
        s!"OVERRIDE method '{m.1}' of '{e.name}' has no base method to override" := by
  have hcircle := inheritsItself_of_acyclic hs (acyclic_of_none hbases) (apart_of_none hbases)
  have hchain := chainResolved_of_none hs hbases
  unfold ObjectReport
  constructor
  · rintro ⟨symbol', info', hsymbol', hinfo', hreport⟩
    obtain rfl := Option.some.inj (hsymbol.symm.trans hsymbol')
    obtain rfl := Ty.object.inj (hinfo.symm.trans hinfo')
    rw [if_neg (Bool.eq_false_iff.1 hcircle)] at hreport
    obtain ⟨m, hm, hreport⟩ := hreport
    unfold MethodReport at hreport
    rw [baseMethod_of_none hs hbases] at hreport
    obtain ⟨hoverride, hresolved, rfl⟩ := hreport
    exact ⟨hchain.1 hresolved, m, hm, hoverride, rfl⟩
  · rintro ⟨hnone, m, hm, hoverride, rfl⟩
    refine ⟨symbol, info, hsymbol, hinfo, ?_⟩
    rw [if_neg (Bool.eq_false_iff.1 hcircle)]
    refine ⟨m, hm, ?_⟩
    unfold MethodReport
    rw [baseMethod_of_none hs hbases]
    exact ⟨hoverride, hchain.2 hnone, rfl⟩

/-- Where the module declares no types, no bases are found. -/
theorem Alone.no_bases (h : Alone env s) (hnone : ∀ name symbol, ¬ NamesType s name symbol)
    (o : ResolvedObject) : basesOf env s o = [] := by
  refine List.eq_nil_iff_forall_not_mem.2 fun b hb => ?_
  obtain ⟨module?, name, hfound⟩ := known_of_mem_basesOf hb
  obtain ⟨-, -, symbol, hsymbol, -⟩ :=
    h.findObject module? name s h.faithful (CheckState.Like.refl s) b hfound
  exact hnone _ _ hsymbol

end Check

/-! ## Reports on the tree -/

theorem Entry.name_of_first? {entries : List Entry} {name : String} {e : Entry}
    (h : first? entries name = some e) : e.ident.name = name := by
  have hname := List.find?_some h
  exact of_decide_eq_true hname

/-- A method of one of the object types is to override, and the type names no bases. -/
def LacksBases (types : List TypeDecl) (x : Diagnostic) : Prop :=
  ∃ d ∈ types, ∃ o i, d.type = .object o ∧ o.bases = [] ∧
    Entry.first? o.entries i.name = some ⟨i, true⟩ ∧ x = .error .invalidOverride i.span
      s!"OVERRIDE method '{i.name}' of '{d.name.name}' has no base method to override"

namespace CheckState

open Check

variable {env : Env} {s : CheckState} {types : List TypeDecl}

/-- Where a declaration names no bases, none are found. -/
theorem Describes.no_bases {e : ObjectDecl} {d : TypeDecl} {o : ObjectType}
    (h : s.Describes e d) (hd : d.type = .object o) (hempty : o.bases = []) {symbol : Symbol}
    {info : ObjectInfo} (hsymbol : s.table.symbol? e.symbol = some symbol)
    (hinfo : symbol.type = .object info) : basesOf env s ⟨e.name, info, none⟩ = [] := by
  obtain ⟨symbol', info', o', hsymbol', hinfo', hd', hbases, -⟩ := h.object
  obtain rfl := Option.some.inj (hsymbol.symm.trans hsymbol')
  obtain rfl := Ty.object.inj (hinfo.symm.trans hinfo')
  obtain rfl := TypeSpec.object.inj (hd.symm.trans hd')
  unfold basesOf
  rw [hbases.2 hempty]
  rfl

/-- What is reported on an object type whose bases are not found can be told from its
declaration. -/
theorem Describes.report_iff (hs : s.Faithful env) {e : ObjectDecl} {d : TypeDecl}
    (h : s.Describes e d) (hbases : ∀ symbol info, s.table.symbol? e.symbol = some symbol →
      symbol.type = .object info → basesOf env s ⟨e.name, info, none⟩ = []) (x : Diagnostic) :
    ObjectReport env s e x ↔ LacksBases [d] x := by
  obtain ⟨symbol, info, o, hsymbol, hinfo, htype, hnone, hmembers⟩ := h.object
  rw [objectReport_of_none hs hsymbol hinfo (hbases symbol info hsymbol hinfo), hnone, h.name]
  have hspan (name : String) : methodSpan s e symbol.span name =
      ((Entry.first? o.entries name).map (·.ident.span)).getD symbol.span := by
    rw [← hmembers.span]
    rfl
  constructor
  · rintro ⟨hempty, ⟨name, method⟩, hmethod, hoverride, rfl⟩
    obtain ⟨i, hi⟩ := (hmembers.overrides name).1 ⟨method, hmethod, hoverride⟩
    obtain rfl : i.name = name := Entry.name_of_first? hi
    refine ⟨d, .head _, o, i, htype, hempty, hi, ?_⟩
    dsimp only
    rw [hspan, hi]
    rfl
  · rintro ⟨_, hd, o', i, htype', hempty, hi, rfl⟩
    obtain rfl := List.mem_singleton.1 hd
    obtain rfl := TypeSpec.object.inj (htype.symm.trans htype')
    obtain ⟨method, hmethod, hoverride⟩ := (hmembers.overrides i.name).2 ⟨i, hi⟩
    refine ⟨hempty, (i.name, method), hmethod, hoverride, ?_⟩
    dsimp only
    rw [hspan, hi]
    rfl

end CheckState

namespace Check

/-! ## Routines -/

/-- Every run of the step declares the entries in the current scope, and among them the object
types, if their names are free. -/
def AddsObjects (head : ModuleHead) (entries : List Entry) (types : List TypeDecl) {α : Type}
    (p : Check α) : Prop :=
  ∀ env s, env.head = head → s.Faithful env → s.table.Reachable →
    (∀ d ∈ types, s.table.spanAt? s.table.current d.name.name = none) →
    s.Adds entries types (p.outcome env s).2 ∧ (p.outcome env s).2.Faithful env

variable {α β : Type} {head : ModuleHead} {entries entries' : List Entry} {types : List TypeDecl}
  {p : Check α} {f : α → Check β}

theorem AddsObjects.then (hp : AddsObjects head entries types p)
    (hf : ∀ a, Brings head [] (f a)) : AddsObjects head entries types (p >>= f) := by
  intro env s henv hs htable hfree
  obtain ⟨hadds, hs'⟩ := hp env s henv hs htable hfree
  obtain ⟨hbrought, hdecls, hs'', htable''⟩ := hf _ env _ henv hs' hadds.reachable
  have hall := hadds.trans htable (.of_brought hbrought htable'' hdecls)
  rw [List.append_nil, List.append_nil] at hall
  exact ⟨hall, hs''⟩

/-- Other names may be brought in before. -/
theorem AddsObjects.after (hp : Brings head entries p)
    (hother : ∀ d ∈ types, Entry.first? entries d.name.name = none)
    (hf : ∀ a, AddsObjects head entries' types (f a)) :
    AddsObjects head (entries ++ entries') types (p >>= f) := by
  intro env s henv hs htable hfree
  obtain ⟨hbrought, hdecls, hs', htable'⟩ := hp env s henv hs htable
  obtain ⟨hadds, hs''⟩ := hf _ env _ henv hs' htable' fun d hd =>
    (hbrought.free_iff _).2 ⟨hfree d hd, hother d hd⟩
  exact ⟨(CheckState.Adds.of_brought hbrought htable' hdecls).trans htable hadds, hs''⟩

theorem AddsObjects.get {f : CheckState → Check α}
    (h : ∀ s, AddsObjects head entries types (f s)) :
    AddsObjects head entries types (get >>= f) := fun env s => h s env s

theorem AddsObjects.withReader {f : Env → Env} (hf : ∀ env, (f env).resolver? = env.resolver?)
    (hhead : ∀ env, (f env).head = env.head) (h : AddsObjects head entries types p) :
    AddsObjects head entries types (withReader f p : Check α) := by
  intro env s henv hs htable hfree
  obtain ⟨hadds, hs'⟩ := h (f env) s ((hhead env).trans henv)
    (hs.of_resolver (hf env) (hhead env)) htable hfree
  exact ⟨hadds, hs'.of_resolver (hf env).symm (hhead env).symm⟩

theorem declareAll_addsObjects (hobjects : ∀ d ∈ types, ∃ o, d.type = .object o)
    (hdistinct : (types.map (·.name.name)).Nodup) :
    AddsObjects head (types.map fun d => .plain d.name) types (declareAll (types.map .type)) :=
  fun _ _ henv hs htable hfree => ⟨declareAll_adds hs htable hobjects hdistinct hfree,
    ((declareAll_byName _).faithful henv hs).1⟩

/-- Types have no bodies. -/
theorem checkBodies_types (types : List TypeDecl) :
    checkBodies (types.map .type) = pure () := by
  induction types with
  | nil => rw [List.map_nil, checkBodies]
  | cons d rest ih =>
    rw [List.map_cons, checkBodies, checkBodyOf, ih]
    rfl

theorem defineParams_brings (mode : ParamMode) (names : List Ident) (types : List ParamType) :
    Brings head (names.map .plain) (defineParams mode names types) := by
  induction names generalizing types with
  | nil => exact .pure _
  | cons n ns ih =>
    exact (define_brings rfl rfl (by rintro ⟨⟩)).seq fun _ => (ih _).then fun _ => .pure _

theorem defineAllParams_brings (params : List Param) (types : List ParamType) :
    Brings head ((params.flatMap (·.names)).map .plain) (defineAllParams params types) := by
  induction params generalizing types with
  | nil => exact .pure _
  | cons p rest ih =>
    obtain ⟨mode, names, spec, span⟩ := p
    rw [List.flatMap_cons, List.map_append]
    exact (defineParams_brings _ _ _).seq fun _ => (ih _).then fun _ => .pure _

/-- A routine whose parameters have other names declares its object types. -/
theorem checkRoutine_addsObjects {params : List Param}
    (hparams : ∀ d ∈ types, d.name.name ∉ (params.flatMap (·.names)).map (·.name))
    (hobjects : ∀ d ∈ types, ∃ o, d.type = .object o)
    (hdistinct : (types.map (·.name.name)).Nodup) (signature : Signature) (body : List Stmt) :
    AddsObjects head ((params.flatMap (·.names)).map .plain ++ types.map fun d => .plain d.name)
      types
      (checkRoutine params signature (types.map .type) (checkBodies (types.map .type)) body) := by
  have outParams (around : List (Nat × OutState)) :
      Brings head [] (modify fun s => { s with outParams := around } : Check Unit) :=
    fun _ _ _ hs htable => ⟨.references _ _, rfl, hs.of_same rfl rfl rfl, htable⟩
  have declared : AddsObjects head (types.map fun d => .plain d.name) types (do
      declareAll (types.map .type)
      checkBodies (types.map .type)
      checkBlock body) := by
    rw [checkBodies_types]
    exact (declareAll_addsObjects hobjects hdistinct).then fun _ => (Brings.pure ()).then fun _ =>
      checkBlock_composes brings_composes.composes body
  have inside : AddsObjects head (types.map fun d => .plain d.name) types (withReader
      (fun env => { env with routine? := some signature.result }) (do
        declareAll (types.map .type)
        checkBodies (types.map .type)
        checkBlock body)) := declared.withReader (fun _ => rfl) fun _ => rfl
  refine .after (defineAllParams_brings params _) (fun d hd => ?_) fun _ => .get fun s =>
    .after (outParams _) (fun _ _ => rfl) fun _ => inside.then fun _ =>
      (reportAllUnused_composes brings_composes).then fun _ => outParams _
  exact Entry.first?_plain_eq_none fun i hi heq =>
    hparams d hd (List.mem_map.2 ⟨i, hi, heq⟩)

/-- In a scope of its own a step declares the object types, whatever is declared around it. -/
theorem inScope_describes {env : Env} {s : CheckState} (hp : AddsObjects env.head entries types p)
    (hs : s.Faithful env) (htable : s.table.Reachable) (kind : ScopeKind) (span : Span) :
    s.table.Brought [] ((inScope kind span p).outcome env s).2.table ∧
      ∃ es, ((inScope kind span p).outcome env s).2.objectDecls = s.objectDecls ++ es ∧
        List.Forall₂ ((inScope kind span p).outcome env s).2.Describes es types := by
  have hs₁ : CheckState.Faithful env { s with table := s.table.enter kind span } :=
    hs.of_same rfl rfl rfl
  obtain ⟨⟨hbrought, -, es, hes, hdescribed⟩, -⟩ := hp env _ rfl hs₁ (htable.enter kind span)
    fun d _ => s.table.spanAt?_enter kind span d.name.name
  refine ⟨hbrought.leave htable.consistent, es, hes, hdescribed.imp fun e d ⟨hed, _⟩ => ?_⟩
  have hleave := (p.outcome env { s with table := s.table.enter kind span }).2.table.leave_eq
  obtain ⟨scope, hscope⟩ := hleave
  exact hed.of_table hscope

/-! ## Modules without types -/

/-- All types are copies from other modules. -/
def NoOwnTypes (t : SymbolTable) : Prop :=
  ∀ id symbol, t.symbol? id = some symbol → symbol.kind = .type → symbol.isImported

/-- Every run of the step declares no types of the module itself. -/
def Typeless (head : ModuleHead) {α : Type} (p : Check α) : Prop :=
  ∀ env s, env.head = head → s.Faithful env → NoOwnTypes s.table →
    (p.outcome env s).2.Faithful env ∧ NoOwnTypes (p.outcome env s).2.table

/-- A step that keeps the symbols. -/
theorem Typeless.of_symbols (hp : ∀ env s, env.head = head → s.Faithful env →
    (p.outcome env s).2.Faithful env ∧ (p.outcome env s).2.table.symbols = s.table.symbols) :
    Typeless head p := by
  intro env s henv hs hnone
  obtain ⟨hs', hsymbols⟩ := hp env s henv hs
  refine ⟨hs', fun id symbol hsymbol => hnone id symbol ?_⟩
  unfold SymbolTable.symbol? at hsymbol ⊢
  rwa [hsymbols] at hsymbol

theorem typeless_decls : ComposesParts head fun _ p => Typeless head p where
  bind hp hf := fun env s henv hs hnone => by
    obtain ⟨hs', hnone'⟩ := hp env s henv hs hnone
    exact hf _ env _ henv hs' hnone'
  get h := fun env s => h s env s
  read h := fun env s henv => h env henv env s henv
  withReader f hf hhead hp := fun env s henv hs hnone => by
    obtain ⟨hs', hnone'⟩ := hp (f env) s ((hhead env).trans henv)
      (hs.of_resolver (hf env) (hhead env)) hnone
    exact ⟨hs'.of_resolver (hf env).symm (hhead env).symm, hnone'⟩
  touch hp := .of_symbols fun env s henv hs => by
    obtain ⟨htouched, hs', -⟩ := hp env s ⟨henv, hs⟩
    obtain ⟨rs, hrs, -⟩ := htouched.table
    exact ⟨hs', by rw [hrs]⟩
  report _ := .of_symbols fun _ _ henv hs => ⟨((report_byName _).faithful henv hs).1, rfl⟩
  define {symbol} hsymbol := fun env s henv hs hnone => by
    refine ⟨((define_byName symbol).faithful henv hs).1, ?_⟩
    obtain ⟨id, t, hdefine, hstate⟩ | ⟨-, x, -, -, hstate⟩ := define_outcome symbol env s
    · rw [hstate]
      intro i other hother
      dsimp only at hother
      rw [SymbolTable.symbol?_defineIn hdefine] at hother
      split at hother
      · obtain rfl := Option.some.inj hother
        exact hsymbol.type
      · exact hnone i other hother
    · rw [hstate]
      exact hnone
  enter kind span := .of_symbols fun _ _ henv hs =>
    ⟨((modifyTable_byName _).faithful henv hs).1, rfl⟩
  leave := .of_symbols fun _ s henv hs => by
    obtain ⟨scope, hleave⟩ := s.table.leave_eq
    refine ⟨((modifyTable_byName _).faithful henv hs).1, ?_⟩
    show s.table.leave.symbols = _
    rw [hleave]
  aside hname hf := .of_symbols fun _ s henv hs =>
    ⟨(hname.faithful henv hs).1, congrArg SymbolTable.symbols (hf s).1⟩
  note owner? scope := .of_symbols fun env s henv hs => by
    obtain ⟨⟨htable, -⟩, hs', -⟩ := noteObject_still owner? scope env s henv hs
    exact ⟨hs', congrArg SymbolTable.symbols htable⟩

/-- What goes on below the scope of the module declares no types there. -/
theorem not_namesType {s s' : CheckState} (hown : ∀ id symbol, s'.table.symbol? id = some symbol →
      symbol.kind = .type → symbol.origin? = none)
    (h : NoOwnTypes s.table) (hs : s.table.Consistent)
    (hcurrent : s.table.current = SymbolTable.root) (hbrought : s.table.Brought [] s'.table)
    (name : String) (symbol : Symbol) : ¬ NamesType s' name symbol := by
  rintro ⟨hkind, id, hid, hsymbol⟩
  rw [SymbolTable.lookupFrom?_root] at hid
  have hspan := hbrought.here name
  rw [hcurrent] at hspan
  unfold SymbolTable.spanAt? at hspan
  rw [hid, Option.bind_some, hsymbol] at hspan
  cases hdeclared : s.table.declared? SymbolTable.root name with
  | none =>
    rw [hdeclared] at hspan
    cases hspan
  | some id' =>
    obtain rfl := Option.some.inj ((hbrought.keeps _ _ _ hdeclared).symm.trans hid)
    obtain ⟨other, hother, -⟩ := hs.of_declares ⟨_, hdeclared⟩
    obtain rfl := Option.some.inj ((hbrought.symbol _ _ hother).symm.trans hsymbol)
    have himported := h _ _ hother hkind
    rw [Symbol.isImported, hown _ _ hsymbol hkind] at himported
    cases himported

theorem define_objectDecls (symbol : Symbol) (env : Env) (s : CheckState) :
    ((define symbol).outcome env s).2.objectDecls = s.objectDecls := by
  obtain ⟨id, t, -, hstate⟩ | ⟨-, x, -, -, hstate⟩ := define_outcome symbol env s
  · rw [hstate]
  · rw [hstate]

/-- The heading of a procedure notes no object types. -/
theorem declareProcedure_objectDecls {env : Env} {s : CheckState} (hs : s.Faithful env)
    (htable : s.table.Reachable) (d : ProcDecl) :
    ((declareProcedure d).outcome env s).2.objectDecls = s.objectDecls := by
  have hsignature : Brings env.head _ (signatureOf d.heading.params d.heading.result) :=
    (paramsOf_brings _).seq fun _ => (resultOf_brings _).then fun _ => .pure _
  obtain ⟨-, hdecls, -⟩ := hsignature env s rfl hs htable
  unfold declareProcedure
  dsimp only
  rw [outcome_bind, ← hdecls]
  exact define_objectDecls _ env { ((signatureOf _ _).outcome env s).2 with signatures := _ }

/-- Without imports the check of a module begins with its name. -/
theorem checkFront_brings {m : Module} (himports : m.imports = []) :
    Brings head [.plain m.name] (checkFront m) := by
  unfold checkFront
  rw [himports]
  exact (define_brings rfl rfl (by rintro ⟨⟩)).then fun _ => .pure ()

theorem checkFront_typeless {m : Module} (himports : m.imports = []) :
    Typeless head (checkFront m) := by
  unfold checkFront
  rw [himports]
  exact typeless_decls.bind (typeless_decls.decls.plain (by rintro ⟨⟩) rfl) fun _ => typeless_decls.pure ()

end Check

open Check

variable {m : Module} {types : List TypeDecl}

/-- The rules change nothing in what is noted. -/
theorem describes_after (h : List.Forall₂ (CheckState.declared none m).Describes
    (CheckState.declared none m).objectDecls types) :
    List.Forall₂ (CheckState.after none m).Describes (CheckState.after none m).objectDecls
      types := by
  obtain ⟨-, hagrees⟩ := agrees_declared none m
  obtain ⟨rs, hrs⟩ := hagrees.table
  rw [hagrees.objectDecls]
  exact h.imp fun e d hed => hed.of_table hrs

/-- Object types of a module without imports are noted as they are declared. -/
theorem describes_of_own (himports : m.imports = []) (hdecls : m.decls = types.map .type)
    (hobjects : ∀ d ∈ types, ∃ o, d.type = .object o)
    (hdistinct : (types.map (·.name.name)).Nodup)
    (hmodule : ∀ d ∈ types, d.name.name ≠ m.name.name) :
    List.Forall₂ (CheckState.after none m).Describes (CheckState.after none m).objectDecls
      types := by
  obtain ⟨hfront, hnone, hs, htable⟩ := checkFront_brings himports (.ofModule none m) (.ofModule m)
    rfl (faithful_ofModule none m) (.new m.name.name m.span)
  have hstate : CheckState.declared none m =
      ((declareAll (types.map .type)).outcome (.ofModule none m)
        ((checkFront m).outcome (.ofModule none m) (.ofModule m)).2).2 := by
    unfold CheckState.declared checkDeclared
    rw [hdecls, checkBodies_types]
    rfl
  obtain ⟨-, -, es, hes, hdescribed⟩ := declareAll_adds hs htable hobjects hdistinct fun d hd =>
    (hfront.free_iff _).2 ⟨rfl, by
      rw [Entry.first?_singleton, if_neg fun heq => hmodule d hd heq.symm]⟩
  refine describes_after ?_
  rw [hstate, hes, hnone]
  exact hdescribed.imp fun _ _ h => h.1

/-- The analysis of a module with one procedure goes through its heading and then its body. -/
theorem declared_of_procedure {heading : ProcHeading} {locals : List Decl} {body : List Stmt}
    {span : Span} (hdecls : m.decls = [.procedure ⟨heading, locals, body, false, span⟩]) :
    ∃ signature, CheckState.declared none m =
      ((inScope .procedure span
          (checkRoutine heading.params signature locals (checkBodies locals) body)).outcome
        (.ofModule none m)
        ((declareProcedure ⟨heading, locals, body, false, span⟩).outcome (.ofModule none m)
          ((checkFront m).outcome (.ofModule none m) (.ofModule m)).2).2).2 := by
  unfold CheckState.declared checkDeclared
  rw [hdecls, outcome_bind, outcome_bind]
  generalize ((checkFront m).outcome (.ofModule none m) (.ofModule m)).2 = s
  have hdeclared : (declareAll [.procedure ⟨heading, locals, body, false, span⟩]).outcome
      (.ofModule none m) s =
      (declareProcedure ⟨heading, locals, body, false, span⟩).outcome (.ofModule none m) s := rfl
  rw [hdeclared]
  generalize ((declareProcedure ⟨heading, locals, body, false, span⟩).outcome
    (.ofModule none m) s).2 = s'
  rw [checkBodies, checkBodies, checkBodyOf, if_neg Bool.false_ne_true]
  exact ⟨(List.lookup heading.span.start.offset s'.signatures).getD ⟨[], none⟩, rfl⟩

/-- Object types of a procedure are noted as they are declared, and the module itself declares no
types. -/
theorem describes_of_local {heading : ProcHeading} {body : List Stmt} {span : Span}
    (himports : m.imports = [])
    (hdecls : m.decls = [.procedure ⟨heading, types.map .type, body, false, span⟩])
    (hobjects : ∀ d ∈ types, ∃ o, d.type = .object o)
    (hdistinct : (types.map (·.name.name)).Nodup)
    (hparams : ∀ d ∈ types, d.name.name ∉ (heading.params.flatMap (·.names)).map (·.name)) :
    List.Forall₂ (CheckState.after none m).Describes (CheckState.after none m).objectDecls types ∧
      ∀ name symbol, ¬ NamesType (.after none m) name symbol := by
  obtain ⟨signature, hstate⟩ := declared_of_procedure hdecls
  obtain ⟨hfront, hnone, hs, htable⟩ := checkFront_brings himports (.ofModule none m) (.ofModule m)
    rfl (faithful_ofModule none m) (.new m.name.name m.span)
  obtain ⟨-, htypeless⟩ := checkFront_typeless himports (.ofModule none m) (.ofModule m) rfl
    (faithful_ofModule none m) fun _ _ h => nomatch h
  generalize ((checkFront m).outcome (.ofModule none m) (.ofModule m)).2 = s at *
  -- the heading
  obtain ⟨hopened, hs'⟩ := declareProcedure_opens ⟨heading, types.map .type, body, false, span⟩
    (.ofModule none m) s rfl rfl hs
  obtain ⟨htable', -, hcurrent⟩ := hopened.reachable htable
  have hempty := declareProcedure_objectDecls hs htable
    ⟨heading, types.map .type, body, false, span⟩
  obtain ⟨-, htypeless'⟩ := declareProcedure_composes typeless_decls.decls
    ⟨heading, types.map .type, body, false, span⟩ (.ofModule none m) s rfl hs htypeless
  generalize ((declareProcedure ⟨heading, types.map .type, body, false, span⟩).outcome
    (.ofModule none m) s).2 = s' at *
  -- the body
  obtain ⟨hbrought, es, hes, hdescribed⟩ := inScope_describes
    (checkRoutine_addsObjects hparams hobjects hdistinct signature body) hs' htable' .procedure span
  rw [← hstate] at hbrought hes hdescribed
  refine ⟨describes_after ?_, fun name symbol => ?_⟩
  · rw [hes, hempty, hnone]
    exact hdescribed
  · obtain ⟨-, hagrees⟩ := agrees_declared none m
    obtain ⟨rs, hrs⟩ := hagrees.table
    refine not_namesType (fun _ _ => ownTypes_after m) htypeless' htable'.consistent
      (hcurrent.trans hfront.returns.current) ?_ name symbol
    rw [hrs]
    exact hbrought.trans (.references _ rs)

/-! ## Object types in a procedure and in the module -/

/-- What is related to a member of the second list is a member of the first. -/
theorem exists_left_of_forall₂ {α β : Type} {R : α → β → Prop} {as : List α} {bs : List β}
    (h : List.Forall₂ R as bs) {b : β} (hb : b ∈ bs) : ∃ a ∈ as, R a b := by
  induction h with
  | nil => cases hb
  | cons hab _ ih =>
    rcases List.mem_cons.1 hb with rfl | hb
    · exact ⟨_, .head _, hab⟩
    · obtain ⟨a, ha, hab⟩ := ih hb
      exact ⟨a, .tail _ ha, hab⟩

/-- Where no bases are found, what is reported can be told from the declarations. -/
theorem reports_of_describes (h : List.Forall₂ (CheckState.after none m).Describes
      (CheckState.after none m).objectDecls types)
    (hbases : ∀ d ∈ types, ∀ e, (CheckState.after none m).Describes e d → ∀ symbol info,
      (CheckState.after none m).table.symbol? e.symbol = some symbol →
        symbol.type = .object info →
        basesOf (.ofModule none m) (.after none m) ⟨e.name, info, none⟩ = []) (x : Diagnostic) :
    x ∈ (analyze none m).diagnostics ∧ x.code ∈ ruleCodes ↔ LacksBases types x := by
  have hs := faithful_after none m
  rw [rules_report]
  constructor
  · rintro ⟨e, he, hreport⟩
    obtain ⟨d, hd, hdescribed⟩ := exists_left_of_forall₂ h.flip he
    obtain ⟨_, hmem, hlacks⟩ :=
      (hdescribed.report_iff hs (hbases d hd e hdescribed) x).1 hreport
    exact ⟨d, hd, List.mem_singleton.1 hmem ▸ hlacks⟩
  · rintro ⟨d, hd, hlacks⟩
    obtain ⟨e, he, hdescribed⟩ := exists_left_of_forall₂ h hd
    exact ⟨e, he, (hdescribed.report_iff hs (hbases d hd e hdescribed) x).2 ⟨d, .head _, hlacks⟩⟩

/-- **Object types of procedures.**  Of object types that are declared in a procedure, the rules
report just the methods that are to override in types without bases.  These are reported as well
where the same types are declared in the module itself; and if none of the types names a base, the
rules report the same in both places. -/
theorem local_objects_report (m : Module) (types : List TypeDecl) (heading : ProcHeading)
    (body : List Stmt) (span : Span) (himports : m.imports = [])
    (hobjects : ∀ d ∈ types, ∃ o, d.type = .object o)
    (hdistinct : (types.map (·.name.name)).Nodup)
    (hmodule : ∀ d ∈ types, d.name.name ≠ m.name.name)
    (hparams : ∀ d ∈ types, d.name.name ∉ (heading.params.flatMap (·.names)).map (·.name)) :
    let outer := (analyze none { m with decls := types.map .type }).diagnostics
    let inner := (analyze none { m with
      decls := [.procedure ⟨heading, types.map .type, body, false, span⟩] }).diagnostics
    (∀ x, x ∈ inner ∧ x.code ∈ ruleCodes ↔ LacksBases types x) ∧
    (∀ x, LacksBases types x → x ∈ outer) ∧
    ((∀ d ∈ types, ∀ o, d.type = .object o → o.bases = []) →
      ∀ x, x.code ∈ ruleCodes → (x ∈ outer ↔ x ∈ inner)) := by
  intro outer inner
  obtain ⟨hdescribed, hnone⟩ := describes_of_local
    (m := { m with decls := [.procedure ⟨heading, types.map .type, body, false, span⟩] })
    himports rfl hobjects hdistinct hparams
  have hdescribed' := describes_of_own (m := { m with decls := types.map .type })
    himports rfl hobjects hdistinct hmodule
  have hinner := reports_of_describes hdescribed fun _ _ e _ _ _ _ _ =>
    (alone_after _).no_bases hnone _
  refine ⟨hinner, fun x hx => ?_, fun hempty x hcode => ?_⟩
  · obtain ⟨d, hd, o, i, htype, hempty, hrest⟩ := hx
    obtain ⟨e, he, hed⟩ := exists_left_of_forall₂ hdescribed' hd
    refine ((rules_report none _ x).2 ⟨e, he, ?_⟩).1
    exact (hed.report_iff (faithful_after none _) (fun _ _ => hed.no_bases htype hempty) x).2
      ⟨d, .head _, o, i, htype, hempty, hrest⟩
  · have houter := reports_of_describes hdescribed' fun d hd e hed _ _ hsymbol hinfo => by
      obtain ⟨o, htype⟩ := hobjects d hd
      exact hed.no_bases htype (hempty d hd o htype) hsymbol hinfo
    constructor
    · exact fun hx => ((hinner x).2 ((houter x).1 ⟨hx, hcode⟩)).1
    · exact fun hx => ((houter x).2 ((hinner x).1 ⟨hx, hcode⟩)).1

/-- Two object types of a procedure that inherit from each other, and one with a method that
overrides nothing. -/
theorem local_objects_report_circle :
    let types : List TypeDecl := [
      ⟨⟨"A", {}⟩, .object ⟨[⟨none, ⟨"B", {}⟩, {}⟩], [], {}⟩, {}⟩,
      ⟨⟨"B", {}⟩, .object ⟨[⟨none, ⟨"A", {}⟩, {}⟩], [], {}⟩, {}⟩,
      ⟨⟨"D", {}⟩, .object ⟨[], [⟨.override, [.method ⟨.ask, ⟨"f", {}⟩, [], none, {}⟩], {}⟩], {}⟩,
        {}⟩]
    let m : Module := {
      kind := .plain, name := ⟨"M", {}⟩, imports := [], exports := [], decls := [], body := none,
      span := {} }
    let inner := (analyze none { m with
      decls := [.procedure ⟨⟨⟨"P", {}⟩, [], none, {}⟩, types.map .type, [], false, {}⟩] }).diagnostics
    let missing := Diagnostic.error .invalidOverride {}
      "OVERRIDE method 'f' of 'D' has no base method to override"
    missing ∈ inner ∧ missing ∈ (analyze none { m with decls := types.map .type }).diagnostics ∧
      ∀ x ∈ inner, x.code ∈ ruleCodes → x = missing := by
  intro types m inner missing
  obtain ⟨hinner, houter, -⟩ := local_objects_report m types ⟨⟨"P", {}⟩, [], none, {}⟩ [] {} rfl
    (by simp [types]) (by decide) (by decide) (by decide)
  have hlacks (x : Diagnostic) : LacksBases types x ↔ x = missing := by
    constructor
    · rintro ⟨d, hd, o, i, htype, hempty, hfirst, rfl⟩
      simp only [types, List.mem_cons, List.not_mem_nil, or_false] at hd
      rcases hd with rfl | rfl | rfl
      · cases htype
        cases hempty
      · cases htype
        cases hempty
      · cases htype
        obtain ⟨⟩ := List.mem_singleton.1 (List.mem_of_find?_eq_some hfirst)
        rfl
    · rintro rfl
      exact ⟨_, .tail _ (.tail _ (.head _)), _, ⟨"f", {}⟩, rfl, rfl, rfl, rfl⟩
  exact ⟨((hinner missing).2 ((hlacks missing).2 rfl)).1, houter missing ((hlacks missing).2 rfl),
    fun x hx hcode => (hlacks x).1 ((hinner x).1 ⟨hx, hcode⟩)⟩

end SimFront
