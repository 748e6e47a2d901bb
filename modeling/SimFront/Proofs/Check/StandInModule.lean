import SimFront.Check.Body
import SimFront.Proofs.Check.AlikeModule
import SimFront.Proofs.Check.StandInDecl
import SimFront.Proofs.Check.StandInImport

/-!
# Names that are not found

In the body of a routine the name goes on to stand for the stand-in, as long as no parameter
or local declaration has the name (`checkBodyOf_leaves`).  No object that is implemented
gives a member the name, since none that is found does.

A name that FROM imports are to bring in, and that is not found, is reported where it is
imported.  It is not reported again where it is used: all reports on the module stand beside
its uses (`reported_beside`).  That follows from what is known of uses of the name once the
imports are through (`placed_of_spares`).

Where a name is missing the tree has an identifier with the empty name.  If nothing has that
name, a missing value, loop variable or target of a call stands for nothing, and nothing is
reported on it or on what is done with it (`silent_of_empty`).  Not so for types and exports:
there the empty name is looked up like any other.  All reports on a module stand beside the uses
of the empty name, or where a type or an export is missing (`reported_beside_missing`).
-/

namespace SimFront.Check

variable {k : Missing}

/-! ## Routines -/

/-- The symbols are not the stand-in. -/
def OtherIds (k : Missing) (ids : List Nat) : Prop := ∀ id ∈ ids, k.id? ≠ some id

theorem defineParams_leaves (mode : ParamMode) {names : List Ident} (h : ∀ n ∈ names, k.Allows n)
    (types : List ParamType) :
    Leaves k (fun result => OtherIds k result.1) (defineParams mode names types) := by
  induction names generalizing types with
  | nil => exact .pure (List.forall_mem_nil _)
  | cons n ns ih =>
    refine (defineIdent_leaves (h n (.head _)) rfl rfl (by intro h; cases h)).bind
      fun id? hid => ?_
    refine (ih (fun n' hn => h n' (.tail _ hn)) types.tail).bind fun result hresult => .pure ?_
    refine List.forall_mem_append.2 ⟨?_, hresult⟩
    split
    · exact fun i hi => hid i (Option.mem_toList.1 hi)
    · exact List.forall_mem_nil _

theorem defineAllParams_leaves {params : List Param} (h : ∀ p ∈ params, k.Spares (.param p))
    (types : List ParamType) : Leaves k (OtherIds k) (defineAllParams params types) := by
  induction params generalizing types with
  | nil => exact .pure (List.forall_mem_nil _)
  | cons p rest ih =>
    have hp := h p (.head _)
    obtain ⟨mode, names, spec, span⟩ := p
    refine (defineParams_leaves mode (fun n hn => hp.allows
      (List.mem_append_left _ (List.mem_map_of_mem hn)) hn rfl) types).bind fun result hresult => ?_
    exact (ih (fun p' hp => h p' (.tail _ hp)) result.2).bind fun others hothers =>
      .pure (List.forall_mem_append.2 ⟨hresult, hothers⟩)

/-- Unused symbols are reported where they are declared. -/
theorem reportAllUnused_leaves : Leaves k (fun _ => True) reportAllUnused := by
  intro env s hs
  have hreported : ∀ id d, unusedReport? s id = some d → k.place d.span := by
    intro id d hd
    unfold unusedReport? at hd
    split at hd
    · cases hd
    · next symbol hsymbol =>
      have hspan := hs.table.spans id symbol hsymbol
      split at hd
      · split at hd
        · obtain rfl := Option.some.inj hd
          exact hspan
        · split at hd
          · obtain rfl := Option.some.inj hd
            exact hspan
          · cases hd
      · cases hd
  unfold reportAllUnused
  rw [outcome_bind, show table.outcome env s = (s.table, s) from rfl, outcome_forM_reportUnused]
  refine ⟨{ hs with
    faithful := hs.faithful.of_same rfl rfl rfl
    reports := List.forall_mem_append.2 ⟨fun d hd => ?_, hs.reports⟩ }, trivial⟩
  obtain ⟨id, -, hd⟩ := List.mem_filterMap.1 (List.mem_reverse.1 hd)
  exact hreported id d hd

theorem inRoutine_leaves (result? : Option Ty) {outs : List Nat} (houts : OtherIds k outs)
    {step : Check Unit} (h : Leaves k (fun _ => True) step) :
    Leaves k (fun _ => True) (inRoutine result? outs step) := by
  intro env s hs
  let inner : Env := { env with routine? := some result? }
  have started : k.Holds inner { s with outParams := outs.map fun id => (id, {}) } := by
    refine (hs.withOutParams fun id hid => ?_).of_env rfl rfl hs.objects
    refine List.lookup_eq_none_iff.2 fun e he => ?_
    obtain ⟨i, hi, rfl⟩ := List.mem_map.1 he
    refine bne_iff_ne.2 ?_
    rintro rfl
    exact houts id hi hid
  have ended : k.Holds env _ := (h inner _ started).1.of_env rfl rfl hs.objects
  rw [outcome_inRoutine]
  exact ⟨(reportAllUnused_leaves env _ ended).1.withOutParams hs.outs, trivial⟩

theorem checkRoutine_leaves (hI : k.Silent) {params : List Param}
    (hparams : ∀ p ∈ params, k.Spares (.param p)) (signature : Signature) {locals : List Decl}
    (hlocals : ∀ d ∈ locals, k.Spares (.decl d)) {bodies : Check Unit}
    (hbodies : Leaves k (fun _ => True) bodies) {body : List Stmt}
    (hbody : ∀ s ∈ body, k.Spares (.stmt s)) :
    Leaves k (fun _ => True) (checkRoutine params signature locals bodies body) :=
  (defineAllParams_leaves hparams signature.params).bind fun _ houts =>
    inRoutine_leaves signature.result houts <| (declareAll_leaves hI hlocals).bind fun _ _ =>
      hbodies.bind fun _ _ =>
        (checkBlock_touches hI body fun s hs => (hbody s hs).covers).leads

/-! ## Methods -/

theorem checkMethodName_touches {I : Standing k.head k.place} {name : Ident} (h : k.place name.span) :
    Touches I (checkMethodName name) := by
  refine .read fun env => ?_
  split
  · exact .pure ()
  · next o _ =>
    split
    · split
      · refine (memberSymbol?_query o.name name.name).touches.bind fun id? => ?_
        cases id? with
        | none => exact .pure ()
        | some id => exact refer_touches id name.span
      · exact .pure ()
    · exact error_touches h _ _

/-- An object is implemented that gives no member the name. -/
theorem implementedObject_yields {name : Ident} (h : k.place name.span) :
    Yields k.standing (fun o? => ∀ o, o? = some o → o.info.Lacks k.name) (implementedObject name) := by
  refine (findObject_yields none name.name).bind fun o? ho? => ?_
  extract_lets _ rest
  have referred (done : Unit) :
      Yields k.standing (fun o? => ∀ o, o? = some o → o.info.Lacks k.name) (rest done) := by
    refine .table fun env s _ => ?_
    split
    · split
      · exact Yields.bind (refer_touches _ _) fun _ _ => .pure ho?
      · exact .pure ho?
    · exact .pure ho?
  split
  · refine Yields.bind suppressUnknown_query.touches fun suppressed _ => ?_
    split
    · exact referred ()
    · exact Yields.bind (error_touches h _ _) fun _ _ => referred ()
  · exact referred ()

/-- Within the implementation of an object, whose scope is current. -/
theorem withObject_leaves {o? : Option ResolvedObject}
    (ho : ∀ o, o? = some o → o.info.Lacks k.name) (resolved : Bool) {step : Check Unit}
    (h : Leaves k (fun _ => True) step) : Leaves k (fun _ => True) (do
      let context : ObjectContext := ⟨← currentScope, o?, resolved⟩
      withReader (fun env => { env with objects := context :: env.objects }) step) := by
  intro env s hs
  let context : ObjectContext := ⟨s.table.current, o?, resolved⟩
  have inside : k.Holds { env with objects := context :: env.objects } s :=
    hs.of_env rfl rfl (List.forall_mem_cons.2 ⟨ho, hs.objects⟩)
  exact ⟨(h _ s inside).1.of_env rfl rfl hs.objects, trivial⟩

theorem inObject_leaves {o? : Option ResolvedObject} (ho : ∀ o, o? = some o → o.info.Lacks k.name)
    (span : Span) {step : Check Unit} (h : Leaves k (fun _ => True) step) :
    Leaves k (fun _ => True) (inObject o? span step) := by
  have rest (resolved : Bool) := inScope_leaves (withObject_leaves ho resolved h) .object span
  cases o? with
  | none => exact rest false
  | some o => exact (chainResolved_touches o).leads.bind fun resolved _ => rest resolved

/-! ## Bodies -/

mutual

theorem checkBodyOf_leaves (hI : k.Silent) : ∀ d : Decl, k.Spares (.decl d) →
    Leaves k (fun _ => True) (checkBodyOf d)
  | .procedure ⟨heading, locals, body, isForward, span⟩, h => by
    rw [checkBodyOf]
    split
    · exact .pure trivial
    · have hheading : k.Spares (.procHeading heading) := h.child (.head _) rfl
      have hlocals : ∀ d ∈ locals, k.Spares (.decl d) :=
        h.mapped (fun _ hn => .tail _ (List.mem_append_left _ hn)) fun _ _ => rfl
      exact .get fun s => inScope_leaves (checkRoutine_leaves hI
        (hheading.mapped (fun _ hn => .tail _ (List.mem_append_left _ hn)) fun _ _ => rfl)
        _ hlocals (checkBodies_leaves hI locals hlocals)
        (h.mapped (fun _ hn => .tail _ (List.mem_append_right _ hn)) fun _ _ => rfl))
        .procedure span
  | .objectImpl ⟨name, methods, span⟩, h => by
    rw [checkBodyOf]
    exact (implementedObject_yields ((h.child (.head _) rfl).covers.self rfl)).leads.bind
      fun o? ho => inObject_leaves ho span (checkMethods_leaves hI methods
        (h.mapped (List.subset_cons_self _ _) fun _ _ => rfl))
  | .type _, _ | .const _, _ | .var _, _ => by
    rw [checkBodyOf]
    exact .pure trivial

theorem checkBodies_leaves (hI : k.Silent) : ∀ ds : List Decl,
    (∀ d ∈ ds, k.Spares (.decl d)) → Leaves k (fun _ => True) (checkBodies ds)
  | [], _ => by
    rw [checkBodies]
    exact .pure trivial
  | d :: ds, h => by
    rw [checkBodies]
    exact (checkBodyOf_leaves hI d (h d (.head _))).bind fun _ _ =>
      checkBodies_leaves hI ds fun d' hd' => h d' (.tail _ hd')

theorem checkMethods_leaves (hI : k.Silent) : ∀ methods : List MethodImpl,
    (∀ m ∈ methods, k.Spares (.methodImpl m)) → Leaves k (fun _ => True) (checkMethods methods)
  | [], _ => by
    rw [checkMethods]
    exact .pure trivial
  | ⟨heading, locals, body, span⟩ :: rest, h => by
    rw [checkMethods]
    have hmethod := h ⟨heading, locals, body, span⟩ (.head _)
    have hheading : k.Spares (.methodHeading heading) := hmethod.child (.head _) rfl
    have hparams : ∀ p ∈ heading.params, k.Spares (.param p) :=
      hheading.mapped (fun _ hn => .tail _ (List.mem_append_left _ hn)) fun _ _ => rfl
    have hlocals : ∀ d ∈ locals, k.Spares (.decl d) :=
      hmethod.mapped (fun _ hn => .tail _ (List.mem_append_left _ hn)) fun _ _ => rfl
    refine (checkMethodName_touches ((hheading.child (.head _) rfl).covers.self rfl)).leads.bind
      fun _ _ => ?_
    refine (signatureOf_leaves hI hparams fun spec hspec => hheading.child (.tail _
      (List.mem_append_right _ (List.mem_map_of_mem (Option.mem_toList.2 hspec)))) rfl).bind
        fun signature _ => ?_
    exact (inScope_leaves (checkRoutine_leaves hI hparams signature hlocals
      (checkBodies_leaves hI locals hlocals)
      (hmethod.mapped (fun _ hn => .tail _ (List.mem_append_right _ hn)) fun _ _ => rfl))
      .method span).bind fun _ _ => checkMethods_leaves hI rest fun m hm => h m (.tail _ hm)

end

end SimFront.Check

namespace SimFront

/-- FROM imports are to bring the name in, but none of them finds it, and nothing else has the
name: neither what the module declares, nor a member of an object type elsewhere. -/
structure Module.Misses (resolver? : Option Resolver) (m : Module) (name : String) : Prop where
  imported : ∃ i ∈ m.imports, ∃ e ∈ i.items m.name.name, e.2.localName.name = name
  unfound : ∀ i ∈ m.imports, ∀ e ∈ i.items m.name.name, ∀ source,
    resolver?.bind (·.find? e.1.name) = some source → name ∉ e.2.found e.1 source
  undeclared : ∀ n ∈ (Node.module m).preorder, ∀ i ∈ n.declares, i.name ≠ name
  members : ∀ module source, resolver?.bind (·.find? module) = some source → source.LacksMember name

namespace Check

variable {k : Missing} {id : Nat}

/-! ## Object types and exports -/

theorem checkObjectType_leads (d : ObjectDecl) :
    Leads k.standing k.standing (fun _ => True) (checkObjectType d) := by
  refine Yields.leads fun env s hs => ?_
  obtain ⟨htouched, hfaithful⟩ := checkObjectType_touched (I := k.standing) (d := d) hs
    (hs.table.spans d.symbol) fun name symbol hsymbol => by
      obtain ⟨id, -, hid⟩ := Option.bind_eq_some_iff.1 hsymbol
      exact hs.table.spans id symbol hid
  exact ⟨htouched, hfaithful, trivial⟩

/-- As long as no stand-in is declared, reports are allowed where the name is given for a type,
or exported. -/
def Notes (k : Missing) : Prop := k.id? = none → ∀ span, k.mentioned span → k.place span

theorem checkExport_leads (hk : Notes k) {e : Export} (h : k.Spares (.export e)) :
    Leads k.standing k.standing (fun _ => True) (checkExport e) := by
  refine forM_leads fun n hn => Yields.leads (.table fun env s hs => ?_)
  by_cases hname : n.name = k.name
  · have hroot : SymbolTable.root < s.table.scopes.size :=
      Nat.lt_of_le_of_lt (Nat.zero_le _) hs.table.consistent.current
    rw [hname, hs.table.lookupFrom? hroot]
    cases hid : k.id? with
    | some id => exact refer_touches id n.span
    | none =>
      have hmentioned := h.mentioned _ (Node.mem_preorder_self _) n hn hname
      exact error_touches (hk hid _ hmentioned) _ _
  · have huse : Node.isUse (some k.name) (.export e) (.ident n) = false :=
      decide_eq_false fun heq => hname (Option.some.inj heq).symm
    have hspan : k.place n.span := (h.child (List.mem_map_of_mem hn) huse).covers.self rfl
    split
    · exact refer_touches _ n.span
    · exact error_touches hspan _ _

/-! ## Names of types -/

/-- While the names of types are checked their scopes stay in the table. -/
def noting (k : Missing) (p : PendingType) : Standing k.head k.place where
  Holds env s := k.Holds env s ∧ p.scope < s.table.scopes.size
  head h := h.1.head
  faithful h := h.1.faithful
  touched h htouched hfaithful := by
    obtain ⟨rs, hrs, -⟩ := htouched.table
    refine ⟨h.1.touched htouched hfaithful, ?_⟩
    rw [hrs]
    exact h.2
  within h := ⟨h.1.of_env rfl rfl h.1.objects, h.2⟩

/-- The name is the name of no type, but that goes unreported. -/
theorem checkPendingType_silent (hid : k.id? = some id) {p : PendingType} (hmodule : p.module? = none)
    (hname : p.name = k.name) : Touches (noting k p) (checkPendingType p) := by
  have found : Yields (noting k p) (· = .found (.declared id)) (lookup p.module? p.name p.scope) := by
    rw [hmodule, hname]
    refine .read fun _ _ _ => .table fun env s hs => ?_
    rw [hs.1.table.lookupFrom? hs.2, hid]
    exact .pure rfl
  have placeholder : Yields (noting k p) (· = true) (isPlaceholder (.declared id)) :=
    .get fun env s hs => .pure (List.contains_iff_mem.2 (hs.1.placeholder id hid))
  refine Yields.bind found fun b hb => ?_
  subst hb
  refine Yields.bind placeholder fun b hb => ?_
  subst hb
  exact Touches.pure ()

theorem checkPendingTypes_leads (hk : Notes k) :
    Leads k.standing k.standing (fun _ => True) checkPendingTypes := by
  intro env s hs
  have each : ∀ ps : List PendingType, (∀ p ∈ ps, p ∈ s.pendingTypes) → ∀ s', k.Holds env s' →
      s'.pendingTypes = s.pendingTypes → k.Holds env ((ps.forM checkPendingType).outcome env s').2 := by
    intro ps hps
    induction ps with
    | nil => exact fun _ hs' _ => hs'
    | cons p ps ih =>
      intro s' hs' hsame
      obtain ⟨hscope, hname⟩ := hs'.pending p (hsame ▸ hps p (.head _))
      have touched : s'.Touched k.place ((checkPendingType p).outcome env s').2 ∧
          ((checkPendingType p).outcome env s').2.Faithful env := by
        have placed (hplace : k.place p.span) :
            s'.Touched k.place ((checkPendingType p).outcome env s').2 ∧
              ((checkPendingType p).outcome env s').2.Faithful env :=
          have h := checkPendingType_touches (I := k.standing) hplace env s' hs'
          ⟨h.1, h.2.1⟩
        rcases hname with ⟨hmodule, hname, hmentioned⟩ | hplace
        · cases hid : k.id? with
          | some id =>
            have h := checkPendingType_silent hid hmodule hname env s' ⟨hs', hscope⟩
            exact ⟨h.1, h.2.1⟩
          | none => exact placed (hk hid _ hmentioned)
        · exact placed hplace
      exact ih (fun q hq => hps q (.tail _ hq)) _ (hs'.touched touched.1 touched.2)
        (touched.1.pendingTypes.trans hsame)
  exact ⟨each _ (fun p hp => List.mem_reverse.1 hp) s hs rfl, trivial⟩

/-! ## Modules -/

/-- Whether the module's imports are to bring in the name. -/
def importsName (m : Module) (name : String) : Bool :=
  m.imports.any fun i => bringsIn name (i.items m.name.name)

theorem checkImports_leads {m : Module} {resolver? : Option Resolver} (h : k.Spares (.module m))
    (hname : m.name.name = k.head.name)
    (hfound : ∀ i ∈ m.imports, ∀ e ∈ i.items m.name.name, ∀ source,
      resolver?.bind (·.find? e.1.name) = some source →
        k.name ∉ e.2.found e.1 source ∧ source.LacksMember k.name) :
    Leads (k.importing resolver? false) (k.importing resolver? (importsName m k.name))
      (fun _ => True) (m.imports.forM importClause) := by
  have himports : Leads (k.importing resolver? false) (k.importing resolver? (false ||
      m.imports.any fun i => bringsIn k.name (i.items k.head.name))) (fun _ => True)
      (m.imports.forM importClause) := by
    refine forM_importing fun i hi declared => importClause_leads
      (h.child (.tail _ (List.mem_append_left _ (List.mem_append_left _ (List.mem_append_left _
        (List.mem_map_of_mem hi))))) rfl) fun e he source hsource => ?_
    rw [← hname] at he
    exact hfound i hi e he source hsource
  rw [importsName, hname]
  exact himports

/-- What comes after the imports. -/
theorem checkDecls_leads (hI : k.Silent) (hk : Notes k) {m : Module} (h : k.Spares (.module m)) :
    Leads k.standing k.standing (fun _ => True) (do
      declareAll m.decls
      checkBodies m.decls
      checkObjectTypes
      m.body.forM checkBlock
      m.exports.forM checkExport
      checkPendingTypes) := by
  have hdecls : ∀ d ∈ m.decls, k.Spares (.decl d) := h.mapped (fun _ hn =>
    .tail _ (List.mem_append_left _ (List.mem_append_right _ hn))) fun _ _ => rfl
  have hbody : ∀ b, m.body = some b → ∀ s ∈ b, Covers k.place (some k.name) (.stmt s) := by
    intro b hb s hs
    have hmem : Node.stmt s ∈ Node.ofBlock? m.body := by
      rw [hb]
      exact List.mem_map_of_mem hs
    exact (h.child (.tail _ (List.mem_append_right _ hmem)) rfl).covers
  have hexports : ∀ e ∈ m.exports, k.Spares (.export e) := h.mapped (fun _ hn =>
    .tail _ (List.mem_append_left _ (List.mem_append_left _ (List.mem_append_right _ hn))))
      fun _ _ => rfl
  exact (declareAll_leaves hI hdecls).bind fun _ _ => (checkBodies_leaves hI m.decls hdecls).bind
    fun _ _ => Leads.bind (.get fun s => forM_leads fun d _ => checkObjectType_leads d) fun _ _ =>
      (optionForM_leads fun b hb =>
        (checkBlock_touches hI b (hbody b hb)).leads).bind fun _ _ =>
          (forM_leads fun e he => checkExport_leads hk (hexports e he)).bind fun _ _ =>
            checkPendingTypes_leads hk

end Check

/-! ## Analyses -/

section Analyses

variable {resolver? : Option Resolver} {m : Module}

/-- At the start of an analysis nothing has the name. -/
theorem Missing.importing_ofModule {k : Missing}
    (hhead : k.head = { name := m.name.name, kind := m.kind })
    (hmembers : ∀ module source, resolver?.bind (·.find? module) = some source →
      source.LacksMember k.name)
    (hnowhere : k.nowhere = true → ∀ module source,
      resolver?.bind (·.find? module) = some source →
        source.lookupFrom? SymbolTable.root k.name = none) :
    k.Importing resolver? false (.ofModule resolver? m) (.ofModule m) where
  resolver := rfl
  current := rfl
  outs _ := rfl
  holds := ⟨none, {
    head := hhead.symm
    faithful := faithful_ofModule resolver? m
    table := SymbolTable.standIn_new
    placeholder := fun _ h => by cases h
    reports := List.forall_mem_nil _
    pending := List.forall_mem_nil _
    outs := fun _ h => by cases h
    objects := List.forall_mem_nil _
    others := hmembers
    nowhere := hnowhere }, rfl⟩

/-- All reports on a module are where they are allowed, if nothing but a stand-in has the name,
and nothing is reported on the uses of the name once the imports are through. -/
theorem placed_of_spares {k : Missing}
    (hstart : k.Importing resolver? false (.ofModule resolver? m) (.ofModule m))
    (h : k.Spares (.module m))
    (hfound : ∀ i ∈ m.imports, ∀ e ∈ i.items m.name.name, ∀ source,
      resolver?.bind (·.find? e.1.name) = some source →
        k.name ∉ e.2.found e.1 source ∧ source.LacksMember k.name)
    (hafter : ∀ id?, id?.isSome = Check.importsName m k.name →
      ({ k with id? } : Missing).Silent ∧ Check.Notes { k with id? }) :
    ∀ d ∈ (analyze resolver? m).diagnostics, k.place d.span := by
  have hname : k.Allows m.name := h.allows (.head _) (.head _) rfl
  have hown : m.name.name = k.head.name :=
    congrArg ModuleHead.name ((k.importing resolver? false).head hstart)
  let symbol : Symbol := { name := m.name.name, kind := .module, span := m.name.span }
  have named : Check.Leads (k.importing resolver? false) (k.importing resolver? false)
      (fun _ => True) (Check.define symbol) :=
    Check.define_leads hname.ne hname.span (by intro h; cases h)
  have started : Check.Leads (k.importing resolver? false)
      (k.importing resolver? (Check.importsName m k.name)) (fun _ => True)
      (do let _ ← Check.define symbol; m.imports.forM Check.importClause) :=
    named.bind fun _ _ => Check.checkImports_leads h hown hfound
  obtain ⟨himported, -⟩ := started _ _ hstart
  obtain ⟨id?, hs, hid⟩ := himported.holds
  obtain ⟨hsilent, hnotes⟩ := hafter id? hid
  have hspares : ({ k with id? } : Missing).Spares (.module m) := ⟨h.covers, h.others, h.mentioned⟩
  obtain ⟨hchecked, -⟩ := Check.checkDecls_leads hsilent hnotes hspares _ _ hs
  intro d hd
  exact hchecked.reports d (mem_diagnostics.1 hd)

/-- The name at the start of an analysis, where nothing has it. -/
def Module.missing (m : Module) (name : String) : Missing where
  head := { name := m.name.name, kind := m.kind }
  place span := ∃ n, (Node.module m).Beside (some name) n ∧ n.span = span
  name := name
  id? := none

namespace Module.Misses

variable {name : String}

theorem spares (h : m.Misses resolver? name) : (m.missing name).Spares (.module m) where
  covers n hn := ⟨n, hn, rfl⟩
  others := h.undeclared
  mentioned _ _ _ _ _ := trivial

theorem importsName (h : m.Misses resolver? name) : Check.importsName m name = true := by
  obtain ⟨i, hi, e, he, hlocal⟩ := h.imported
  exact List.any_eq_true.2 ⟨i, hi, List.any_eq_true.2 ⟨e, he, decide_eq_true hlocal⟩⟩

end Module.Misses

/-- **Names that are not found.**  FROM imports are to bring in a name, and do not find it.  If
nothing else has the name, then all reports on the module stand beside its uses: nothing is
reported on a value or type that is the name, nor on a field, element or method of it.  The name
of an object implementation is no use. -/
theorem reported_beside {resolver? : Option Resolver} {m : Module} {name : String}
    (h : m.Misses resolver? name) : ∀ d ∈ (analyze resolver? m).diagnostics,
      ∃ n, (Node.module m).Beside (some name) n ∧ n.span = d.span := by
  refine placed_of_spares (k := m.missing name)
    (Missing.importing_ofModule rfl h.members fun h => by cases h) h.spares
    (fun i hi e he source hs => ⟨h.unfound i hi e he source hs, h.members _ source hs⟩)
    fun id? hid => ?_
  obtain ⟨id, rfl⟩ := Option.isSome_iff_exists.1 (hid.trans h.importsName)
  exact ⟨Check.silent_of_declared rfl, fun h => by cases h⟩

end Analyses

/-- `Q` is imported from a module that is not known, which is reported.  It is used as a type, as
a value with a field, and as a place, which is not. -/
theorem reported_beside_unknown :
    let place (offset length : Nat) : Span :=
      ⟨⟨1, offset + 1, offset⟩, ⟨1, offset + length + 1, offset + length⟩⟩
    let q (offset : Nat) : Ident := ⟨"Q", place offset 1⟩
    let lib : Ident := ⟨"Lib", place 15 3⟩
    let v (offset : Nat) : Ident := ⟨"v", place offset 1⟩
    let m : Module := ⟨.plain, ⟨"M", place 7 1⟩,
      [.names lib [⟨q 26, none, false, place 26 1⟩] (place 10 18)], [],
      [.var ⟨[v 33], .named (.ofIdent (q 36)), none, place 33 4⟩],
      some [.assign (.name (v 45)) (.field (.name (q 50)) ⟨"x", place 52 1⟩ (place 50 3)) (place 45 8),
        .assign (.name (q 55)) (.integer 1 (place 60 1)) (place 55 6)], place 0 73⟩
    m.Misses (some []) "Q" ∧ (analyze (some []) m).diagnostics.map (·.span) = [lib.span] ∧
      ∀ d ∈ (analyze (some []) m).diagnostics,
        ∃ n, (Node.module m).Beside (some "Q") n ∧ n.span = d.span := by
  intro place q lib v m
  have hmisses : m.Misses (some []) "Q" := by
    have hdeclares : (Node.module m).preorder.flatMap Node.declares = [⟨"M", place 7 1⟩, v 33] := by
      decide +kernel
    refine ⟨⟨_, .head _, _, .head _, rfl⟩, ?_, fun n hn i hi => ?_, ?_⟩
    · intro _ _ _ _ _ h
      cases h
    · have hdeclared := List.mem_flatMap.2 ⟨n, hn, hi⟩
      rw [hdeclares] at hdeclared
      rcases List.mem_pair.1 hdeclared with rfl | rfl <;> decide
    · intro _ _ h
      cases h
  exact ⟨hmisses, by decide +kernel, reported_beside hmisses⟩

/-! ## Missing names -/

/-- The name is empty, and nothing has it. -/
structure Missing.Empty (k : Missing) : Prop where
  name : k.name = ""
  undeclared : k.id? = none
  nowhere : k.nowhere = true

namespace Check

variable {k : Missing} (hk : k.Empty) {i : Ident} (hi : i.name = k.name)

include hk

/-! ## Uses of a missing name -/

theorem exported_empty :
    k.Known fun t => ∀ m symbol, t.exported? m k.name = some symbol → False := by
  intro _ _ hs m t ht module symbol h
  unfold SymbolTable.exported? at h
  rw [hs.nowhere hk.nowhere m t ht] at h
  cases h

theorem lookupExternal_empty :
    Yields k.standing (fun found => ∀ b, found ≠ .found b) (lookupExternal k.name) :=
  (lookupExternal_found (exported_empty hk)).mono fun _ h b hb =>
    have ⟨_, _, hfalse⟩ := h b hb
    hfalse

include hi

theorem nameIn_empty (scopes : List Nat) : Yields k.standing (· = none) (nameIn i scopes) := by
  induction scopes with
  | nil => exact .pure rfl
  | cons scope scopes ih =>
    refine .table fun env s hs => ?_
    have hfree : s.table.declared? scope k.name = none := by
      by_cases hscope : scope = SymbolTable.root
      · rw [hscope, hs.table.root, hk.undeclared]
      · exact hs.table.only scope hscope
    rw [hi, hfree]
    refine (objectMemberAt_yields scope hi).bind fun b? hb? => ?_
    obtain rfl := hb?
    exact ih

/-- A missing name means nothing, and that goes unreported. -/
theorem resolveName_empty : Yields k.standing (· = none) (resolveName i) := by
  refine .table fun env s _ => (nameIn_empty hk hi _).bind fun b? hb? => ?_
  obtain rfl := hb?
  have hname : i.name = "" := hi.trans hk.name
  have hbuiltin : isBuiltinName i.name = false := by rw [hname]; rfl
  have hmissing : i.isMissing = true := by rw [Ident.isMissing, hname]; rfl
  rw [hbuiltin, hi, hmissing]
  refine (lookupExternal_empty hk).bind fun found hfound => ?_
  cases found with
  | found b => exact absurd rfl (hfound b)
  | unknowable => exact .pure rfl
  | missing => exact .pure rfl

theorem moduleMember_empty (member : Ident) :
    Yields k.standing (· = none) (moduleMember i member) := by
  refine .table fun env s hs => ?_
  rw [hi, hs.table.lookupId?, hk.undeclared]
  exact .pure rfl

omit hi in
/-- On uses of a missing name nothing is reported. -/
theorem silent_of_empty : k.Silent where
  read _ hi := (resolveName_empty hk (Option.some.inj hi).symm).bind fun b? hb? => by
    obtain rfl := hb?
    exact .pure rfl
  write _ hi := (resolveName_empty hk (Option.some.inj hi).symm).bind fun b? hb? => by
    obtain rfl := hb?
    exact .pure rfl
  member _ member hi := moduleMember_empty hk (Option.some.inj hi).symm member

end Check

/-! ## Modules -/

/-- Nothing has the empty name: neither what the module declares or its FROM imports find, nor
what other modules declare, nor a member of their object types. -/
structure Module.AllNamed (resolver? : Option Resolver) (m : Module) : Prop where
  declared : ∀ n ∈ (Node.module m).preorder, ∀ i ∈ n.declares, i.name ≠ ""
  found : ∀ i ∈ m.imports, ∀ e ∈ i.items m.name.name, ∀ source,
    resolver?.bind (·.find? e.1.name) = some source → "" ∉ e.2.found e.1 source
  members : ∀ module source, resolver?.bind (·.find? module) = some source →
    source.LacksMember ""
  exports : ∀ module source, resolver?.bind (·.find? module) = some source →
    source.lookupFrom? SymbolTable.root "" = none

/-- Where reports on a module with missing names are allowed. -/
def Module.Reportable (m : Module) (span : Span) : Prop :=
  (∃ n, (Node.module m).Beside (some "") n ∧ n.span = span) ∨
    ∃ n ∈ (Node.module m).preorder, ∃ i ∈ n.mentions, i.isMissing = true ∧ i.span = span

/-- The empty name at the start of an analysis. -/
def Module.unnamed (m : Module) : Missing where
  head := { name := m.name.name, kind := m.kind }
  place := m.Reportable
  name := ""
  id? := none
  mentioned := m.Reportable
  nowhere := true

theorem Module.AllNamed.spares {resolver? : Option Resolver} {m : Module}
    (h : m.AllNamed resolver?) : m.unnamed.Spares (.module m) where
  covers n hn := .inl ⟨n, hn, rfl⟩
  others := h.declared
  mentioned n hn i hi hname := .inr ⟨n, hn, i, hi, by rw [Ident.isMissing, hname]; rfl, rfl⟩

/-- **Missing names.**  If nothing has the empty name, then all reports on a module stand beside
its uses, or where the name of a type or an export is missing: nothing is reported on a missing
value, loop variable or target of a call, nor on a field, element or method of it. -/
theorem reported_beside_missing {resolver? : Option Resolver} {m : Module}
    (h : m.AllNamed resolver?) :
    ∀ d ∈ (analyze resolver? m).diagnostics, m.Reportable d.span := by
  refine placed_of_spares (k := m.unnamed)
    (Missing.importing_ofModule rfl h.members fun _ => h.exports) h.spares
    (fun i hi e he source hs => ⟨h.found i hi e he source hs, h.members _ source hs⟩)
    fun id? _ => ⟨?_, fun _ _ hmentioned => hmentioned⟩
  cases id? with
  | some id => exact Check.silent_of_declared rfl
  | none => exact Check.silent_of_empty ⟨rfl, rfl, rfl⟩

/-- `VAR v: ;`, `FOR := v TO v DO END FOR` and `ASK ;`: the missing type is reported, the missing
loop variable and the missing object are not. -/
theorem reported_beside_missing_loop :
    let place (offset length : Nat) : Span :=
      ⟨⟨1, offset + 1, offset⟩, ⟨1, offset + length + 1, offset + length⟩⟩
    let missing (offset : Nat) : Ident := ⟨"", place offset 0⟩
    let v (offset : Nat) : Ident := ⟨"v", place offset 1⟩
    let m : Module := ⟨.plain, ⟨"M", place 7 1⟩, [], [],
      [.var ⟨[v 14], .named (.ofIdent (missing 17)), none, place 14 4⟩],
      some [.for_ (missing 29) (.name (v 32)) .up (.name (v 37)) none [] (place 25 24),
        .ask ⟨.name (missing 55), missing 55, [], place 51 3⟩ (place 51 3)], place 0 68⟩
    m.AllNamed (some []) ∧ (analyze (some []) m).diagnostics.map (·.span) = [(missing 17).span] ∧
      ∀ d ∈ (analyze (some []) m).diagnostics, m.Reportable d.span := by
  intro place missing v m
  have hnamed : m.AllNamed (some []) := by
    have hdeclares : (Node.module m).preorder.flatMap Node.declares = [⟨"M", place 7 1⟩, v 14] := by
      decide +kernel
    refine ⟨fun n hn i hi => ?_, List.forall_mem_nil _, nofun, nofun⟩
    have hdeclared := List.mem_flatMap.2 ⟨n, hn, hi⟩
    rw [hdeclares] at hdeclared
    rcases List.mem_pair.1 hdeclared with rfl | rfl <;> decide
  exact ⟨hnamed, by decide +kernel, reported_beside_missing hnamed⟩

end SimFront
