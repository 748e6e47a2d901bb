import SimFront.Proofs.Check.PerformsDecl
import SimFront.Proofs.Check.Visits

/-!
# Reports on OUT parameters

The check of a routine without routines inside comes across its local declarations and its
statements in the order in which they are evaluated.  So it reports an OUT parameter to be read too
early just if the first access to it is a read, and never to be assigned just if no access is a
write (`outParam_reports`).
-/

namespace SimFront

/-- The report that an OUT parameter was never assigned. -/
def Diagnostic.neverAssigned (x : Symbol) : Diagnostic :=
  .warning .outNeverAssigned x.span s!"OUT parameter '{x.name}' is never assigned"

/-- The report that a symbol is unused. -/
def Diagnostic.unused (x : Symbol) : Diagnostic :=
  .warning .unusedSymbol x.span s!"unused {x.kind.text} '{x.name}'"

/-- A declaration without the body of a procedure or a method. -/
def Decl.bodiless : Decl → Bool
  | .procedure d => d.isForward
  | .objectImpl d => d.methods.isEmpty
  | .type _ | .const _ | .var _ => true

namespace Check

variable {env : Env} {s : CheckState} {p : Nat} {name : String}

/-! ## Declarations without bodies -/

theorem implementedObject_carries (object : Ident) :
    Carries env p name (fun _ => []) (implementedObject object) := by
  refine .of_performs fun s hp => ?_
  have hs := hp.faithful
  unfold implementedObject
  refine (findObject_performs hs none object.name).then hs fun o? => ?_
  extract_lets finish rest
  have found (u : Unit) : Performs env s p name [] (rest u) := by
    unfold rest
    refine .table (fun t rs => by simp only [lookupId?_references]; rfl) ?_
    split
    · split
      · exact (refer_performs _ _).then hs fun _ => .pure _
      · exact .pure _
    · exact .pure _
  split
  · refine (suppressUnknown_performs hs).then hs fun suppressed => ?_
    split
    · exact found ()
    · exact (error_performs (by decide) _ _).then hs found
  · exact found ()

theorem checkBodies_carries {locals : List Decl} (h : ∀ d ∈ locals, d.bodiless) :
    Carries env p name (fun _ => []) (checkBodies locals) := by
  induction locals with
  | nil =>
    rw [checkBodies]
    exact .pure _
  | cons d ds ih =>
    rw [checkBodies]
    refine Carries.then ?_ fun _ => ih fun d hd => h d (.tail _ hd)
    have hd := h d (.head _)
    cases d with
    | type d | const d | var d =>
      rw [checkBodyOf]
      exact .pure _
    | procedure d =>
      obtain ⟨heading, locals, body, isForward, span⟩ := d
      rw [checkBodyOf, if_pos (show isForward = true from hd)]
      exact .pure _
    | objectImpl d =>
      obtain ⟨object, methods, span⟩ := d
      obtain rfl : methods = [] := List.isEmpty_iff.1 hd
      rw [checkBodyOf, checkMethods]
      refine (implementedObject_carries object).then fun o? => ?_
      have inside (resolved : Bool) : Carries env p name (fun _ => []) (inScope .object span do
          let context : ObjectContext := ⟨← currentScope, o?, resolved⟩
          withReader (fun env => { env with objects := context :: env.objects }) (pure ())) :=
        inScope_carries .object span <| currentScope_carries.then fun scope => Carries.pure ()
      cases o? with
      | none => exact inside false
      | some o =>
        exact (Carries.of_performs fun s hp => chainResolved_performs hp.faithful o).then inside

/-! ## Parameters -/

/-- An OUT parameter that a scope declares. -/
def IsOut (t : SymbolTable) (scope id : Nat) : Prop :=
  ∃ x, t.symbol? id = some x ∧ x.kind = .parameter ∧ x.mode? = some .out ∧
    t.declared? scope x.name = some id

theorem IsOut.grown {t t' : SymbolTable} {scope id : Nat} (h : IsOut t scope id)
    (ht : t.Reachable) (hgrows : t.Grows t') : IsOut t' scope id := by
  obtain ⟨F, hopened⟩ := hgrows
  obtain ⟨x, hx, hkind, hmode, hdeclared⟩ := h
  obtain ⟨x', hx', -, -, -, hsame⟩ := hopened.keepsSymbols ht id x hx
  obtain ⟨type, rfl⟩ := hsame (by rw [hkind]; decide)
  exact ⟨_, hx', hkind, hmode, hopened.keepsNames ht _ _ _ hdeclared⟩

/-- The step declares OUT parameters of the current scope: those among `known` may be declared
already.  It reports no more than that names are taken. -/
def DeclaresOuts {α : Type} (env : Env) (known : List Nat) (outs : α → List Nat) (step : Check α) :
    Prop :=
  ∀ s, s.Faithful env → s.table.Reachable → (∀ id ∈ known, IsOut s.table s.table.current id) →
    s.table.Grows (stateAfter env step s).table ∧ (stateAfter env step s).Faithful env ∧
    (∃ more, (stateAfter env step s).reports = more ++ s.reports ∧
      ∀ d ∈ more, d.code = .duplicateDefinition) ∧
    ∀ id ∈ outs (step.outcome env s).1, IsOut (stateAfter env step s).table s.table.current id

section DeclaresOuts

variable {α β : Type} {known : List Nat} {outs : α → List Nat} {outs' : β → List Nat}

theorem DeclaresOuts.pure {a : α} (h : outs a ⊆ known) :
    DeclaresOuts env known outs (Pure.pure a : Check α) := fun _ hs _ hknown =>
  ⟨.refl _, hs, ⟨[], rfl, List.forall_mem_nil _⟩, fun id hid => hknown id (h hid)⟩

theorem DeclaresOuts.bind {step : Check α} {f : α → Check β}
    (h : DeclaresOuts env [] outs step)
    (hf : ∀ a, DeclaresOuts env (known ++ outs a) outs' (f a)) :
    DeclaresOuts env known outs' (step >>= f) := by
  intro s hs ht hknown
  obtain ⟨hgrows, hs', ⟨more, hmore, hcode⟩, hout⟩ := h s hs ht (List.forall_mem_nil _)
  obtain ⟨ht', -, hcurrent⟩ := hgrows.choose_spec.reachable ht
  obtain ⟨hgrows', hs'', ⟨more', hmore', hcode'⟩, hout'⟩ := hf (step.outcome env s).1 _ hs' ht' <| by
    rw [hcurrent]
    exact List.forall_mem_append.2 ⟨fun id hid => (hknown id hid).grown ht hgrows, hout⟩
  rw [hcurrent] at hout'
  refine ⟨hgrows.trans hgrows', hs'', ⟨more' ++ more, ?_, List.forall_mem_append.2 ⟨hcode', hcode⟩⟩,
    hout'⟩
  rw [List.append_assoc, ← hmore]
  exact hmore'

end DeclaresOuts

theorem define_declaresOuts {parameter : Symbol} {mode : ParamMode}
    (hkind : parameter.kind = .parameter) (hmode : parameter.mode? = some mode) :
    DeclaresOuts env [] (fun id? => if mode = .out then id?.toList else []) (define parameter) := by
  intro s hs ht _
  have hfaithful := ((define_byName parameter).faithful rfl hs).1
  obtain ⟨id, t, hdefine, hstate⟩ | ⟨-, d, -, hcode, hstate⟩ := define_outcome parameter env s
  · rw [hstate] at hfaithful
    rw [stateAfter, hstate]
    refine ⟨.declare hdefine, hfaithful, ⟨[], rfl, List.forall_mem_nil _⟩, fun i hi => ?_⟩
    dsimp only at hi
    by_cases hout : mode = .out
    · rw [if_pos hout] at hi
      obtain rfl : id = i := Option.some.inj (Option.mem_toList.1 hi)
      exact ⟨_, (SymbolTable.symbol?_defineIn hdefine id).trans (if_pos rfl), hkind,
        hmode.trans (congrArg some hout),
        (SymbolTable.declared?_defineIn hdefine ht.consistent.current _).trans (if_pos rfl)⟩
    · rw [if_neg hout] at hi
      cases hi
  · rw [hstate] at hfaithful
    rw [stateAfter, hstate]
    refine ⟨.refl _, hfaithful, ⟨[d], rfl, List.forall_mem_singleton.2 hcode⟩, fun i hi => ?_⟩
    dsimp only [Option.toList_none] at hi
    rw [ite_self] at hi
    cases hi

theorem defineParams_declaresOuts (mode : ParamMode) (names : List Ident) (types : List ParamType) :
    DeclaresOuts env [] Prod.fst (defineParams mode names types) := by
  induction names generalizing types with
  | nil => exact .pure (List.Subset.refl _)
  | cons n ns ih =>
    unfold defineParams
    exact (define_declaresOuts rfl rfl).bind fun id? => (ih types.tail).bind fun r =>
      .pure (List.Subset.refl _)

theorem defineAllParams_declaresOuts (params : List Param) (types : List ParamType) :
    DeclaresOuts env [] id (defineAllParams params types) := by
  induction params generalizing types with
  | nil => exact .pure (List.Subset.refl _)
  | cons param rest ih =>
    obtain ⟨mode, names, spec, span⟩ := param
    unfold defineAllParams
    exact (defineParams_declaresOuts mode names types).bind fun r => (ih r.2).bind fun others =>
      .pure (List.Subset.refl _)

/-! ## Routines -/

theorem code_of_isReadEarly {d : Diagnostic} (h : d.isReadEarly name) :
    d.code = .outReadBeforeAssign := by
  rw [of_decide_eq_true h]
  rfl

/-- Of a parameter that nothing was done with, the first access is reported if it is a read. -/
theorem early_unaccessed (as : List Access) :
    ({} : OutState).early as = ((as.head?.filter (!·.isWrite)).map (·.span)).toList := by
  cases as with
  | nil => rfl
  | cons a as =>
    rw [OutState.early_cons, List.head?_cons, Option.filter_some]
    cases a.isWrite <;> rfl

theorem filter_isReadEarly {more : List Diagnostic} {as : List Access}
    (h : more.reverse.filter (·.isReadEarly name) =
      (({} : OutState).early as).map (.readEarly name)) :
    more.filter (·.isReadEarly name) =
      ((as.head?.filter (!·.isWrite)).map fun a => .readEarly name a.span).toList := by
  rw [List.filter_reverse, early_unaccessed] at h
  rw [← List.reverse_reverse (more.filter _), h]
  cases as.head?.filter (!·.isWrite) <;> rfl

/-- At the end of a routine a variable or a parameter is reported as an OUT parameter that was never
assigned, or as unused. -/
theorem of_unusedReport? {id : Nat} {d : Diagnostic} (h : unusedReport? s id = some d) :
    ∃ y, s.table.symbol? id = some y ∧ (y.kind = .var ∨ y.kind = .parameter) ∧
      (d = .neverAssigned y ∧ (List.lookup id s.outParams).any (!·.assigned) ∨
        d = .unused y ∧ s.table.referenceCount id = 0) := by
  unfold unusedReport? at h
  split at h
  · cases h
  · next y hy =>
    split at h
    · next hkind =>
      refine ⟨y, hy, hkind, ?_⟩
      split at h
      · next hout => exact .inl ⟨(Option.some.inj h).symm, hout⟩
      · split at h
        · next hzero => exact .inr ⟨(Option.some.inj h).symm, hzero⟩
        · cases h
    · cases h

/-- The report on an OUT parameter tells its name. -/
theorem neverAssigned_name {x y : Symbol} (h : Diagnostic.neverAssigned y = .neverAssigned x) :
    y.name = x.name := by
  have hmessage := congrArg (fun d => d.message.toList) h
  simp only [Diagnostic.neverAssigned, Diagnostic.warning, String.toList_append,
    List.append_cancel_left_eq, List.append_cancel_right_eq] at hmessage
  exact String.toList_injective hmessage

namespace Visit

variable {v : Visit}

/-- The accesses to a parameter of a routine, in the order in which they are evaluated. -/
def accesses (v : Visit) (p : Nat) : List Access :=
  declsAccesses v.inside p v.started v.routine.locals ++
    blockAccesses (stateAfter v.inside (checkBodies v.routine.locals) v.declared) p v.inside
      v.routine.body

variable (hv : Orderly v.env v.state)

include hv

/-- The OUT parameters are declared in the scope of the routine. -/
theorem opened_outs : v.state.table.scopes.size = v.opened.table.current ∧
    (∀ p ∈ v.outs, IsOut v.opened.table v.opened.table.current p) ∧
    ∃ more, v.opened.reports = more ++ v.state.reports ∧
      ∀ d ∈ more, d.code = .duplicateDefinition := by
  have hentered := hv.entered v.routine.kind v.routine.span
  obtain ⟨hgrows, -, hreports, houts⟩ := defineAllParams_declaresOuts v.routine.params
    v.routine.signature.params _ hentered.faithful hentered.reachable (List.forall_mem_nil _)
  have hcurrent : v.opened.table.current = v.state.table.scopes.size :=
    (hgrows.choose_spec.reachable hentered.reachable).2.2
  refine ⟨hcurrent.symm, fun p hp => ?_, hreports⟩
  rw [hcurrent]
  exact houts p hp

omit hv in
theorem started_outParams : v.started.outParams = v.outs.map fun id => (id, {}) := rfl

omit hv in
theorem started_outs : v.started.outParams.map Prod.fst = v.outs := by
  rw [started_outParams, List.map_map]
  exact List.map_id' v.outs

theorem outParam_started {p : Nat} (hp : p ∈ v.outs) {x : Symbol}
    (hx : v.opened.table.symbol? p = some x) : OutParam v.inside v.started p x.name := by
  obtain ⟨hcurrent, houts, -⟩ := opened_outs hv
  have hstarted := started_orderly hv
  obtain ⟨x', hx', hkind, -, hdeclared⟩ := houts p hp
  obtain rfl : x' = x := Option.some.inj (hx'.symm.trans hx)
  refine ⟨hstarted.faithful, hstarted.reachable, ⟨_, v.started.table.self_mem_enclosing _, hdeclared,
    fun c hc => ?_⟩, ⟨x', hx, hkind⟩, fun q hq => ?_⟩
  · rw [show v.started.table.current = _ from hcurrent.symm]
    exact hv.objects c hc
  · rw [started_outs] at hq
    obtain ⟨y, hy, -, -, hother⟩ := houts q hq
    refine ⟨y, hy, fun hname => ?_⟩
    rw [hname, hdeclared] at hother
    exact (Option.some.inj hother).symm

theorem finished_carries (hlocals : ∀ d ∈ v.routine.locals, d.bodiless) {p : Nat} (hp : p ∈ v.outs)
    {x : Symbol} (hx : v.opened.table.symbol? p = some x) :
    v.started.table.Grows v.finished.table ∧
      v.started.Accessed p x.name (v.accesses p) v.finished := by
  have body : Carries v.inside p x.name (fun s => blockAccesses s p v.inside v.routine.body)
      (checkBlock v.routine.body) := .of_performs fun s hp => checkBlock_performs hp _
  obtain ⟨hgrows, -, haccessed⟩ := (declareAll_carries v.routine.locals).bind
    (fun _ => (checkBodies_carries hlocals).after fun _ => body) _ (outParam_started hv hp hx)
  exact ⟨hgrows, haccessed⟩

theorem unassigned_iff (hlocals : ∀ d ∈ v.routine.locals, d.bodiless) {p : Nat} (hp : p ∈ v.outs) :
    (List.lookup p v.finished.outParams).any (!·.assigned) ↔
      ∀ a ∈ v.accesses p, a.isWrite = false := by
  obtain ⟨x, hx, -⟩ := (opened_outs hv).2.1 p hp
  have hstate := (finished_carries hv hlocals hp hx).2.state
  rw [started_outParams, lookup_unassigned, if_pos hp] at hstate
  rw [hstate, Option.map_some, Option.any_some, Bool.not_eq_true', ← Bool.not_eq_true,
    OutState.assigned_after]
  simp

theorem finished_outs (hlocals : ∀ d ∈ v.routine.locals, d.bodiless) {p : Nat} (hp : p ∈ v.outs) :
    IsOut v.finished.table v.finished.table.current p := by
  have hreachable := (started_orderly hv).reachable
  have hopened := (opened_outs hv).2.1 p hp
  obtain ⟨x, hx, -⟩ := id hopened
  obtain ⟨hgrows, -⟩ := finished_carries hv hlocals hp hx
  rw [(hgrows.choose_spec.reachable hreachable).2.2]
  exact IsOut.grown hopened hreachable hgrows

omit hv in
/-- At the end of a routine no early reads are reported. -/
theorem not_isReadEarly_of_mem_unused {d : Diagnostic} (hd : d ∈ v.unused) (name : String) :
    ¬ d.isReadEarly name := by
  intro h
  obtain ⟨q, -, hq⟩ := List.mem_filterMap.1 hd
  obtain ⟨y, -, -, ⟨rfl, -⟩ | ⟨rfl, -⟩⟩ := of_unusedReport? hq <;> cases code_of_isReadEarly h

/-- At the end of the routine the parameter is reported, if at all, under its own name. -/
theorem mem_unused_iff (hlocals : ∀ d ∈ v.routine.locals, d.bodiless) {p : Nat} (hp : p ∈ v.outs)
    {x : Symbol} (hx : v.finished.table.symbol? p = some x) :
    .neverAssigned x ∈ v.unused ↔ (List.lookup p v.finished.outParams).any (!·.assigned) := by
  obtain ⟨x', hx', hkind, -, hdeclared⟩ := finished_outs hv hlocals hp
  obtain rfl : x' = x := Option.some.inj (hx'.symm.trans hx)
  constructor
  · intro h
    obtain ⟨q, -, hq⟩ := List.mem_filterMap.1 h
    obtain ⟨y, hy, -, ⟨heq, hunassigned⟩ | ⟨heq, -⟩⟩ := of_unusedReport? hq
    · -- the parameter that is reported has the same name
      have hmem : q ∈ v.outs := by
        obtain ⟨x, hx, -⟩ := (opened_outs hv).2.1 p hp
        rw [← started_outs, ← (finished_carries hv hlocals hp hx).2.outs]
        cases ho : List.lookup q v.finished.outParams with
        | none =>
          rw [ho] at hunassigned
          cases hunassigned
        | some o => exact mem_keys_of_lookup ho
      obtain ⟨y', hy', -, -, hother⟩ := finished_outs hv hlocals hmem
      obtain rfl : y' = y := Option.some.inj (hy'.symm.trans hy)
      rw [neverAssigned_name heq.symm, hdeclared] at hother
      obtain rfl := Option.some.inj hother
      exact hunassigned
    · cases heq
  · intro h
    refine List.mem_filterMap.2 ⟨p, SymbolTable.mem_symbolsIn.2 ?_, ?_⟩
    · rw [SymbolTable.declared?_eq_lookup] at hdeclared
      obtain ⟨l, r, hnames, -⟩ := List.lookup_eq_some_iff.1 hdeclared
      exact ⟨(x'.name, p), hnames ▸ List.mem_append_right l (.head _), rfl⟩
    · unfold unusedReport?
      rw [hx]
      dsimp only
      rw [if_pos (.inr hkind), if_pos h]
      rfl

end Visit

end Check

open Check

/-- Whichever routine without routines inside the analysis of a module comes across: each of its
OUT parameters is reported never to be assigned just if no access to it is a write, and it is
reported to be read too early just if the first access is a read, which is then the one place
that is reported.  What the routine reports is reported by the analysis. -/
theorem outParam_reports {resolver? : Option Resolver} {m : Module} {v : Visit}
    (hv : v ∈ m.visits resolver?) (hlocals : ∀ d ∈ v.routine.locals, d.bodiless) {p : Nat}
    (hp : p ∈ v.outs) :
    ∃ x reports, v.ended.table.symbol? p = some x ∧ x.kind = .parameter ∧ x.mode? = some .out ∧
      v.ended.reports = reports ++ v.state.reports ∧ reports ⊆ (analyze resolver? m).diagnostics ∧
      (.neverAssigned x ∈ reports ↔ ∀ a ∈ v.accesses p, a.isWrite = false) ∧
      reports.filter (·.isReadEarly x.name) = (((v.accesses p).head?.filter (!·.isWrite)).map
        fun a => .readEarly x.name a.span).toList := by
  have hreported := reported_of_mem_visits hv
  have hv := orderly_of_mem_visits hv
  have hout := Visit.unassigned_iff hv hlocals hp
  obtain ⟨-, houts, first, hfirst, hduplicate⟩ := Visit.opened_outs hv
  obtain ⟨x, hx, -⟩ := houts p hp
  obtain ⟨hgrows, haccessed⟩ := Visit.finished_carries hv hlocals hp hx
  obtain ⟨more, hmore, hcode, hearly⟩ := haccessed.reports
  obtain ⟨y, hy, hkind, hmode, -⟩ := Visit.finished_outs hv hlocals hp
  obtain ⟨x', hx', hname, -⟩ :=
    hgrows.choose_spec.keepsSymbols (Visit.started_orderly hv).reachable p x hx
  obtain rfl : x' = y := Option.some.inj (hx'.symm.trans hy)
  have hmem := Visit.mem_unused_iff hv hlocals hp hy
  have hall : v.ended.reports = v.unused.reverse ++ more ++ first ++ v.state.reports := by
    rw [v.ended_eq]
    dsimp only
    rw [hmore, show v.started.reports = _ from hfirst, List.append_assoc, List.append_assoc]
  refine ⟨x', v.unused.reverse ++ more ++ first, ?_, hkind, hmode, hall, fun d hd => ?_, ?_, ?_⟩
  · rw [v.ended_eq]
    obtain ⟨scope, hleave⟩ := v.finished.table.leave_eq
    dsimp only
    rw [hleave]
    exact hy
  · exact hreported (hall ▸ List.mem_append_left _ hd)
  · rw [← hout, ← hmem]
    refine ⟨fun h => ?_, fun h => List.mem_append_left _ (List.mem_append_left _ (List.mem_reverse.2 h))⟩
    rcases List.mem_append.1 h with h | h
    · rcases List.mem_append.1 h with h | h
      · exact List.mem_reverse.1 h
      · exact absurd rfl (hcode _ h)
    · exact nomatch hduplicate _ h
  · have hunread : v.unused.reverse.filter (·.isReadEarly x'.name) = [] :=
      List.filter_eq_nil_iff.2 fun d hd =>
        Visit.not_isReadEarly_of_mem_unused (List.mem_reverse.1 hd) x'.name
    have hdefined : first.filter (·.isReadEarly x'.name) = [] :=
      List.filter_eq_nil_iff.2 fun d hd h => nomatch (hduplicate d hd).symm.trans (code_of_isReadEarly h)
    rw [List.filter_append, List.filter_append, hunread, hdefined, List.nil_append, List.append_nil]
    refine filter_isReadEarly ?_
    rw [hname]
    exact hearly {} (by rw [Visit.started_outParams, lookup_unassigned, if_pos hp])

/-- A name at an offset in the line of `countModule`. -/
def countIdent (name : String) (offset : Nat) : Ident :=
  ⟨name, ⟨⟨offset, 1, offset + 1⟩, ⟨offset + name.length, 1, offset + name.length + 1⟩⟩⟩

/-- A procedure that sets its OUT parameter to the value of that parameter. -/
def countProcedure : ProcDecl where
  heading :=
    { name := countIdent "count" 25
      params := [⟨.out, [countIdent "n" 36], .named (.ofIdent (countIdent "INTEGER" 40)), default⟩]
      result := none
      span := default }
  locals := []
  body := [.assign (.name (countIdent "n" 56)) (.name (countIdent "n" 61)) default]
  isForward := false
  span := default

def countModule : Module where
  kind := .main
  name := countIdent "m" 12
  imports := []
  exports := []
  decls := [.procedure countProcedure]
  body := none
  span := default

theorem outParam_reports_count : ∃ v ∈ countModule.visits none,
    (∀ d ∈ v.routine.locals, d.bodiless) ∧ ∃ p ∈ v.outs,
      v.accesses p = [⟨false, (countIdent "n" 61).span⟩, ⟨true, (countIdent "n" 56).span⟩] ∧
      ∃ x reports, v.ended.reports = reports ++ v.state.reports ∧
        reports ⊆ (analyze none countModule).diagnostics ∧ .neverAssigned x ∉ reports ∧
        reports.filter (·.isReadEarly x.name) = [.readEarly x.name (countIdent "n" 61).span] := by
  let start : CheckState := stateAfter (.ofModule none countModule)
    (do checkFront countModule; declareAll countModule.decls) (.ofModule countModule)
  let v : Visit := ⟨.ofModule none countModule, start, procedureRoutine start countProcedure.heading
    countProcedure.locals countProcedure.body countProcedure.span⟩
  have hv : v ∈ countModule.visits none := by
    rw [Module.visits, show countModule.decls = [.procedure countProcedure] from rfl, visits]
    refine List.mem_append_left _ ?_
    rw [countProcedure, visitsOf, if_neg (by decide)]
    exact .head _
  have hout : 2 ∈ v.outs := by decide +kernel
  have haccesses : v.accesses 2 =
      [⟨false, (countIdent "n" 61).span⟩, ⟨true, (countIdent "n" 56).span⟩] := by decide +kernel
  obtain ⟨x, reports, -, -, -, hreports, hreported, hnever, hearly⟩ :=
    outParam_reports hv (List.forall_mem_nil _) hout
  rw [haccesses] at hnever hearly
  exact ⟨v, hv, List.forall_mem_nil _, 2, hout, haccesses, x, reports, hreports, hreported,
    fun h => (nomatch hnever.1 h _ (.tail _ (.head _))), hearly⟩

end SimFront
