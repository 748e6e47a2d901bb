import SimFront.Proofs.Check.AlikeDecl

/-!
# Bodies with a graft

What a routine leaves unused with the graft it leaves unused without it
(`unusedReport?_of_grafted`), since the graft may only add uses.  On trees that the graft
spares the checks of bodies do the same in both runs.
-/

namespace SimFront

namespace SymbolTable

theorem mem_symbolsIn {t : SymbolTable} {scope id : Nat} :
    id ∈ t.symbolsIn scope ↔ ∃ e ∈ t.namesOf scope, e.2 = id := by
  unfold symbolsIn namesOf
  cases t.scope? scope with
  | none => simp
  | some sc => rw [List.mem_mergeSort, List.mem_map, Option.map_some, Option.getD_some]

end SymbolTable

namespace Check

variable {α β : Type} {head : ModuleHead} {g : Graft}

/-! ## Unused symbols -/

/-- The report on a symbol at the end of its routine, if nothing was done with it. -/
def unusedReport? (s : CheckState) (id : Nat) : Option Diagnostic :=
  match s.table.symbol? id with
  | none => none
  | some symbol =>
    if symbol.kind = .var ∨ symbol.kind = .parameter then
      if (List.lookup id s.outParams).any (!·.assigned) then
        some (.warning .outNeverAssigned symbol.span
          s!"OUT parameter '{symbol.name}' is never assigned")
      else if s.table.referenceCount id = 0 then
        some (.warning .unusedSymbol symbol.span s!"unused {symbol.kind.text} '{symbol.name}'")
      else none
    else none

theorem outcome_reportUnused (id : Nat) (env : Env) (s : CheckState) :
    (reportUnused id).outcome env s =
      ((), { s with reports := (unusedReport? s id).toList ++ s.reports }) := by
  unfold reportUnused unusedReport?
  rw [outcome_bind, show (symbol? id).outcome env s = (s.table.symbol? id, s) from rfl]
  cases s.table.symbol? id with
  | none => rfl
  | some symbol =>
    dsimp only
    split
    · rw [outcome_get]
      split
      · rfl
      · rw [outcome_bind, show table.outcome env s = (s.table, s) from rfl]
        dsimp only
        split
        · rfl
        · rfl
    · rfl

theorem outcome_forM_reportUnused (ids : List Nat) (env : Env) (s : CheckState) :
    (ids.forM reportUnused).outcome env s =
      ((), { s with reports := (ids.filterMap (unusedReport? s)).reverse ++ s.reports }) := by
  induction ids generalizing s with
  | nil => rfl
  | cons id ids ih =>
    show (reportUnused id >>= fun _ => ids.forM reportUnused).outcome env s = _
    rw [outcome_bind, outcome_reportUnused, ih]
    -- whether a symbol is unused does not hang on the reports
    rw [show unusedReport? { s with reports := (unusedReport? s id).toList ++ s.reports } =
      unusedReport? s from rfl, List.filterMap_cons]
    cases unusedReport? s id with
    | none => rfl
    | some d => simp

/-- What is reported with the graft is reported of the same symbol without it. -/
theorem unusedReport?_of_grafted {env : Env} {s u : CheckState} (hs : s.Grafted g env u)
    {id : Nat} {d : Diagnostic} (h : unusedReport? u (g.symbol id) = some d) :
    ∃ d', unusedReport? s id = some d' ∧ d'.span = d.span := by
  unfold unusedReport? at h ⊢
  rw [hs.table.symbol] at h
  cases hsymbol : s.table.symbol? id with
  | none =>
    rw [hsymbol] at h
    cases h
  | some symbol =>
    rw [hsymbol] at h
    dsimp only [Option.map_some, Graft.move] at h ⊢
    split at h
    · next hkind =>
      rw [if_pos hkind]
      have hmatches := hs.outParams id
      -- with the graft a parameter may be assigned, and a symbol be used, where it is not
      -- without, but not the other way round
      have hassigned : (List.lookup (g.symbol id) u.outParams).any (!·.assigned) = true →
          (List.lookup id s.outParams).any (!·.assigned) = true := by
        cases ha : List.lookup id s.outParams with
        | none =>
          rw [ha] at hmatches
          cases hb : List.lookup (g.symbol id) u.outParams with
          | none => exact fun h => h
          | some b =>
            rw [hb] at hmatches
            exact hmatches.elim
        | some a =>
          rw [ha] at hmatches
          cases hb : List.lookup (g.symbol id) u.outParams with
          | none =>
            rw [hb] at hmatches
            exact hmatches.elim
          | some b =>
            rw [hb] at hmatches
            have himp := hmatches.1
            dsimp only [Option.any_some]
            cases hassigned : a.assigned with
            | false => exact fun _ => rfl
            | true =>
              rw [himp hassigned]
              exact fun h => h
      have hcount := hs.table.count id
      split at h
      · next hout =>
        obtain rfl := Option.some.inj h
        rw [if_pos (hassigned hout)]
        exact ⟨_, rfl, rfl⟩
      · split at h
        · next hzero =>
          obtain rfl := Option.some.inj h
          split
          · exact ⟨_, rfl, rfl⟩
          · rw [if_pos (Nat.le_zero.1 (hzero ▸ hcount))]
            exact ⟨_, rfl, rfl⟩
        · cases h
    · cases h

/-- The graft brings in nothing that is reported as unused. -/
theorem unusedReport?_new {env : Env} {s u : CheckState} (hs : s.Grafted g env u) {id : Nat}
    (hid : g.NewSymbol id) : unusedReport? u id = none := by
  unfold unusedReport?
  cases hsymbol : u.table.symbol? id with
  | none => rfl
  | some symbol =>
    obtain ⟨-, hvar, hparameter⟩ := hs.table.added hid hsymbol
    exact if_neg fun h => h.elim hvar hparameter

theorem reportAllUnused_follow : Follow head g reportAllUnused reportAllUnused := by
  intro env s u _ hs
  unfold reportAllUnused
  rw [outcome_bind, outcome_bind, show table.outcome env s = (s.table, s) from rfl,
    show table.outcome (g.moveEnv env) u = (u.table, u) from rfl]
  dsimp only
  rw [outcome_forM_reportUnused, outcome_forM_reportUnused]
  refine ⟨trivial, { hs with
    faithful := hs.faithful.of_same rfl rfl rfl
    faithful' := hs.faithful'.of_same rfl rfl rfl
    reports := fun x hx => ?_ }, .refl _⟩
  rcases List.mem_append.1 hx with hx | hx
  · obtain ⟨id, hid, hx⟩ := List.mem_filterMap.1 (List.mem_reverse.1 hx)
    obtain ⟨e, he, rfl⟩ := SymbolTable.mem_symbolsIn.1 hid
    obtain ⟨j, id, hj, hid, hmem⟩ | hnew := hs.table.names _ e he
    · rw [hs.table.current, Graft.scope_inj] at hj
      subst hj
      rw [hid] at hx
      obtain ⟨d, hd, hspan⟩ := unusedReport?_of_grafted hs hx
      exact .inr ⟨d, List.mem_append_left _ (List.mem_reverse.2 (List.mem_filterMap.2
        ⟨id, SymbolTable.mem_symbolsIn.2 ⟨_, hmem, rfl⟩, hd⟩)), hspan⟩
    · rw [unusedReport?_new hs hnew] at hx
      cases hx
  · exact (hs.reports x hx).imp_right fun ⟨y, hy, heq⟩ => ⟨y, List.mem_append_right _ hy, heq⟩

/-! ## Parameters -/

theorem defineParams_alike (mode : ParamMode) {names : List Ident}
    (h : ∀ n ∈ names, g.Spares (.ident n)) {types : List ParamType}
    (htypes : ∀ p ∈ types, p.type.Avoids g.names) :
    Alike head g (fun a b => b = (a.1.map g.symbol, a.2) ∧ ∀ p ∈ a.2, p.type.Avoids g.names)
      (defineParams mode names types) (defineParams mode names types) := by
  induction names generalizing types with
  | nil => exact .pure ⟨rfl, htypes⟩
  | cons n ns ih =>
    have htype : Ty.Avoids g.names ((types.head?.map (·.type)).getD .unknown) := by
      cases types with
      | nil => trivial
      | cons p ps => exact htypes p (.head _)
    refine (define_alike (h n (.head _)).name htype (by intro h; cases h)).bind fun id? id?' hid => ?_
    subst hid
    refine (ih (fun n' hn => h n' (.tail _ hn)) fun p hp =>
      htypes p (List.mem_of_mem_tail hp)).bind fun a b hab => ?_
    obtain ⟨rfl, ha⟩ := hab
    refine .pure ⟨?_, ha⟩
    dsimp only
    rw [List.map_append]
    congr 2
    split
    · cases id? <;> rfl
    · rfl

theorem defineAllParams_alike {params : List Param} (h : ∀ p ∈ params, g.Spares (.param p))
    {types : List ParamType} (htypes : ∀ p ∈ types, p.type.Avoids g.names) :
    Alike head g (fun a b => b = a.map g.symbol) (defineAllParams params types)
      (defineAllParams params types) := by
  induction params generalizing types with
  | nil => exact .pure rfl
  | cons p rest ih =>
    obtain ⟨mode, names, spec, span⟩ := p
    refine (defineParams_alike mode ((h _ (.head _)).mapped (List.subset_append_left _ _)) htypes).bind
      fun a b hab => ?_
    obtain ⟨rfl, ha⟩ := hab
    refine (ih (fun p hp => h p (.tail _ hp)) ha).bind fun others others' hothers => ?_
    subst hothers
    exact .pure List.map_append.symm

/-- A symbol that was declared is in the table. -/
theorem define_lt (symbol : Symbol) (env : Env) (s : CheckState) :
    s.table.symbols.size ≤ ((define symbol).outcome env s).2.table.symbols.size ∧
    ∀ id, ((define symbol).outcome env s).1 = some id →
      id < ((define symbol).outcome env s).2.table.symbols.size := by
  unfold define
  rw [outcome_bind, show table.outcome env s = (s.table, s) from rfl]
  cases hdefine : s.table.define symbol with
  | error d => exact ⟨Nat.le_refl _, fun _ h => nomatch h⟩
  | ok result =>
    obtain ⟨id, t⟩ := result
    refine ⟨(SymbolTable.extends_defineIn hdefine).symbols, fun id' hid => ?_⟩
    obtain rfl : id = id' := Option.some.inj hid
    show id < t.symbols.size
    obtain ⟨-, rfl, rfl⟩ | ⟨previous, -, hprevious, -, -, -, rfl⟩ := SymbolTable.defineIn_cases hdefine
    · exact Nat.lt_of_lt_of_eq (Nat.lt_succ_self _) (Array.size_push _).symm
    · rw [Array.size_setIfInBounds]
      exact (Array.getElem?_eq_some_iff.1 hprevious).1

theorem defineParams_lt (mode : ParamMode) (names : List Ident) (types : List ParamType) (env : Env)
    (s : CheckState) :
    s.table.symbols.size ≤ ((defineParams mode names types).outcome env s).2.table.symbols.size ∧
    ∀ id ∈ ((defineParams mode names types).outcome env s).1.1,
      id < ((defineParams mode names types).outcome env s).2.table.symbols.size := by
  induction names generalizing types s with
  | nil => exact ⟨Nat.le_refl _, fun _ h => nomatch h⟩
  | cons n ns ih =>
    unfold defineParams
    dsimp only
    rw [outcome_bind, outcome_bind]
    let parameter : Symbol :=
      { name := n.name, kind := .parameter, type := (types.head?.map (·.type)).getD .unknown,
        span := n.span, mode? := some mode }
    obtain ⟨hle, hlt⟩ := define_lt parameter env s
    obtain ⟨hle', hlt'⟩ := ih types.tail _
    refine ⟨Nat.le_trans hle hle', fun id hid => ?_⟩
    rcases List.mem_append.1 hid with hid | hid
    · split at hid
      · exact Nat.lt_of_lt_of_le (hlt id (Option.mem_toList.1 hid)) hle'
      · cases hid
    · exact hlt' id hid

theorem defineAllParams_lt (params : List Param) (types : List ParamType) (env : Env)
    (s : CheckState) :
    s.table.symbols.size ≤ ((defineAllParams params types).outcome env s).2.table.symbols.size ∧
    ∀ id ∈ ((defineAllParams params types).outcome env s).1,
      id < ((defineAllParams params types).outcome env s).2.table.symbols.size := by
  induction params generalizing types s with
  | nil => exact ⟨Nat.le_refl _, fun _ h => nomatch h⟩
  | cons p rest ih =>
    obtain ⟨mode, names, spec, span⟩ := p
    unfold defineAllParams
    rw [outcome_bind, outcome_bind]
    obtain ⟨hle, hlt⟩ := defineParams_lt mode names types env s
    obtain ⟨hle', hlt'⟩ := ih ((defineParams mode names types).outcome env s).1.2
      ((defineParams mode names types).outcome env s).2
    refine ⟨Nat.le_trans hle hle', fun id hid => ?_⟩
    rcases List.mem_append.1 hid with hid | hid
    · exact Nat.lt_of_lt_of_le (hlt id hid) hle'
    · exact hlt' id hid

/-! ## Routines -/

theorem lookup_unassigned (outs : List Nat) (id : Nat) :
    List.lookup id (outs.map fun i => (i, ({} : OutState))) = if id ∈ outs then some {} else none := by
  induction outs with
  | nil => rfl
  | cons i outs ih =>
    rw [List.map_cons, List.lookup_cons, ih]
    by_cases h : id = i
    · simp [h]
    · simp [h, beq_false_of_ne h]

/-- The OUT parameters of a routine at its start. -/
theorem startRoutine_grafted {env : Env} {s u : CheckState} (hs : s.Grafted g env u)
    {outs : List Nat} (houts : ∀ id ∈ outs, id < s.table.symbols.size) :
    ({ s with outParams := outs.map fun id => (id, {}) } : CheckState).Grafted g env
      { u with outParams := (outs.map g.symbol).map fun id => (id, {}) } := by
  refine hs.withOutParams (fun id => ?_) fun e he => ?_
  · have hmem : g.symbol id ∈ outs.map g.symbol ↔ id ∈ outs :=
      List.mem_map_of_injective g.symbol_mono.injective
    rw [lookup_unassigned, lookup_unassigned]
    by_cases hid : id ∈ outs
    · rw [if_pos hid, if_pos (hmem.2 hid)]
      exact ⟨fun h => h, fun h => h⟩
    · rw [if_neg hid, if_neg (mt hmem.1 hid)]
      trivial
  · obtain ⟨id, hid, rfl⟩ := List.mem_map.1 he
    exact houts id hid

/-- At the end of a routine its unused symbols are reported, and the OUT parameters of the
routine around come back. -/
theorem closeRoutine_grafted {env : Env} {s u : CheckState} (hs : s.Grafted g env u)
    {around around' : List (Nat × OutState)}
    (houts : ∀ id, Graft.OutMatches (List.lookup id around) (List.lookup (g.symbol id) around'))
    (hlt : ∀ e ∈ around, e.1 < s.table.symbols.size) :
    ({ (reportAllUnused.outcome env s).2 with outParams := around } : CheckState).Grafted g env
        { (reportAllUnused.outcome (g.moveEnv env) u).2 with outParams := around' } ∧
      s.table.Returns (reportAllUnused.outcome env s).2.table := by
  obtain ⟨-, hs', hreturns⟩ := reportAllUnused_follow env s u rfl hs
  exact ⟨hs'.withOutParams houts fun e he => Nat.lt_of_lt_of_le (hlt e he) hreturns.symbols, hreturns⟩

theorem outcome_inRoutine (result? : Option Ty) (outs : List Nat) (p : Check Unit) (env : Env)
    (s : CheckState) : (inRoutine result? outs p).outcome env s =
      ((), { (reportAllUnused.outcome env (p.outcome { env with routine? := some result? }
        { s with outParams := outs.map fun id => (id, {}) }).2).2 with
          outParams := s.outParams }) := rfl

theorem fitsEnv_routine {env : Env} (h : g.FitsEnv env) {result? : Option Ty}
    (hresult : ∀ t, result? = some t → t.Avoids g.names) :
    g.FitsEnv { env with routine? := some result? } :=
  ⟨h.object, fun t ht => hresult t (Option.some.inj ht)⟩

theorem inRoutine_grafted {result? : Option Ty} (hresult : ∀ t, result? = some t → t.Avoids g.names)
    {p q : Check Unit} (h : Follow head g p q) {env : Env} (henv : env.head = head)
    {s u : CheckState} (hs : s.Grafted g env u) {outs : List Nat}
    (houts : ∀ id ∈ outs, id < s.table.symbols.size) :
    ((inRoutine result? outs p).outcome env s).2.Grafted g env
        ((inRoutine result? (outs.map g.symbol) q).outcome (g.moveEnv env) u).2 ∧
      s.table.Returns ((inRoutine result? outs p).outcome env s).2.table := by
  let inner : Env := { env with routine? := some result? }
  have started : CheckState.Grafted g inner _ _ := (startRoutine_grafted hs houts).ofEnv rfl rfl
    (fitsEnv_routine hs.fits hresult) hs.contexts
  obtain ⟨-, hs', hreturns⟩ := h inner _ _ henv started
  have back : CheckState.Grafted g env _ _ := hs'.ofEnv rfl rfl hs.fits hs'.contexts
  obtain ⟨hclosed, hreturns'⟩ := closeRoutine_grafted back hs.outParams
    fun e he => Nat.lt_of_lt_of_le (hs.outs_lt e he) hreturns.symbols
  exact ⟨hclosed, hreturns.trans hreturns'⟩

theorem checkRoutine_follow {params : List Param} (hparams : ∀ p ∈ params, g.Spares (.param p))
    {signature : Signature} (hsignature : signature.Avoids g.names) {locals : List Decl}
    (hlocals : ∀ d ∈ locals, g.Spares (.decl d)) {bodies bodies' : Check Unit}
    (hbodies : Follow head g bodies bodies') {body : List Stmt}
    (hbody : ∀ s ∈ body, g.Spares (.stmt s)) :
    Follow head g (checkRoutine params signature locals bodies body)
      (checkRoutine params signature locals bodies' body) := by
  intro env s u henv hs
  unfold checkRoutine
  rw [outcome_bind, outcome_bind]
  obtain ⟨houts, hs', hreturns⟩ := defineAllParams_alike hparams hsignature.param env s u henv hs
  rw [houts]
  have hinner : Follow head g (do declareAll locals; bodies; checkBlock body)
      (do declareAll locals; bodies'; checkBlock body) :=
    (declareAll_follow hlocals).bind (hbodies.bind (checkBlock_follow body hbody))
  obtain ⟨hs'', hreturns'⟩ := inRoutine_grafted (fun t ht => hsignature.result ht) hinner henv hs'
    (defineAllParams_lt params signature.params env s).2
  exact ⟨trivial, hs'', hreturns.trans hreturns'⟩

/-! ## Methods -/

theorem checkMethodName_follow (name : Ident) :
    Follow head g (checkMethodName name) (checkMethodName name) := by
  refine .readSame (fun env => ?_) fun env _ hfits => ?_
  · rw [head?_moveEnv]
    cases env.objects.head? <;> rfl
  · split
    · exact .pure trivial
    · next o ho =>
      obtain ⟨c, hc, hobject⟩ := Option.bind_eq_some_iff.1 ho
      have hfit := hfits.object c (List.mem_of_head? hc) o hobject
      split
      · split
        · next horigin =>
          refine (memberSymbol?_alike (hfit.name (Option.isNone_iff_eq_none.1 horigin)) name.name).bind
            fun id? id?' hid => ?_
          subst hid
          cases id? with
          | none => exact .pure trivial
          | some id => exact refer_follow id _
        · exact .pure trivial
      · exact error_follow _ _ _ _

theorem implementedObject_agree {name : Ident} (hname : name.name ∉ g.names) :
    Agree head g (fun o? => ∀ o, o? = some o → g.Fits o) (implementedObject name) := by
  refine (findObject_agree fun _ => hname).bind fun o? ho? => ?_
  extract_lets _ rest
  have referred (done : Unit) :
      Agree head g (fun o? => ∀ o, o? = some o → g.Fits o) (rest done) := by
    refine .table fun t v h => ?_
    rw [h.lookupId? (Graft.plain_of_fresh hname)]
    cases t.lookupId? name.name with
    | none => exact Agree.pure ho?
    | some id =>
      have hkind : (v.symbol? (g.symbol id)).any (·.kind = .type) =
          (t.symbol? id).any (·.kind = .type) := by
        rw [h.symbol]
        cases t.symbol? id <;> rfl
      dsimp only [Option.map_some]
      rw [hkind]
      split
      · exact (refer_follow id name.span).bind (Agree.pure ho?)
      · exact Agree.pure ho?
  split
  · refine suppressUnknown_agree.bind fun suppressed _ => ?_
    split
    · exact referred ()
    · exact (error_follow _ _ _ _).bind (referred ())
  · exact referred ()

/-- Within the implementation of an object, whose scope is current. -/
theorem withObject_grafted {env : Env} {s u : CheckState} (hs : s.Grafted g env u)
    {o? : Option ResolvedObject} (ho : ∀ o, o? = some o → g.Fits o) (resolved : Bool) :
    s.Grafted g { env with objects := ⟨s.table.current, o?, resolved⟩ :: env.objects } u := by
  refine hs.ofEnv rfl rfl ⟨fun c hc o hobject => ?_, hs.fits.result⟩ fun c hc => ?_
  · rcases List.mem_cons.1 hc with rfl | hc
    · exact ho o hobject
    · exact hs.fits.object c hc o hobject
  · rcases List.mem_cons.1 hc with rfl | hc
    · exact hs.table.current_lt
    · exact hs.contexts c hc

theorem withObject_follow {o? : Option ResolvedObject} (ho : ∀ o, o? = some o → g.Fits o)
    (resolved : Bool) {p q : Check Unit} (h : Follow head g p q) :
    Follow head g
      (do let context : ObjectContext := ⟨← currentScope, o?, resolved⟩
          withReader (fun env => { env with objects := context :: env.objects }) p)
      (do let context : ObjectContext := ⟨← currentScope, o?, resolved⟩
          withReader (fun env => { env with objects := context :: env.objects }) q) := by
  intro env s u henv hs
  let inner : Env := { env with objects := ⟨s.table.current, o?, resolved⟩ :: env.objects }
  obtain ⟨-, hs', hreturns⟩ := h inner s u henv (withObject_grafted hs ho resolved)
  rw [outcome_bind, outcome_bind, show currentScope.outcome env s = (s.table.current, s) from rfl,
    show currentScope.outcome (g.moveEnv env) u = (u.table.current, u) from rfl, hs.table.current]
  exact ⟨trivial, hs'.ofEnv rfl rfl hs.fits fun c hc => hs'.contexts c (.tail _ hc), hreturns⟩

theorem inObject_follow {o? : Option ResolvedObject} (ho : ∀ o, o? = some o → g.Fits o) (span : Span)
    {p q : Check Unit} (h : Follow head g p q) :
    Follow head g (inObject o? span p) (inObject o? span q) := by
  have rest (resolved : Bool) := inScope_alike .object span (withObject_follow ho resolved h)
  cases o? with
  | none => exact (Agree.pure (P := fun _ => True) trivial).bind fun resolved _ => rest resolved
  | some o => exact (chainResolved_agree (ho o rfl)).bind fun resolved _ => rest resolved

/-! ## Bodies -/

theorem signature_of_grafted {env : Env} {s u : CheckState} (hs : s.Grafted g env u) (offset : Nat) :
    (List.lookup offset u.signatures).getD ⟨[], none⟩ =
        (List.lookup offset s.signatures).getD ⟨[], none⟩ ∧
      ((List.lookup offset s.signatures).getD ⟨[], none⟩).Avoids g.names := by
  rw [hs.signatures]
  refine ⟨rfl, ?_⟩
  cases hfind : List.lookup offset s.signatures with
  | none => exact signature_avoids (List.forall_mem_nil _) fun _ h => by cases h
  | some signature =>
    obtain ⟨l, r, hl, -⟩ := List.lookup_eq_some_iff.1 hfind
    refine hs.signatureTypes (offset, signature) ?_
    rw [hl]
    exact List.mem_append_right _ (.head _)

mutual

theorem checkBodyOf_follow : ∀ d : Decl, g.Spares (.decl d) →
    Follow head g (checkBodyOf d) (checkBodyOf d)
  | .procedure ⟨heading, locals, body, isForward, span⟩, h => by
    rw [checkBodyOf]
    split
    · exact .pure trivial
    · refine .get fun _ s u _ hs => ?_
      obtain ⟨hsame, hsignature⟩ := signature_of_grafted hs heading.span.start.offset
      rw [hsame]
      have hlocals := h.mapped fun _ hn => .tail _ (List.mem_append_left _ hn)
      exact inScope_alike .procedure span (checkRoutine_follow
        ((h.child (.head _)).mapped fun _ hn => .tail _ (List.mem_append_left _ hn)) hsignature
        hlocals (checkBodies_follow locals hlocals)
        (h.mapped fun _ hn => .tail _ (List.mem_append_right _ hn)))
  | .objectImpl ⟨name, methods, span⟩, h => by
    rw [checkBodyOf]
    exact (implementedObject_agree (h.typeName rfl)).bind fun o? ho =>
      inObject_follow ho span (checkMethods_follow methods (h.mapped (List.subset_cons_self _ _)))
  | .type _, _ | .const _, _ | .var _, _ => by
    rw [checkBodyOf]
    exact .pure trivial

theorem checkBodies_follow : ∀ ds : List Decl, (∀ d ∈ ds, g.Spares (.decl d)) →
    Follow head g (checkBodies ds) (checkBodies ds)
  | [], _ => by
    rw [checkBodies]
    exact .pure trivial
  | d :: ds, h => by
    rw [checkBodies]
    exact (checkBodyOf_follow d (h d (.head _))).bind
      (checkBodies_follow ds fun d' hd' => h d' (.tail _ hd'))

theorem checkMethods_follow : ∀ methods : List MethodImpl,
    (∀ m ∈ methods, g.Spares (.methodImpl m)) →
    Follow head g (checkMethods methods) (checkMethods methods)
  | [], _ => by
    rw [checkMethods]
    exact .pure trivial
  | ⟨heading, locals, body, span⟩ :: rest, h => by
    rw [checkMethods]
    have hmethod := h ⟨heading, locals, body, span⟩ (.head _)
    have hheading : g.Spares (.methodHeading heading) := hmethod.child (.head _)
    have hparams : ∀ p ∈ heading.params, g.Spares (.param p) :=
      hheading.mapped fun _ hn => .tail _ (List.mem_append_left _ hn)
    have hlocals := hmethod.mapped fun _ hn => .tail _ (List.mem_append_left _ hn)
    refine (checkMethodName_follow heading.name).bind ?_
    refine (signatureOf_agree hparams fun spec hspec => hheading.child (.tail _
      (List.mem_append_right _ (List.mem_map_of_mem (Option.mem_toList.2 hspec))))).bind
        fun signature hsignature => ?_
    exact (inScope_alike .method span (checkRoutine_follow hparams hsignature hlocals
      (checkBodies_follow locals hlocals)
      (hmethod.mapped fun _ hn => .tail _ (List.mem_append_right _ hn)))).bind fun _ _ _ =>
        checkMethods_follow rest fun m hm => h m (.tail _ hm)

end

end Check

end SimFront
