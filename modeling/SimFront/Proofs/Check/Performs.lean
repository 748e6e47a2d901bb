import SimFront.Proofs.Check.Accesses
import SimFront.Proofs.Check.Calls
import SimFront.Proofs.Check.Found
import SimFront.Proofs.Check.Noted

/-!
# What steps do with an OUT parameter

`CheckState.Accessed p name as s s'` says of two states that the parameter `p` was accessed
as `as` says in between, as far as what is kept and what is reported of it goes.  `Performs`
says of a step that it does so from every state in which the same is declared, and that it comes
to the same value from all of them.  It holds of the checks of expressions and statements, with the
accesses that are read off the tree.
-/

namespace SimFront

/-! ## Reports -/

namespace Diagnostic

/-- The report that an OUT parameter was read too early. -/
def readEarly (name : String) (span : Span) : Diagnostic :=
  .warning .outReadBeforeAssign span s!"OUT parameter '{name}' is read before it is assigned"

def isReadEarly (name : String) (d : Diagnostic) : Bool := d = readEarly name d.span

/-- A report on an early read tells the name of the parameter. -/
theorem isReadEarly_readEarly (name other : String) (span : Span) :
    (readEarly other span).isReadEarly name = decide (other = name) := by
  refine decide_eq_decide.2 ⟨fun h => ?_, fun h => by rw [h]; rfl⟩
  have hmessage := congrArg (fun d => d.message.toList) h
  simp only [readEarly, warning, String.toList_append, List.append_cancel_left_eq,
    List.append_cancel_right_eq] at hmessage
  exact String.toList_injective hmessage

end Diagnostic

namespace CheckState

/-- Between two states the parameter was accessed.  The reports on it are the early reads, and none
is that it was never assigned. -/
structure Accessed (p : Nat) (name : String) (as : List Access) (s s' : CheckState) : Prop where
  outs : s'.outParams.map Prod.fst = s.outParams.map Prod.fst
  state : List.lookup p s'.outParams = (List.lookup p s.outParams).map (·.after as)
  reports : ∃ more, s'.reports = more ++ s.reports ∧ (∀ d ∈ more, d.code ≠ .outNeverAssigned) ∧
    ∀ o, List.lookup p s.outParams = some o →
      more.reverse.filter (·.isReadEarly name) = (o.early as).map (.readEarly name)

variable {env : Env} {p : Nat} {name : String} {as bs : List Access} {s s' s'' t : CheckState}

theorem Accessed.of_same (houts : s'.outParams = s.outParams) (hreports : s'.reports = s.reports) :
    Accessed p name [] s s' where
  outs := by rw [houts]
  state := by
    rw [houts]
    exact (Option.map_id' (x := List.lookup p s.outParams)).symm
  reports := ⟨[], hreports, List.forall_mem_nil _, fun _ _ => rfl⟩

theorem Accessed.trans (h : Accessed p name as s s') (h' : Accessed p name bs s' s'') :
    Accessed p name (as ++ bs) s s'' where
  outs := h'.outs.trans h.outs
  state := by
    rw [h'.state, h.state, Option.map_map]
    exact congrArg (Option.map · _) (funext fun o => OutState.after_append.symm)
  reports := by
    obtain ⟨more, hmore, hcode, hearly⟩ := h.reports
    obtain ⟨more', hmore', hcode', hearly'⟩ := h'.reports
    refine ⟨more' ++ more, by rw [hmore', hmore, List.append_assoc],
      List.forall_mem_append.2 ⟨hcode', hcode⟩, fun o ho => ?_⟩
    rw [List.reverse_append, List.filter_append, hearly o ho, hearly' (o.after as) (by rw [h.state, ho]; rfl),
      OutState.early_append, List.map_append]

theorem Accessed.congr (h : Accessed p name as s s') (halike : Access.Alike as bs) :
    Accessed p name bs s s' where
  outs := h.outs
  state := by
    rw [h.state]
    exact congrArg (Option.map · _) (funext fun o => (halike o).1)
  reports := by
    obtain ⟨more, hmore, hcode, hearly⟩ := h.reports
    exact ⟨more, hmore, hcode, fun o ho => (hearly o ho).trans (by rw [(halike o).2])⟩

/-- A state in which the same is declared, in one and the same routine. -/
structure Beside (env : Env) (s t : CheckState) : Prop where
  faithful : t.Faithful env
  agrees : s.Agrees t
  outs : t.outParams.map Prod.fst = s.outParams.map Prod.fst

theorem Beside.refl (h : s.Faithful env) : s.Beside env s := ⟨h, .refl s, rfl⟩

theorem Beside.symbol? (h : s.Beside env t) (id : Nat) : t.table.symbol? id = s.table.symbol? id := by
  obtain ⟨rs, hrs⟩ := h.agrees.table
  rw [hrs]
  rfl

end CheckState

namespace Check

open CheckState (Beside Accessed)

/-- An OUT parameter that is seen from the current scope: some scope around declares it, and the
object implementations around lie further out.  The other OUT parameters have other names. -/
structure OutParam (env : Env) (s : CheckState) (p : Nat) (name : String) : Prop where
  faithful : s.Faithful env
  reachable : s.table.Reachable
  declared : ∃ scope ∈ s.table.enclosing s.table.current, s.table.declared? scope name = some p ∧
    ∀ c ∈ env.objects, c.scope < scope
  kind : ∃ x, s.table.symbol? p = some x ∧ x.kind = .parameter
  others : ∀ q ∈ s.outParams.map Prod.fst, ∃ x, s.table.symbol? q = some x ∧
    (x.name = name → q = p)

variable {α β : Type} {env : Env} {s : CheckState} {p : Nat} {name : String}
  {as bs : List Access}

theorem OutParam.declares (h : OutParam env s p name) : s.table.Declares name p :=
  let ⟨scope, _, hdeclared, _⟩ := h.declared
  ⟨scope, hdeclared⟩

/-- The parameter is declared under no other name. -/
theorem OutParam.of_declares (h : OutParam env s p name) {other : String}
    (hother : s.table.Declares other p) : other = name := by
  obtain ⟨x, hx, hname⟩ := h.reachable.consistent.of_declares h.declares
  obtain ⟨y, hy, hname'⟩ := h.reachable.consistent.of_declares hother
  rw [hx] at hy
  cases hy
  exact hname'.symm.trans hname

theorem OutParam.name_eq (h : OutParam env s p name) {x : Symbol}
    (hx : s.table.symbol? p = some x) : x.name = name := by
  obtain ⟨y, hy, hname⟩ := h.reachable.consistent.of_declares h.declares
  rw [hx] at hy
  cases hy
  exact hname

/-- From every state beside `s` the step comes to the value that it comes to from `s`, and accesses
the parameter. -/
def Performs (env : Env) (s : CheckState) (p : Nat) (name : String) (as : List Access)
    (step : Check α) : Prop :=
  ∀ t, s.Beside env t → (step.outcome env t).1 = (step.outcome env s).1 ∧
    s.Beside env (step.outcome env t).2 ∧ t.Accessed p name as (step.outcome env t).2

/-! ## Rules -/

section Rules

variable {step : Check α}

theorem Performs.pure (a : α) : Performs env s p name [] (Pure.pure a : Check α) :=
  fun _ ht => ⟨rfl, ht, .of_same rfl rfl⟩

theorem Performs.congr (h : Performs env s p name as step) (halike : Access.Alike as bs) :
    Performs env s p name bs step := fun t ht =>
  ⟨(h t ht).1, (h t ht).2.1, (h t ht).2.2.congr halike⟩

theorem Performs.bind {f : α → Check β} (hs : s.Faithful env) (h : Performs env s p name as step)
    (hf : Performs env s p name bs (f (step.outcome env s).1)) :
    Performs env s p name (as ++ bs) (step >>= f) := by
  intro t ht
  obtain ⟨hvalue, ht', haccessed⟩ := h t ht
  obtain ⟨hvalue', ht'', haccessed'⟩ := hf _ ht'
  obtain ⟨hown, -, -⟩ := hf _ (h s (.refl hs)).2.1
  rw [outcome_bind, outcome_bind, hvalue]
  exact ⟨hvalue'.trans hown.symm, ht'', haccessed.trans haccessed'⟩

/-- Steps that access the parameter no more may hang on any value. -/
theorem Performs.then {f : α → Check β} (hs : s.Faithful env) (h : Performs env s p name as step)
    (hf : ∀ a, Performs env s p name [] (f a)) : Performs env s p name as (step >>= f) := by
  rw [← List.append_nil as]
  exact h.bind hs (hf _)

theorem Performs.after {f : α → Check β} (hs : s.Faithful env) (h : Performs env s p name [] step)
    (hf : Performs env s p name as (f (step.outcome env s).1)) :
    Performs env s p name as (step >>= f) := h.bind hs hf

theorem Performs.read {f : Env → Check α} (h : Performs env s p name as (f env)) :
    Performs env s p name as (MonadReader.read >>= f) := h

theorem Performs.table {f : SymbolTable → Check α}
    (hsame : ∀ t rs, f { t with references := rs } = f t)
    (h : Performs env s p name as (f s.table)) : Performs env s p name as (Check.table >>= f) := by
  intro t ht
  obtain ⟨rs, hrs⟩ := ht.agrees.table
  have houtcome : (Check.table >>= f).outcome env t = (f s.table).outcome env t := by
    rw [outcome_table, hrs, hsame]
  rw [houtcome]
  exact h t ht

theorem Query.performs (h : Query env.head step) (hsees : SeesNames env step)
    (hs : s.Faithful env) : Performs env s p name [] step := by
  intro t ht
  obtain ⟨-, hlike, hfaithful⟩ := h.stable ht.faithful ht.faithful (.refl t)
  have hagrees : s.Agrees (step.outcome env t).2 := ht.agrees.trans (.of_like hlike)
  unfold CheckState.Like at hlike
  have houts : (step.outcome env t).2.outParams = t.outParams := by rw [hlike]
  have hreports : (step.outcome env t).2.reports = t.reports := by rw [hlike]
  exact ⟨hsees s t hs ht.faithful ht.agrees, ⟨hfaithful, hagrees, by rw [houts, ht.outs]⟩,
    .of_same houts hreports⟩

/-- How deep a search may go hangs on what is declared alone. -/
theorem Performs.searchDepth {f : Nat → Check α} (hs : s.Faithful env) (o : ResolvedObject)
    (h : ∀ n, Performs env s p name as (f n)) :
    Performs env s p name as (Check.searchDepth o >>= f) := by
  intro t ht
  have hdepth : ((Check.searchDepth o).outcome env t).1 = ((Check.searchDepth o).outcome env s).1 :=
    searchDepth_sees o (fun n => .pure n) s t hs ht.faithful ht.agrees
  rw [outcome_bind, outcome_bind, hdepth]
  exact h _ t ht

theorem Performs.withReader {f : Env → Env} (hresolver : (f env).resolver? = env.resolver?)
    (hhead : (f env).head = env.head) (h : Performs (f env) s p name as step) :
    Performs env s p name as (withReader f step : Check α) := by
  intro t ht
  obtain ⟨hvalue, ht', haccessed⟩ := h t ⟨ht.faithful.of_resolver hresolver hhead, ht.agrees, ht.outs⟩
  exact ⟨hvalue, ⟨ht'.faithful.of_resolver hresolver.symm hhead.symm, ht'.agrees, ht'.outs⟩, haccessed⟩

theorem forM_performs {f : α → Check Unit} {view : α → List Access} (hs : s.Faithful env)
    {xs : List α} (h : ∀ x ∈ xs, Performs env s p name (view x) (f x)) :
    Performs env s p name (xs.flatMap view) (xs.forM f) := by
  induction xs with
  | nil => exact .pure ()
  | cons x xs ih => exact (h x (.head _)).bind hs (ih fun y hy => h y (.tail _ hy))

theorem optionForM_performs {f : α → Check Unit} {view : α → List Access} {x? : Option α}
    (h : ∀ x, Performs env s p name (view x) (f x)) :
    Performs env s p name (x?.toList.flatMap view) (x?.forM f) := by
  cases x? with
  | none => exact .pure ()
  | some x =>
    rw [Option.toList_some, List.flatMap_singleton]
    exact h x

end Rules

/-! ## Reports, uses and OUT parameters -/

/-- Uses may be recorded, reports made and the states of OUT parameters changed. -/
theorem beside_marked {t : CheckState} (ht : s.Beside env t)
    (rs : References) (reports : List Diagnostic) {outs : List (Nat × OutState)}
    (houts : outs.map Prod.fst = t.outParams.map Prod.fst) :
    s.Beside env { t with table := { t.table with references := rs }, reports, outParams := outs } where
  faithful := ht.faithful.of_same rfl rfl rfl
  agrees := ht.agrees.trans ⟨⟨rs, rfl⟩, rfl, rfl⟩
  outs := houts.trans ht.outs

theorem report_performs {d : Diagnostic} (hcode : d.code ≠ .outNeverAssigned)
    (hearly : d.isReadEarly name = false) : Performs env s p name [] (report d) := by
  refine fun t ht => ⟨rfl, beside_marked ht t.table.references (d :: t.reports) rfl, rfl,
    (Option.map_id' (x := List.lookup p t.outParams)).symm, [d], rfl,
    List.forall_mem_singleton.2 hcode, fun o _ => ?_⟩
  rw [List.reverse_singleton, List.filter_singleton, hearly]
  rfl

theorem error_performs {code : DiagnosticCode} (hcode : code ≠ .outNeverAssigned) (span : Span)
    (message : String) : Performs env s p name [] (error code span message) :=
  report_performs hcode (decide_eq_false nofun)

theorem refer_performs (id : Nat) (span : Span) :
    Performs env s p name [] (refer id span) := fun t ht =>
  ⟨rfl, beside_marked ht _ t.reports rfl, .of_same rfl rfl⟩

theorem keys_changeOut (outs : List (Nat × OutState)) (id : Nat) (f : OutState → OutState) :
    (changeOut outs id f).map Prod.fst = outs.map Prod.fst := by
  rw [changeOut, List.map_map]
  refine List.map_congr_left fun e _ => ?_
  show Prod.fst (if e.1 = id then (e.1, f e.2) else e) = e.1
  split <;> rfl

theorem outcome_markAssigned (env : Env) (t : CheckState) (q : Nat) :
    (markAssigned q).outcome env t =
      ((), { t with outParams := changeOut t.outParams q fun o => { o with assigned := true } }) := rfl

theorem markAssigned_performs (span : Span) (q : Nat) :
    Performs env s p name (symbolAccesses p true span q) (markAssigned q) := by
  intro t ht
  rw [outcome_markAssigned, outcome_markAssigned]
  have hkeys := keys_changeOut t.outParams q fun o => { o with assigned := true }
  refine ⟨rfl, beside_marked ht t.table.references t.reports hkeys, hkeys, ?_, [], rfl,
    List.forall_mem_nil _, fun o _ => ?_⟩
  · rw [lookup_changeOut, symbolAccesses]
    by_cases hq : q = p
    · rw [if_pos hq.symm, if_pos hq]
      rfl
    · rw [if_neg (Ne.symm hq), if_neg hq]
      exact (Option.map_id' (x := List.lookup p t.outParams)).symm
  · rw [symbolAccesses]
    split <;> simp [OutState.early]

theorem outcome_noteRead (env : Env) (t : CheckState) (q : Nat) (span : Span) :
    (noteRead q span).outcome env t = ((), match List.lookup q t.outParams with
      | none => { t with table := t.table.refer q span }
      | some o =>
        if o.settled then { t with table := t.table.refer q span }
        else { t with
          table := t.table.refer q span
          outParams := changeOut t.outParams q fun o => { o with warned := true }
          reports := .readEarly (((t.table.symbol? q).map (·.name)).getD "") span :: t.reports }) := by
  unfold noteRead
  rw [outcome_bind, outcome_get,
    show (refer q span).outcome env t = ((), { t with table := t.table.refer q span }) from rfl]
  dsimp only
  cases List.lookup q t.outParams with
  | none => rfl
  | some o =>
    dsimp only
    by_cases h : o.settled
    · rw [if_pos h, if_pos (show (o.assigned || o.warned) = true from h)]
      rfl
    · rw [if_neg h, if_neg (show ¬ (o.assigned || o.warned) = true from h)]
      rfl

theorem mem_keys_of_lookup {outs : List (Nat × OutState)} {q : Nat} {o : OutState}
    (h : List.lookup q outs = some o) : q ∈ outs.map Prod.fst := by
  obtain ⟨l, r, rfl, -⟩ := List.lookup_eq_some_iff.1 h
  simp

section Reads

variable {t : CheckState} {q : Nat} {span : Span}

/-- A read of a parameter that was assigned or reported before, or that is no OUT parameter. -/
theorem accessed_unreported
    (h : q = p → ∀ o, List.lookup p t.outParams = some o → o.settled) :
    t.Accessed p name (symbolAccesses p false span q) { t with table := t.table.refer q span } := by
  rw [symbolAccesses]
  split
  · next hq =>
    refine ⟨rfl, ?_, [], rfl, List.forall_mem_nil _, fun o ho => ?_⟩
    · cases ho : List.lookup p t.outParams with
      | none => rfl
      | some o => simp [OutState.after, OutState.step, h hq o ho]
    · rw [OutState.early_of_settled (h hq o ho)]
      rfl
  · exact .of_same rfl rfl

/-- A read that is reported. -/
theorem accessed_early {o : OutState} {other : String} (ho : List.lookup q t.outParams = some o)
    (hopen : ¬ o.settled) (hname : other = name ↔ q = p) :
    t.Accessed p name (symbolAccesses p false span q) { t with
      table := t.table.refer q span
      outParams := changeOut t.outParams q fun o => { o with warned := true }
      reports := .readEarly other span :: t.reports } := by
  have hkeys := keys_changeOut t.outParams q fun o => { o with warned := true }
  refine ⟨hkeys, ?_, [_], rfl, List.forall_mem_singleton.2 (by rintro ⟨⟩), fun o' ho' => ?_⟩
  · rw [lookup_changeOut, symbolAccesses]
    by_cases hq : q = p
    · subst hq
      rw [if_pos rfl, if_pos rfl, ho]
      simp [OutState.after, OutState.step, hopen]
    · rw [if_neg (Ne.symm hq), if_neg hq]
      exact (Option.map_id' (x := List.lookup p t.outParams)).symm
  · rw [List.reverse_singleton, List.filter_singleton, symbolAccesses]
    by_cases hq : q = p
    · subst hq
      obtain rfl : o = o' := Option.some.inj (ho.symm.trans ho')
      rw [hname.2 rfl, if_pos rfl, OutState.early_cons]
      simp [hopen, Diagnostic.isReadEarly_readEarly]
    · have hother : other ≠ name := fun h => hq (hname.1 h)
      rw [if_neg hq]
      simp [hother, OutState.early, Diagnostic.isReadEarly_readEarly]

end Reads

theorem noteRead_performs (hp : OutParam env s p name) (q : Nat) (span : Span) :
    Performs env s p name (symbolAccesses p false span q) (noteRead q span) := by
  intro t ht
  rw [outcome_noteRead, outcome_noteRead]
  refine ⟨rfl, ?_⟩
  cases ho : List.lookup q t.outParams with
  | none =>
    refine ⟨beside_marked ht _ _ rfl, accessed_unreported ?_⟩
    rintro rfl o ho'
    cases ho.symm.trans ho'
  | some o =>
    dsimp only
    split
    · next hsettled =>
      refine ⟨beside_marked ht _ _ rfl, accessed_unreported ?_⟩
      rintro rfl o ho'
      cases ho.symm.trans ho'
      exact hsettled
    · next hopen =>
      obtain ⟨x, hx, hname⟩ := hp.others q (ht.outs ▸ mem_keys_of_lookup ho)
      refine ⟨beside_marked ht _ _ (keys_changeOut t.outParams q _), ?_⟩
      rw [ht.symbol?, hx]
      refine accessed_early ho hopen ⟨hname, ?_⟩
      rintro rfl
      exact hp.name_eq hx

/-! ## Searches -/

section Searches

variable (hs : s.Faithful env)

include hs

theorem findMember_performs (o : ResolvedObject) (member : String) :
    Performs env s p name [] (findMember o member) :=
  .searchDepth hs o fun n =>
    ((searchIn_query none _ n o []).performs (searchIn_sees none _ n o []) hs).then hs fun _ => .pure _

theorem chainResolved_performs (o : ResolvedObject) :
    Performs env s p name [] (chainResolved o) :=
  .searchDepth hs o fun n => ((searchIn_query (some ()) _ n o []).performs
    (searchIn_sees (some ()) _ n o []) hs).then hs fun _ => .pure _

theorem baseMethod_performs (o : ResolvedObject) (method : String) :
    Performs env s p name [] (baseMethod o method) :=
  .searchDepth hs o fun n => ((baseObjects_query o).performs (baseObjects_sees o) hs).then hs
    fun bases => ((firstHit_query none (searchIn_query none _ n) bases [o.key]).performs
      (firstHit_sees none (searchIn_query none _ n) (searchIn_sees none _ n) bases [o.key]) hs).then
        hs fun _ => .pure _

theorem lookup_performs (module? : Option String) (other : String) (scope : Nat) :
    Performs env s p name [] (lookup module? other scope) :=
  (lookup_query module? other scope).performs (lookup_sees module? other scope) hs

theorem symbol?_performs (id : Nat) : Performs env s p name [] (symbol? id) :=
  (symbol?_query id).performs (symbol?_sees id) hs

theorem valueType_performs (b : Binding) : Performs env s p name [] (valueType b) :=
  (valueType_query b).performs (valueType_sees b) hs

theorem normalize_performs (type : Ty) : Performs env s p name [] (normalize type) :=
  (normalize_query type).performs (normalize_sees type) hs

theorem assignable_performs (target source : Ty) :
    Performs env s p name [] (assignable target source) :=
  (assignable_query target source).performs (assignable_sees target source) hs

theorem findObject_performs (module? : Option String) (object : String) :
    Performs env s p name [] (findObject module? object) :=
  (findObject_query module? object).performs (findObject_sees module? object) hs

theorem resolveNamed_performs (module? : Option String) (type : String) :
    Performs env s p name [] (resolveNamed module? type) :=
  (resolveNamed_query module? type).performs (resolveNamed_sees module? type) hs

theorem memberBinding_performs (m : Member) (use : Span) :
    Performs env s p name [] (memberBinding m use) :=
  (memberBinding_query m use).performs (memberBinding_sees m use) hs

theorem suppressUnknown_performs : Performs env s p name [] suppressUnknown :=
  suppressUnknown_query.performs suppressUnknown_sees hs

theorem objectMemberAt_performs (scope : Nat) (id : Ident) :
    Performs env s p name [] (objectMemberAt scope id) := by
  refine .table (fun _ _ => rfl) ?_
  split
  · split
    · refine .read ?_
      split
      · next o _ =>
        refine (findMember_performs hs o id.name).then hs fun m? => ?_
        cases m? with
        | some m => exact (memberBinding_performs hs m id.span).then hs fun _ => .pure _
        | none => exact .pure _
      · exact .pure _
    · exact .pure _
  · exact .pure _

theorem nameIn_performs (id : Ident) (scopes : List Nat) :
    Performs env s p name [] (nameIn id scopes) := by
  induction scopes with
  | nil => exact .pure _
  | cons scope rest ih =>
    refine .table (fun _ _ => rfl) ?_
    split
    · exact .pure _
    · refine (objectMemberAt_performs hs scope id).then hs fun b? => ?_
      cases b? with
      | some b => exact .pure _
      | none => exact ih

theorem lookupExternal_performs (other : String) :
    Performs env s p name [] (lookupExternal other) :=
  (lookupExternal_query other).performs (lookupExternal_sees other) hs

end Searches

/-! ## Names -/

/-- What is declared does not hang on the uses that were recorded. -/
theorem lookupId?_references (t : SymbolTable) (rs : References) (other : String) :
    SymbolTable.lookupId? { t with references := rs } other = t.lookupId? other := by
  apply SymbolTable.lookupFrom?_of_scopes
  rfl

theorem resolveName_performs (hs : s.Faithful env) (id : Ident) :
    Performs env s p name [] (resolveName id) := by
  refine .table (fun t rs => ?_) ?_
  · have hscopes : { t with references := rs }.enclosing t.current = t.enclosing t.current :=
      SymbolTable.enclosing_congr fun _ _ => rfl
    simp only [hscopes]
  · refine (nameIn_performs hs id _).then hs fun b? => ?_
    cases b? with
    | some b => exact .pure _
    | none =>
      dsimp only
      split
      · exact .pure _
      · refine (lookupExternal_performs hs id.name).then hs fun found => ?_
        cases found with
        | found b => exact .pure _
        | unknowable => exact .pure _
        | missing =>
          dsimp only
          split
          · exact .pure _
          · refine (suppressUnknown_performs hs).then hs fun suppressed => ?_
            split
            · exact .pure _
            · exact (error_performs (by decide) _ _).then hs fun _ => .pure _

/-- The access that the use of a name with a meaning is. -/
def bindingAccesses (p : Nat) (isWrite : Bool) (span : Span) : Option Binding → List Access
  | some (.declared q) => symbolAccesses p isWrite span q
  | _ => []

theorem notAssignable_performs (id : Ident) (what : String) :
    Performs env s p name [] (notAssignable id what) := error_performs (by decide) _ _

section Names

variable (hp : OutParam env s p name)

include hp

/-- Up to the scope of the parameter, names mean what the scopes declare. -/
theorem nameIn_eq (id : Ident) (hid : id.name = name) (i : Nat) {scope : Nat}
    (hmem : scope ∈ s.table.enclosing i) (hdeclared : s.table.declared? scope name = some p)
    (hobjects : ∀ c ∈ env.objects, c.scope < scope) :
    ((nameIn id (s.table.enclosing i)).outcome env s).1 =
      ((s.table.enclosing i).findSome? (s.table.declared? · name)).map Binding.declared := by
  subst hid
  induction i using Nat.strongRecOn with
  | ind i ih =>
    have hle := SymbolTable.le_of_mem_enclosing hmem
    rw [SymbolTable.enclosing_eq] at hmem ⊢
    rw [nameIn_cons hp.faithful, List.findSome?_cons]
    cases hi : s.table.declared? i id.name with
    | some q => rfl
    | none =>
      have hne : scope ≠ i := by
        rintro rfl
        rw [hdeclared] at hi
        cases hi
      have hmember : ((objectMemberAt i id).outcome env s).1 = none := by
        rw [← Option.not_isSome_iff_eq_none, objectMemberAt_isSome hp.faithful]
        rintro ⟨o, ho, -⟩
        unfold objectAt? at ho
        split at ho
        · obtain ⟨c, hc, -⟩ := Option.bind_eq_some_iff.1 ho
          have hscope := List.find?_some hc
          have hlt := hobjects c (List.mem_of_find?_eq_some hc)
          rw [of_decide_eq_true hscope] at hlt
          omega
        · cases ho
      rw [hmember]
      rcases List.mem_cons.1 hmem with h | hmem
      · exact absurd h hne
      · have hlt : scope < i := Nat.lt_of_le_of_ne hle hne
        split at hmem
        · next q _ =>
          split at hmem
          · next hq =>
            simp only [hq, if_true]
            exact ih q hq hmem
          · cases hmem
        · cases hmem

/-- A name means the parameter where the scopes around say so. -/
theorem resolveName_iff (id : Ident) : ((resolveName id).outcome env s).1 = some (.declared p) ↔
    s.table.lookupId? id.name = some p := by
  by_cases hid : id.name = name
  · obtain ⟨scope, hmem, hdeclared, hobjects⟩ := hp.declared
    have hfound : (s.table.lookupId? id.name).isSome :=
      List.findSome?_isSome_iff.2 ⟨scope, hmem, by rw [hid, hdeclared]; rfl⟩
    obtain ⟨q, hq⟩ := Option.isSome_iff_exists.1 hfound
    have hmeaning : ((nameIn id (s.table.enclosing s.table.current)).outcome env s).1 =
        (s.table.lookupId? id.name).map .declared := by
      rw [nameIn_eq hp id hid s.table.current hmem hdeclared hobjects, ← hid]
      rfl
    rw [resolveName, outcome_table, outcome_bind, hmeaning, hq]
    simp
  · constructor
    · intro h
      obtain ⟨-, -, hfound⟩ := resolveName_finds id env s rfl hp.faithful
      exact absurd (hp.of_declares (hfound _ h p rfl)) hid
    · intro h
      exact absurd (hp.of_declares (SymbolTable.declares_of_lookupFrom? h)) hid

/-- The use of a name is an access if the parameter is what the name means. -/
theorem nameAccesses_eq (isWrite : Bool) (id : Ident) : nameAccesses s p isWrite id =
    bindingAccesses p isWrite id.span ((resolveName id).outcome env s).1 := by
  have hmeaning := resolveName_iff hp id
  rw [nameAccesses]
  cases hb : ((resolveName id).outcome env s).1 with
  | none => exact if_neg fun h => by cases hb.symm.trans (hmeaning.2 h)
  | some b =>
    cases b with
    | declared q =>
      rw [hb] at hmeaning
      refine ite_congr (propext ?_) (fun _ => rfl) fun _ => rfl
      simpa using hmeaning.symm
    | external x => exact if_neg fun h => by cases hb.symm.trans (hmeaning.2 h)
    | builtin => exact if_neg fun h => by cases hb.symm.trans (hmeaning.2 h)

theorem readName_performs (id : Ident) :
    Performs env s p name (nameAccesses s p false id) (readName id) := by
  have hs := hp.faithful
  refine .after hs (resolveName_performs hs id) ?_
  rw [nameAccesses_eq hp]
  cases ((resolveName id).outcome env s).1 with
  | none => exact .pure _
  | some b =>
    cases b with
    | declared q => exact (noteRead_performs hp q id.span).then hs fun _ => valueType_performs hs _
    | external x => exact valueType_performs hs _
    | builtin => exact valueType_performs hs _

theorem writeName_performs (id : Ident) :
    Performs env s p name (nameAccesses s p true id) (writeName id) := by
  have hs := hp.faithful
  refine .after hs (resolveName_performs hs id) ?_
  rw [nameAccesses_eq hp]
  cases ((resolveName id).outcome env s).1 with
  | none => exact .pure _
  | some b =>
    cases b with
    | declared q =>
      have rest : Performs env s p name (symbolAccesses p true id.span q)
          (do markAssigned q; valueType (.declared q)) :=
        (markAssigned_performs id.span q).then hs fun _ => valueType_performs hs _
      show Performs env s p name (symbolAccesses p true id.span q) _
      refine .after hs (refer_performs q id.span) (.after hs (symbol?_performs hs q) ?_)
      cases ((symbol? q).outcome env s).1 with
      | none => exact rest
      | some x =>
        dsimp only
        split
        · exact .after hs (error_performs (by decide) _ _) rest
        · split
          · exact .after hs (notAssignable_performs _ _) rest
          · exact rest
    | external x =>
      show Performs env s p name [] _
      dsimp only
      split
      · exact .after hs (notAssignable_performs _ _) (valueType_performs hs _)
      · exact valueType_performs hs _
    | builtin => exact .after hs (notAssignable_performs _ _) (valueType_performs hs _)

/-! ## Members -/

theorem objectMemberType_performs (typeName : String) (o : ResolvedObject) (member : Ident) :
    Performs env s p name [] (objectMemberType typeName o member) := by
  have hs := hp.faithful
  refine (findMember_performs hs o member.name).then hs fun m? => ?_
  cases m? with
  | some m =>
    refine (memberBinding_performs hs m member.span).then hs fun b => ?_
    cases b with
    | declared id => exact (refer_performs id member.span).then hs fun _ => .pure _
    | external x => exact .pure _
    | builtin => exact .pure _
  | none =>
    refine (chainResolved_performs hs o).then hs fun resolved => .read ?_
    dsimp only
    split
    · exact (error_performs (by decide) _ _).then hs fun _ => .pure _
    · exact .pure _

theorem memberType_performs (base : Ty) (member : Ident) :
    Performs env s p name [] (memberType base member) := by
  have hs := hp.faithful
  unfold memberType
  refine (normalize_performs hs base).then hs fun t => ?_
  extract_lets rest
  have plain (base : Ty) : Performs env s p name [] (rest base) := by
    unfold rest
    split
    · exact .pure _
    · next module? type =>
      refine (findObject_performs hs module? type).then hs fun o? => ?_
      cases o? with
      | some o => exact objectMemberType_performs hp type o member
      | none =>
        refine (resolveNamed_performs hs module? type).then hs fun t? => ?_
        split
        · exact .pure _
        · exact .pure _
    · exact .pure _
  split
  · exact (normalize_performs hs _).then hs plain
  · exact (Performs.pure _).then hs plain

/-- What is said of a member of a module when another name stands for it. -/
theorem moduleMember_performs (module member : Ident) :
    Performs env s p name [] (moduleMember module member) := by
  have hs := hp.faithful
  refine .table (fun t rs => ?_) ?_
  · simp only [lookupId?_references]
    rfl
  · split
    · exact .pure _
    · split
      · refine (refer_performs _ _).then hs fun _ => (lookup_performs hs _ _ _).then hs fun found => ?_
        cases found with
        | found b => exact (valueType_performs hs b).then hs fun _ => .pure _
        | unknowable => exact .pure _
        | missing => exact (error_performs (by decide) _ _).then hs fun _ => .pure _
      · exact .pure _

/-- The parameter is no module. -/
theorem moduleMember_value (module member : Ident)
    (h : s.table.lookupId? module.name = some p) :
    ((moduleMember module member).outcome env s).1 = none := by
  obtain ⟨x, hx, hkind⟩ := hp.kind
  rw [moduleMember, outcome_table, h]
  dsimp only
  rw [hx, Option.any_some, hkind]
  rfl

theorem fieldAccess_performs {base : Expr} {check : Check Ty}
    (hcheck : Performs env s p name (exprAccesses env s p false base) check) (member : Ident) :
    Performs env s p name (exprAccesses env s p false base) (fieldAccess base check member) := by
  have hs := hp.faithful
  unfold fieldAccess
  extract_lets rest
  have checked : Performs env s p name (exprAccesses env s p false base) (rest none) :=
    hcheck.then hs fun type => memberType_performs hp type member
  split
  · next module =>
    refine .after hs (moduleMember_performs hp module member) ?_
    cases hdeclared : ((moduleMember module member).outcome env s).1 with
    | none => exact checked
    | some type =>
      have hother : nameAccesses s p false module = [] := by
        refine if_neg fun h => ?_
        rw [moduleMember_value hp module member h] at hdeclared
        cases hdeclared
      rw [exprAccesses, hother]
      exact .pure _
  · exact .after hs (.pure _) checked

end Names

end Check

end SimFront
