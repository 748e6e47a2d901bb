import SimFront.Proofs.Check.AlikeBody

/-!
# Steps that touch the state

`CheckState.Touched place s s'` says that between the states uses were recorded, OUT
parameters were read or assigned, and reports were made at certain places, but that nothing
was declared.  Such a step may be taken in the run with the graft alone
(`Grafted.touched`).  Searches and uses of names do no more.

What is known of the states of a run, and not lost where they are touched, is `Standing`.
-/

namespace SimFront

namespace Graft

theorem OutMatches.refl (a : Option OutState) : OutMatches a a := by
  cases a with
  | none => trivial
  | some a => exact ⟨fun h => h, fun h => h⟩

theorem OutMatches.eq_none {a : Option OutState} (h : OutMatches none a) : a = none := by
  cases a with
  | none => rfl
  | some a => exact h.elim

theorem OutMatches.trans {a b c : Option OutState} (h : OutMatches a b) (h' : OutMatches b c) :
    OutMatches a c := by
  cases a <;> cases b <;> cases c
  · trivial
  · exact h'
  · exact h.elim
  · exact h.elim
  · exact h.elim
  · exact h.elim
  · exact h'.elim
  · exact ⟨fun ha => h'.1 (h.1 ha), fun ha => h'.2 (h.2 ha)⟩

end Graft

namespace CheckState

variable {place : Span → Prop} {s s' s'' : CheckState}

structure Touched (place : Span → Prop) (s s' : CheckState) : Prop where
  table : ∃ rs, s'.table = { s.table with references := rs } ∧
    ∀ id, s.table.references.count id ≤ rs.count id
  reports : ∃ more, s'.reports = more ++ s.reports ∧ ∀ d ∈ more, place d.span
  wholeImports : s'.wholeImports = s.wholeImports
  unresolved : s'.unresolved = s.unresolved
  placeholders : s'.placeholders = s.placeholders
  pendingTypes : s'.pendingTypes = s.pendingTypes
  objectDecls : s'.objectDecls = s.objectDecls
  signatures : s'.signatures = s.signatures
  outParams : ∀ id, Graft.OutMatches (List.lookup id s.outParams) (List.lookup id s'.outParams)

namespace Touched

theorem of_like (h : s.Like s') : s.Touched place s' := by
  unfold Like at h
  rw [h]
  exact ⟨⟨_, rfl, fun _ => Nat.le_refl _⟩, ⟨[], rfl, List.forall_mem_nil _⟩, rfl, rfl, rfl, rfl, rfl,
    rfl, fun _ => .refl _⟩

theorem refl (s : CheckState) : s.Touched place s := .of_like (.refl s)

theorem trans (h : s.Touched place s') (h' : s'.Touched place s'') : s.Touched place s'' where
  table := by
    obtain ⟨rs, hrs, hle⟩ := h.table
    obtain ⟨rs', hrs', hle'⟩ := h'.table
    rw [hrs] at hrs' hle'
    exact ⟨rs', hrs', fun id => Nat.le_trans (hle id) (hle' id)⟩
  reports := by
    obtain ⟨more, hmore, hplace⟩ := h.reports
    obtain ⟨more', hmore', hplace'⟩ := h'.reports
    refine ⟨more' ++ more, ?_, fun d hd => (List.mem_append.1 hd).elim (hplace' d) (hplace d)⟩
    rw [hmore', hmore, List.append_assoc]
  wholeImports := h'.wholeImports.trans h.wholeImports
  unresolved := h'.unresolved.trans h.unresolved
  placeholders := h'.placeholders.trans h.placeholders
  pendingTypes := h'.pendingTypes.trans h.pendingTypes
  objectDecls := h'.objectDecls.trans h.objectDecls
  signatures := h'.signatures.trans h.signatures
  outParams id := (h.outParams id).trans (h'.outParams id)

end Touched

/-- The run with the graft may go on alone. -/
theorem Grafted.touched {g : Graft} {env : Env} {u u' : CheckState} (h : s.Grafted g env u)
    (htouched : u.Touched g.place u') (hfaithful : u'.Faithful env) : s.Grafted g env u' where
  table := by
    obtain ⟨rs, hrs, hle⟩ := htouched.table
    rw [hrs]
    exact h.table.of_references s.table.references fun id =>
      Nat.le_trans (h.table.count id) (hle _)
  faithful := h.faithful
  faithful' := hfaithful
  fits := h.fits
  contexts := h.contexts
  reports x hx := by
    obtain ⟨more, hmore, hplace⟩ := htouched.reports
    rw [hmore] at hx
    exact (List.mem_append.1 hx).elim (fun hx => .inl (hplace x hx)) (h.reports x)
  wholeImports := htouched.wholeImports.trans h.wholeImports
  unresolved := htouched.unresolved.trans h.unresolved
  placeholders := htouched.placeholders.trans h.placeholders
  placeholders_lt := h.placeholders_lt
  pendingTypes := htouched.pendingTypes ▸ h.pendingTypes
  objectDecls := htouched.objectDecls ▸ h.objectDecls
  signatures := htouched.signatures.trans h.signatures
  signatureTypes := h.signatureTypes
  outParams id := (h.outParams id).trans (htouched.outParams _)
  outs_lt := h.outs_lt

end CheckState

/-- What is known of the states that a run comes through, however they are touched. -/
structure Standing (head : ModuleHead) (place : Span → Prop) where
  Holds : Env → CheckState → Prop
  head {env : Env} {s : CheckState} : Holds env s → env.head = head
  faithful {env : Env} {s : CheckState} : Holds env s → s.Faithful env
  touched {env : Env} {s s' : CheckState} :
    Holds env s → s.Touched place s' → s'.Faithful env → Holds env s'
  within {env : Env} {s : CheckState} : Holds env s → Holds { env with insideWith := true } s

/-- Nothing is known but what holds of every run. -/
def Standing.plain (head : ModuleHead) (place : Span → Prop) : Standing head place where
  Holds env s := env.head = head ∧ s.Faithful env
  head h := h.1
  faithful h := h.2
  touched h _ hfaithful := ⟨h.1, hfaithful⟩
  within h := ⟨h.1, h.2.of_resolver rfl rfl⟩

namespace Check

variable {α β : Type} {head : ModuleHead} {place : Span → Prop} {I J K : Standing head place}

/-- Every run of the step touches the state, reports at certain places alone, and comes to a
value as `P` says. -/
def Yields (I : Standing head place) (P : α → Prop) (p : Check α) : Prop :=
  ∀ env s, I.Holds env s → s.Touched place (p.outcome env s).2 ∧
    (p.outcome env s).2.Faithful env ∧ P (p.outcome env s).1

/-- Every run of the step touches the state, and reports at certain places alone. -/
abbrev Touches (I : Standing head place) (p : Check α) : Prop := Yields I (fun _ => True) p

section Rules

variable {p : Check α} {P P' : α → Prop} {Q : β → Prop}

theorem Yields.mono (h : Yields I P p) (hP : ∀ a, P a → P' a) : Yields I P' p := fun env s hs =>
  ⟨(h env s hs).1, (h env s hs).2.1, hP _ (h env s hs).2.2⟩

theorem Yields.touches (h : Yields I P p) : Touches I p := h.mono fun _ _ => trivial

theorem Touches.yields (h : Touches I p) (hP : ∀ a, P a) : Yields I P p := h.mono fun a _ => hP a

theorem Yields.pure {a : α} (h : P a) : Yields I P (pure a : Check α) :=
  fun _ s hs => ⟨.refl s, I.faithful hs, h⟩

theorem Touches.pure (a : α) : Touches I (Pure.pure a : Check α) := Yields.pure trivial

theorem Yields.bind {f : α → Check β} (hp : Yields I P p) (hf : ∀ a, P a → Yields I Q (f a)) :
    Yields I Q (p >>= f) := by
  intro env s hs
  obtain ⟨htouched, hfaithful, hP⟩ := hp env s hs
  obtain ⟨htouched', hfaithful', hQ⟩ := hf _ hP env _ (I.touched hs htouched hfaithful)
  rw [outcome_bind]
  exact ⟨htouched.trans htouched', hfaithful', hQ⟩

theorem Touches.bind {f : α → Check β} (hp : Touches I p) (hf : ∀ a, Touches I (f a)) :
    Touches I (p >>= f) := Yields.bind hp fun a _ => hf a

theorem Yields.get {f : CheckState → Check α}
    (h : ∀ env s, I.Holds env s → Yields I P (f s)) : Yields I P (MonadState.get >>= f) :=
  fun env s hs => h env s hs env s hs

theorem Yields.table {f : SymbolTable → Check α}
    (h : ∀ env s, I.Holds env s → Yields I P (f s.table)) : Yields I P (Check.table >>= f) :=
  fun env s hs => h env s hs env s hs

theorem Touches.get {f : CheckState → Check α} (h : ∀ s, Touches I (f s)) :
    Touches I (MonadState.get >>= f) := Yields.get fun _ s _ => h s

theorem Yields.read {f : Env → Check α}
    (h : ∀ env s, I.Holds env s → Yields I P (f env)) : Yields I P (MonadReader.read >>= f) :=
  fun env s hs => h env s hs env s hs

theorem Touches.read {f : Env → Check α} (h : ∀ env, Touches I (f env)) :
    Touches I (MonadReader.read >>= f) := Yields.read fun env _ _ => h env

/-- The step inside a WITH statement. -/
theorem Touches.within (h : Touches I p) :
    Touches I (withReader (fun env => { env with insideWith := true }) p) := fun _ s hs =>
  let ⟨htouched, hfaithful, _⟩ := h _ s (I.within hs)
  ⟨htouched, hfaithful.of_resolver rfl rfl, trivial⟩

theorem optionForM_touches {f : α → Check Unit} {a? : Option α}
    (h : ∀ a, a? = some a → Touches I (f a)) : Touches I (a?.forM f) := by
  cases a? with
  | none => exact .pure ()
  | some a => exact h a rfl

/-- Every run of the step leads from what is known at first to what is known in the end, and to
a value as `P` says. -/
def Leads (I J : Standing head place) (P : α → Prop) (p : Check α) : Prop :=
  ∀ env s, I.Holds env s → J.Holds env (p.outcome env s).2 ∧ P (p.outcome env s).1

theorem Yields.leads (h : Yields I P p) : Leads I I P p := fun env s hs =>
  ⟨I.touched hs (h env s hs).1 (h env s hs).2.1, (h env s hs).2.2⟩

theorem Leads.any (h : Leads I J P p) : Leads I J (fun _ => True) p := fun env s hs =>
  ⟨(h env s hs).1, trivial⟩

theorem Leads.pure {a : α} (h : P a) : Leads I I P (pure a : Check α) := fun _ _ hs => ⟨hs, h⟩

theorem Leads.bind {f : α → Check β} (hp : Leads I J P p) (hf : ∀ a, P a → Leads J K Q (f a)) :
    Leads I K Q (p >>= f) := by
  intro env s hs
  obtain ⟨hs', hP⟩ := hp env s hs
  exact hf _ hP env _ hs'

theorem Leads.get {f : CheckState → Check α} (h : ∀ s, Leads I J P (f s)) :
    Leads I J P (MonadState.get >>= f) := fun env s hs => h s env s hs

theorem Leads.modify {f : CheckState → CheckState} (h : ∀ env s, I.Holds env s → J.Holds env (f s)) :
    Leads I J (fun _ => True) (modify f : Check Unit) := fun env s hs => ⟨h env s hs, trivial⟩

theorem forM_leads {f : α → Check Unit} {as : List α}
    (h : ∀ a ∈ as, Leads I I (fun _ => True) (f a)) : Leads I I (fun _ => True) (as.forM f) := by
  induction as with
  | nil => exact .pure trivial
  | cons a as ih => exact (h a (.head _)).bind fun _ _ => ih fun b hb => h b (.tail _ hb)

theorem optionForM_leads {f : α → Check Unit} {a? : Option α}
    (h : ∀ a, a? = some a → Leads I I (fun _ => True) (f a)) :
    Leads I I (fun _ => True) (a?.forM f) := by
  cases a? with
  | none => exact .pure trivial
  | some a => exact h a rfl

theorem mapM_leads {f : α → Check β} {as : List α} (h : ∀ a ∈ as, Leads I I (fun _ => True) (f a)) :
    Leads I I (fun _ => True) (as.mapM f) := by
  induction as with
  | nil => exact .pure trivial
  | cons a as ih =>
    rw [List.mapM_cons]
    exact (h a (.head _)).bind fun _ _ => (ih fun b hb => h b (.tail _ hb)).bind fun _ _ =>
      .pure trivial

theorem Query.touches (h : Query head p) : Touches I p := by
  intro env s hs
  obtain rfl := I.head hs
  have hfaithful := I.faithful hs
  obtain ⟨-, hlike, hfaithful'⟩ := h.stable hfaithful hfaithful (CheckState.Like.refl s)
  exact ⟨.of_like hlike, hfaithful', trivial⟩

theorem searchDepth_touches (o : ResolvedObject) {f : Nat → Check α} (hf : ∀ n, Query head (f n)) :
    Touches I (searchDepth o >>= f) := by
  intro env s hs
  exact (hf _).touches env s hs

theorem forM_touches {f : α → Check Unit} {as : List α} (h : ∀ a ∈ as, Touches I (f a)) :
    Touches I (as.forM f) := by
  induction as with
  | nil => exact .pure ()
  | cons a as ih => exact (h a (.head _)).bind fun _ => ih fun b hb => h b (.tail _ hb)

end Rules

/-! ## Searches -/

theorem findMember_touches (o : ResolvedObject) (name : String) :
    Touches I (findMember o name) :=
  searchDepth_touches o fun n => (searchIn_query none _ n o []).bind fun _ => .pure _

theorem chainResolved_touches (o : ResolvedObject) : Touches I (chainResolved o) :=
  searchDepth_touches o fun n => (searchIn_query (some ()) _ n o []).bind fun _ => .pure _

theorem baseMethod_touches (o : ResolvedObject) (name : String) :
    Touches I (baseMethod o name) :=
  searchDepth_touches o fun n => (baseObjects_query o).bind fun bases =>
    (firstHit_query none (searchIn_query none _ n) bases [o.key]).bind fun _ => .pure _

theorem inheritsItself_touches (o : ResolvedObject) : Touches I (inheritsItself o) :=
  searchDepth_touches o fun n => (baseObjects_query o).bind fun _ => reaches_query o.key n _ []

/-! ## Reports, uses and OUT parameters -/

theorem report_touches {d : Diagnostic} (h : place d.span) : Touches I (report d) :=
  fun _ _ hs => ⟨⟨⟨_, rfl, fun _ => Nat.le_refl _⟩, ⟨[d], rfl, List.forall_mem_singleton.2 h⟩,
    rfl, rfl, rfl, rfl, rfl, rfl, fun _ => .refl _⟩, (I.faithful hs).of_same rfl rfl rfl, trivial⟩

theorem error_touches {span : Span} (h : place span) (code : DiagnosticCode) (message : String) :
    Touches I (error code span message) := report_touches h

theorem warning_touches {span : Span} (h : place span) (code : DiagnosticCode) (message : String) :
    Touches I (warning code span message) := report_touches h

theorem referIn_touches (f : SymbolTable → Nat) (id : Nat) (span : Span) :
    Touches I (modifyTable fun t => t.referIn (f t) id span) := by
  refine fun _ _ hs => ⟨⟨⟨_, rfl, fun i => ?_⟩, ⟨[], rfl, List.forall_mem_nil _⟩,
    rfl, rfl, rfl, rfl, rfl, rfl, fun _ => .refl _⟩, (I.faithful hs).of_same rfl rfl rfl, trivial⟩
  rw [References.count_add]
  exact Nat.le_add_right _ _

theorem refer_touches (id : Nat) (span : Span) : Touches I (refer id span) :=
  referIn_touches (·.current) id span

theorem setOutState_touches (id : Nat) {f : OutState → OutState}
    (hf : ∀ a, Graft.OutMatches a (a.map f)) : Touches I (setOutState id f) := by
  refine fun _ s hs => ⟨⟨⟨_, rfl, fun _ => Nat.le_refl _⟩, ⟨[], rfl, List.forall_mem_nil _⟩,
    rfl, rfl, rfl, rfl, rfl, rfl, fun i => ?_⟩, (I.faithful hs).of_same rfl rfl rfl, trivial⟩
  show Graft.OutMatches _ (List.lookup i (changeOut s.outParams id f))
  rw [lookup_changeOut]
  split
  · exact hf _
  · exact .refl _

theorem markAssigned_touches (id : Nat) : Touches I (markAssigned id) :=
  setOutState_touches id fun a => by
    cases a with
    | none => trivial
    | some a => exact ⟨fun _ => rfl, fun _ => rfl⟩

theorem noteRead_touches {span : Span} (h : place span) (id : Nat) :
    Touches I (noteRead id span) := by
  refine (refer_touches id span).bind fun _ => .get fun s => ?_
  split
  · exact .pure ()
  · split
    · exact .pure ()
    · refine (setOutState_touches id fun a => ?_).bind fun _ =>
        (symbol?_query id).touches.bind fun _ => warning_touches h _ _
      cases a with
      | none => trivial
      | some a => exact ⟨fun h => h, fun _ => Bool.or_true _⟩

/-! ## Names -/

theorem objectMemberAt_touches (scope : Nat) (id : Ident) :
    Touches I (objectMemberAt scope id) := by
  refine table_query.touches.bind fun t => ?_
  split
  · split
    · refine .read fun env => ?_
      split
      · next o _ =>
        refine (findMember_touches o id.name).bind fun m? => ?_
        cases m? with
        | none => exact .pure _
        | some m => exact (memberBinding_query m id.span).touches.bind fun _ => .pure _
      · exact .pure _
    · exact .pure _
  · exact .pure _

theorem nameIn_touches (id : Ident) (scopes : List Nat) : Touches I (nameIn id scopes) := by
  induction scopes with
  | nil => exact .pure _
  | cons scope rest ih =>
    refine table_query.touches.bind fun t => ?_
    split
    · exact .pure _
    · refine (objectMemberAt_touches scope id).bind fun b? => ?_
      cases b? with
      | none => exact ih
      | some b => exact .pure _

theorem resolveName_touches {id : Ident} (h : place id.span) : Touches I (resolveName id) := by
  refine table_query.touches.bind fun t => (nameIn_touches id _).bind fun b? => ?_
  cases b? with
  | some b => exact .pure _
  | none =>
    dsimp only
    split
    · exact .pure _
    · refine (lookupExternal_query id.name).touches.bind fun found => ?_
      cases found with
      | found b => exact .pure _
      | unknowable => exact .pure _
      | missing =>
        dsimp only
        split
        · exact .pure _
        · refine suppressUnknown_query.touches.bind fun suppressed => ?_
          split
          · exact .pure _
          · exact (error_touches h _ _).bind fun _ => .pure _

theorem readName_touches {id : Ident} (h : place id.span) : Touches I (readName id) := by
  refine (resolveName_touches h).bind fun b? => ?_
  cases b? with
  | none => exact .pure _
  | some b =>
    cases b with
    | declared symbol => exact (noteRead_touches h symbol).bind fun _ => (valueType_query _).touches
    | external s => exact (valueType_query _).touches
    | builtin => exact (valueType_query _).touches

theorem writeName_touches {id : Ident} (h : place id.span) : Touches I (writeName id) := by
  have refused (what : String) : Touches I (notAssignable id what) := error_touches h _ _
  refine (resolveName_touches h).bind fun b? => ?_
  cases b? with
  | none => exact .pure _
  | some b =>
    cases b with
    | declared symbol =>
      have rest (_ : Unit) : Touches I (do markAssigned symbol; valueType (.declared symbol)) :=
        (markAssigned_touches symbol).bind fun _ => (valueType_query _).touches
      refine (refer_touches symbol id.span).bind fun _ => (symbol?_query symbol).touches.bind fun s? => ?_
      cases s? with
      | none => exact rest ()
      | some s =>
        dsimp only
        split
        · exact (error_touches h _ _).bind rest
        · split
          · exact (refused _).bind rest
          · exact rest ()
    | external s =>
      dsimp only
      split
      · exact (refused _).bind fun _ => (valueType_query _).touches
      · exact (valueType_query _).touches
    | builtin => exact (refused _).bind fun _ => (valueType_query _).touches

theorem moduleMember_touches (module : Ident) {member : Ident} (h : place member.span) :
    Touches I (moduleMember module member) := by
  refine table_query.touches.bind fun t => ?_
  split
  · exact .pure _
  · split
    · refine (refer_touches _ _).bind fun _ => (lookup_query _ _ _).touches.bind fun found => ?_
      cases found with
      | found b => exact (valueType_query b).touches.bind fun _ => .pure _
      | unknowable => exact .pure _
      | missing => exact (error_touches h _ _).bind fun _ => .pure _
    · exact .pure _

theorem objectMemberType_touches (typeName : String) (o : ResolvedObject) {member : Ident}
    (h : place member.span) : Touches I (objectMemberType typeName o member) := by
  refine (findMember_touches o member.name).bind fun m? => ?_
  cases m? with
  | some m =>
    refine (memberBinding_query m member.span).touches.bind fun b => ?_
    cases b with
    | declared id => exact (refer_touches id member.span).bind fun _ => .pure _
    | external s => exact .pure _
    | builtin => exact .pure _
  | none =>
    refine (chainResolved_touches o).bind fun resolved => .read fun env => ?_
    dsimp only
    split
    · exact (error_touches h _ _).bind fun _ => .pure _
    · exact .pure _

theorem memberType_touches (base : Ty) {member : Ident} (h : place member.span) :
    Touches I (memberType base member) := by
  unfold memberType
  refine (normalize_query base).touches.bind fun t => ?_
  extract_lets rest
  have plain (base : Ty) : Touches I (rest base) := by
    unfold rest
    split
    · exact .pure _
    · next module? name =>
      refine (findObject_query module? name).touches.bind fun o? => ?_
      cases o? with
      | some o => exact objectMemberType_touches name o h
      | none =>
        refine (resolveNamed_query module? name).touches.bind fun t? => ?_
        split
        · exact .pure _
        · exact .pure _
    · exact .pure _
  split
  · exact (normalize_query _).touches.bind plain
  · exact (Touches.pure _).bind plain

end Check

end SimFront
