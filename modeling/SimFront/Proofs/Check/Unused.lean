import SimFront.Proofs.Check.Idle

/-!
# Behind its routine a local symbol is not used

What a name means is declared in a scope around, or it is a member of an object type
(`usable_of_resolveName`); type names, modules and what a module exports are no local symbols.  So
all that the steps of an analysis record are uses of symbols that may be used where they stand
(`CheckState.Usable`), and each step settles what it goes through (`Judges`).
-/

namespace SimFront

namespace CheckState

/-- The object types that were noted have scopes of objects. -/
def Membered (s : CheckState) : Prop :=
  ∀ d ∈ s.objectDecls, s.table.kind? d.scope = some .object

/-- The use of a symbol is not one of a local symbol of a routine that is done. -/
def Usable (s : CheckState) (id : Nat) : Prop :=
  ∀ x, s.table.symbol? id = some x → s.table.IsLocal x →
    x.scope ∈ s.table.enclosing s.table.current

variable {s s' : CheckState}

theorem Usable.of_table {id : Nat} (h : s.Usable id) (htable : s'.table = s.table) :
    s'.Usable id := by
  unfold Usable
  rw [htable]
  exact h

theorem usable_of_declared (hs : s.table.Consistent) {scope : Nat} {name : String} {id : Nat}
    (hscope : scope ∈ s.table.enclosing s.table.current)
    (h : s.table.declared? scope name = some id) : s.Usable id := fun x hx _ => by
  rw [hs.scope_of_declared h hx]
  exact hscope

theorem usable_of_kind {id : Nat} (kind : SymbolKind) (hvar : kind ≠ .var)
    (hparameter : kind ≠ .parameter) (h : ∀ x, s.table.symbol? id = some x → x.kind = kind) :
    s.Usable id := fun x hx hlocal => by
  rw [SymbolTable.IsLocal, h x hx] at hlocal
  exact (hlocal.1.elim hvar hparameter).elim

/-- A member of an object type is no local symbol. -/
theorem Membered.usable (h : s.Membered) (hs : s.table.Consistent) {d : ObjectDecl}
    (hd : d ∈ s.objectDecls) {name : String} {id : Nat}
    (hdeclared : s.table.declared? d.scope name = some id) : s.Usable id := fun x hx hlocal => by
  rw [SymbolTable.IsLocal, hs.scope_of_declared hdeclared hx, h d hd] at hlocal
  rcases hlocal.2 with h | h <;> cases h

end CheckState

namespace Check

variable {α β : Type} {head : ModuleHead} {env : Env} {s : CheckState}

/-! ## Meanings -/

theorem usable_of_memberSymbol? (hs : s.table.Consistent) (hmembers : s.Membered)
    {owner name : String} {q : Nat}
    (h : ((memberSymbol? owner name).outcome env s).1 = some q) : s.Usable q := by
  obtain ⟨d, hd, hdeclared⟩ := Option.bind_eq_some_iff.1
    (show (s.objectDecls.find? (·.name = owner)).bind (fun d => s.table.declared? d.scope name) =
      some q from h)
  exact hmembers.usable hs (List.mem_of_find?_eq_some hd) hdeclared

theorem usable_of_memberBinding (hs : s.table.Consistent) (hmembers : s.Membered) {m : Member}
    {use : Span} {q : Nat} (h : ((memberBinding m use).outcome env s).1 = .declared q) :
    s.Usable q := by
  unfold memberBinding at h
  dsimp only at h
  split at h
  · cases h
  · rw [outcome_bind] at h
    cases hid : ((memberSymbol? m.owner m.name).outcome env s).1 with
    | none =>
      rw [hid] at h
      cases h
    | some id =>
      rw [hid] at h
      cases h
      exact usable_of_memberSymbol? hs hmembers hid

theorem usable_of_objectMemberAt (hfaithful : s.Faithful env) (hs : s.table.Consistent)
    (hmembers : s.Membered) {scope : Nat} {id : Ident} {q : Nat}
    (h : ((objectMemberAt scope id).outcome env s).1 = some (.declared q)) : s.Usable q := by
  rw [objectMemberAt, outcome_table] at h
  cases hscope : s.table.scope? scope with
  | none =>
    rw [hscope] at h
    cases h
  | some sc =>
    rw [hscope] at h
    dsimp only at h
    split at h
    · rw [outcome_read] at h
      cases ho : (env.objects.find? (·.scope = scope)).bind (·.object?) with
      | none =>
        rw [ho] at h
        cases h
      | some o =>
        rw [ho] at h
        dsimp only at h
        rw [outcome_find hfaithful (findMember_touches o id.name)] at h
        · cases hm : ((findMember o id.name).outcome env s).1 with
          | none =>
            rw [hm] at h
            cases h
          | some m =>
            rw [hm] at h
            exact usable_of_memberBinding hs hmembers (Option.some.inj h)
        · intro m?
          split
          · exact .bind (memberBinding_query _ _) (memberBinding_sees _ _) fun _ => .pure _
          · exact .pure _
    · cases h

theorem usable_of_nameIn (hfaithful : s.Faithful env) (hs : s.table.Consistent)
    (hmembers : s.Membered) {id : Ident} {q : Nat} {scopes : List Nat}
    (hscopes : scopes ⊆ s.table.enclosing s.table.current)
    (h : ((nameIn id scopes).outcome env s).1 = some (.declared q)) : s.Usable q := by
  induction scopes with
  | nil => cases h
  | cons scope rest ih =>
    obtain ⟨hscope, hrest⟩ := List.cons_subset.1 hscopes
    rw [nameIn_cons hfaithful] at h
    cases hdeclared : s.table.declared? scope id.name with
    | some symbol =>
      rw [hdeclared] at h
      cases h
      exact CheckState.usable_of_declared hs hscope hdeclared
    | none =>
      rw [hdeclared, Option.map_none, Option.none_or] at h
      cases hmember : ((objectMemberAt scope id).outcome env s).1 with
      | some b =>
        rw [hmember] at h
        cases h
        exact usable_of_objectMemberAt hfaithful hs hmembers hmember
      | none =>
        rw [hmember, Option.none_or] at h
        exact ih hrest h

/-- What a name means may be used where the name stands. -/
theorem usable_of_resolveName (hfaithful : s.Faithful env) (hs : s.table.Consistent)
    (hmembers : s.Membered) {id : Ident} {q : Nat}
    (h : ((resolveName id).outcome env s).1 = some (.declared q)) : s.Usable q := by
  rw [resolveName, outcome_table, outcome_bind] at h
  cases hb : ((nameIn id (s.table.enclosing s.table.current)).outcome env s).1 with
  | some b =>
    rw [hb] at h
    cases h
    exact usable_of_nameIn hfaithful hs hmembers (List.Subset.refl _) hb
  | none =>
    rw [hb] at h
    dsimp only at h
    split at h
    · cases h
    · -- what stands outside the module is a copy, and what is missing means nothing
      refine absurd h (Always.ne ?_)
      refine .bind (lookupExternal_always id.name) fun found hfound => ?_
      cases found with
      | found b =>
        obtain ⟨x, rfl⟩ := hfound b rfl
        exact .pure (by rintro ⟨⟩)
      | unknowable => exact .pure (by rintro ⟨⟩)
      | missing =>
        dsimp only
        split
        · exact .pure (by rintro ⟨⟩)
        · refine .after fun suppressed => ?_
          split
          · exact .pure (by rintro ⟨⟩)
          · exact .after fun _ => .pure (by rintro ⟨⟩)

end Check

namespace Graft

theorem OutMatches.isSome_eq {a b : Option OutState} (h : OutMatches a b) : b.isSome = a.isSome := by
  cases a <;> cases b
  · rfl
  · exact h.elim
  · exact h.elim
  · rfl

end Graft

namespace Check

variable {α β : Type} {head : ModuleHead} {env : Env} {s s' : CheckState}

/-! ## Steps that settle what they go through -/

/-- What is known of the states of an analysis. -/
structure Usual (env : Env) (s : CheckState) : Prop where
  faithful : s.Faithful env
  reachable : s.table.Reachable
  membered : s.Membered

/-- From the state the step settles what it goes through, and the same OUT parameters are looked
after. -/
structure Judged (env : Env) (s : CheckState) (p : Check α) : Prop where
  usual : Usual env (stateAfter env p s)
  settles : s.Settles (stateAfter env p s)
  outs : ∀ id, (List.lookup id (stateAfter env p s).outParams).isSome =
    (List.lookup id s.outParams).isSome

/-- Every run of the step settles what it goes through. -/
def Judges (head : ModuleHead) (p : Check α) : Prop :=
  ∀ env s, env.head = head → Usual env s → Judged env s p

theorem Usual.enter (hs : Usual env s) (kind : ScopeKind) (span : Span) :
    Usual env (entered kind span s) where
  faithful := hs.faithful.of_same rfl rfl rfl
  reachable := hs.reachable.enter kind span
  membered d hd := (s.table.extends_enter kind span).kind (hs.membered d hd)

theorem Usual.leave (hs : Usual env s) (reports : List Diagnostic) (outs : List (Nat × OutState)) :
    Usual env { s with table := s.table.leave, reports := reports, outParams := outs } where
  faithful := hs.faithful.of_same rfl rfl rfl
  reachable := hs.reachable.leave
  membered d hd := s.table.extends_leave.kind (hs.membered d hd)

theorem Usual.of_env {env' : Env} (hs : Usual env s) (hresolver : env'.resolver? = env.resolver?)
    (hhead : env'.head = env.head) : Usual env' s :=
  ⟨hs.faithful.of_resolver hresolver hhead, hs.reachable, hs.membered⟩

section Rules

variable {p : Check α} {f : α → Check β}

theorem Judged.bind (hs : Usual env s) (hp : Judged env s p)
    (hf : Judged env (stateAfter env p s) (f (p.outcome env s).1)) : Judged env s (p >>= f) where
  usual := hf.usual
  settles := hp.settles.trans hs.reachable hf.settles
  outs id := (hf.outs id).trans (hp.outs id)

theorem Judged.then (hs : Usual env s) (hp : Judged env s p)
    (hf : ∀ a, Judges env.head (f a)) : Judged env s (p >>= f) :=
  hp.bind hs (hf _ env _ rfl hp.usual)

theorem Judged.table {f : SymbolTable → Check α} (h : Judged env s (f s.table)) :
    Judged env s (Check.table >>= f) := ⟨h.usual, h.settles, h.outs⟩

theorem Judged.symbol? {id : Nat} {f : Option Symbol → Check α}
    (h : Judged env s (f (s.table.symbol? id))) : Judged env s (Check.symbol? id >>= f) :=
  ⟨h.usual, h.settles, h.outs⟩

theorem Judged.read {f : Env → Check α} (h : Judged env s (f env)) :
    Judged env s (MonadReader.read >>= f) := ⟨h.usual, h.settles, h.outs⟩

/-- A step that opens no scope. -/
theorem Judged.unopened (hs : Usual env s) (hfaithful : (stateAfter env p s).Faithful env)
    (hgrows : s.table.Grows (stateAfter env p s).table)
    (hscopes : (stateAfter env p s).table.scopes.size = s.table.scopes.size)
    (hcount : ∀ id x, s.table.symbol? id = some x → s.table.IsLocal x →
      x.scope ∉ s.table.enclosing s.table.current →
      (stateAfter env p s).table.referenceCount id = s.table.referenceCount id)
    (more : List Diagnostic) (hreports : (stateAfter env p s).reports = more ++ s.reports)
    (hcodes : ∀ d ∈ more, d.code ∉ idleCodes)
    (hdecls : (stateAfter env p s).objectDecls = s.objectDecls)
    (houts : ∀ id, (List.lookup id (stateAfter env p s).outParams).isSome =
      (List.lookup id s.outParams).isSome) : Judged env s p := by
  obtain ⟨hreachable, hextends, -⟩ := hgrows.choose_spec.reachable hs.reachable
  exact ⟨⟨hfaithful, hreachable, fun d hd => hextends.kind (hs.membered d (hdecls ▸ hd))⟩,
    .unopened hreachable.consistent hgrows hscopes hcount more hreports hcodes, houts⟩

theorem Searches.judged (hp : Searches env.head p) (hs : Usual env s) :
    Judged env s p ∧ (stateAfter env p s).table = s.table := by
  obtain ⟨⟨htable, -⟩, hfaithful, -⟩ := hp.1 env s rfl hs.faithful
  obtain ⟨htouched, -⟩ := hp.2 env s ⟨rfl, hs.faithful⟩
  obtain ⟨more, hmore, hnone⟩ := htouched.reports
  have htable : (stateAfter env p s).table = s.table := htable
  refine ⟨.unopened hs hfaithful ?_ (by rw [htable]) (fun _ _ _ _ _ => by rw [htable]) more hmore
    (fun d hd => (hnone d hd).elim) htouched.objectDecls fun id =>
      (htouched.outParams id).isSome_eq, htable⟩
  rw [htable]
  exact .refl _

/-- What follows a search can go by what was found. -/
theorem Judged.search (hs : Usual env s) (hp : Searches env.head p)
    (hf : ∀ s', Usual env s' → s'.table = s.table → Judged env s' (f (p.outcome env s).1)) :
    Judged env s (p >>= f) :=
  have ⟨hjudged, htable⟩ := hp.judged hs
  hjudged.bind hs (hf _ hjudged.usual htable)

theorem Query.searches (hp : Query head p) : Searches head p := ⟨hp.still, hp.touches⟩

theorem report_judges {d : Diagnostic} (hcode : d.code ∉ idleCodes) : Judges head (report d) :=
  fun _ s _ hs => .unopened hs (hs.faithful.of_same rfl rfl rfl) (.refl s.table) rfl
    (fun _ _ _ _ _ => rfl) [d] rfl (List.forall_mem_singleton.2 hcode) rfl fun _ => rfl

theorem judges_searches : ComposesSearches head fun _ p => Judges head p where
  bind hp hf := by
    rintro env s rfl hs
    exact (hp env s rfl hs).then hs hf
  get h env s henv hs := have h := h s env s henv hs
    ⟨h.usual, h.settles, h.outs⟩
  read h env s henv hs := .read (h env henv env s henv hs)
  withReader f hf hhead hp := by
    intro env s henv hs
    obtain ⟨husual, hsettles, houts⟩ :=
      hp (f env) s ((hhead env).trans henv) (hs.of_env (hf env) (hhead env))
    exact ⟨husual.of_env (hf env).symm (hhead env).symm, hsettles, houts⟩
  search hp := by
    rintro env s rfl hs
    exact (hp.judged hs).1
  report hcode := report_judges fun hidle => hcode (List.mem_append_right _ hidle)

theorem error_judges {code : DiagnosticCode} (hcode : code ∉ idleCodes) (span : Span)
    (message : String) : Judges head (error code span message) := report_judges hcode

/-- A change of what is neither declared nor reported. -/
theorem modify_judges {g : CheckState → CheckState} (hg : ByName head (modify g))
    (hsame : ∀ s, (g s).table = s.table ∧ (g s).reports = s.reports ∧
      (g s).objectDecls = s.objectDecls ∧
      ∀ id, (List.lookup id (g s).outParams).isSome = (List.lookup id s.outParams).isSome) :
    Judges head (modify g : Check Unit) := by
  intro env s henv hs
  obtain ⟨htable, hreports, hdecls, houts⟩ := hsame s
  have htable : (stateAfter env (modify g : Check Unit) s).table = s.table := htable
  refine .unopened hs (hg.faithful henv hs.faithful).1 ?_ (by rw [htable])
    (fun _ _ _ _ _ => by rw [htable]) [] hreports (List.forall_mem_nil _) hdecls houts
  rw [htable]
  exact .refl _

end Rules

/-! ## Uses -/

/-- The use of a symbol that may be used. -/
theorem referIn_judged (hs : Usual env s) {id : Nat} (hid : s.Usable id)
    (scope : SymbolTable → Nat) (span : Span) :
    Judged env s (modifyTable fun t => t.referIn (scope t) id span) := by
  refine .unopened hs (hs.faithful.of_same rfl rfl rfl) (.references s.table _) rfl
    (fun i x hx hlocal hscope => ?_) [] rfl (List.forall_mem_nil _) rfl fun _ => rfl
  have hne : i ≠ id := fun heq => hscope (hid x (heq ▸ hx) hlocal)
  show (s.table.references.add _).count i = _
  rw [References.count_add, if_neg (Ne.symm hne), Nat.add_zero]
  rfl

theorem refer_judged (hs : Usual env s) {id : Nat} (hid : s.Usable id) (span : Span) :
    Judged env s (refer id span) := referIn_judged hs hid (·.current) span

theorem setOutState_judges (id : Nat) (f : OutState → OutState) : Judges head (setOutState id f) := by
  refine modify_judges (.modify _ (fun _ _ _ => rfl) fun _ h => h) fun s =>
    ⟨rfl, rfl, rfl, fun i => ?_⟩
  show (List.lookup i (changeOut s.outParams id f)).isSome = _
  rw [lookup_changeOut]
  split
  · exact Option.isSome_map
  · rfl

theorem noteRead_judged (hs : Usual env s) {id : Nat} (hid : s.Usable id) (span : Span) :
    Judged env s (noteRead id span) := by
  have h : ComposesSearches env.head fun _ p => Judges env.head p := judges_searches
  refine (refer_judged hs hid span).then hs fun _ => h.get fun t => ?_
  split
  · exact h.pure _
  · split
    · exact h.pure _
    · exact h.bind (setOutState_judges id _) fun _ => h.bind (h.query (symbol?_query id)) fun _ =>
        report_judges (show DiagnosticCode.outReadBeforeAssign ∉ idleCodes by decide)

/-- What follows the look-up of a name may use what the name means. -/
theorem Judged.resolve {id : Ident} {f : Option Binding → Check β} (hs : Usual env s)
    (hf : ∀ s', Usual env s' → ∀ b?, (∀ q, b? = some (.declared q) → s'.Usable q) →
      Judged env s' (f b?)) : Judged env s (resolveName id >>= f) := by
  have hjudged := resolveName_composes judges_searches id env s rfl hs
  obtain ⟨⟨htable, -⟩, -⟩ := resolveName_finds id env s rfl hs.faithful
  exact hjudged.bind hs (hf _ hjudged.usual _ fun q hq =>
    (usable_of_resolveName hs.faithful hs.reachable.consistent hs.membered hq).of_table htable)

theorem readName_judges (id : Ident) : Judges head (readName id) := by
  rintro env s rfl hs
  have h : ComposesSearches env.head fun _ p => Judges env.head p := judges_searches
  refine .resolve hs fun s' hs' b? hb => ?_
  cases b? with
  | none => exact h.pure _ env s' rfl hs'
  | some b =>
    cases b with
    | declared q =>
      exact (noteRead_judged hs' (hb q rfl) id.span).then hs' fun _ => h.query (valueType_query _)
    | external x => exact h.query (valueType_query _) env s' rfl hs'
    | builtin => exact h.query (valueType_query _) env s' rfl hs'

theorem writeName_judges (id : Ident) : Judges head (writeName id) := by
  rintro env s rfl hs
  have h : ComposesSearches env.head fun _ p => Judges env.head p := judges_searches
  have refused (what : String) : Judges env.head (notAssignable id what) :=
    error_judges (by decide) _ _
  have value (b : Binding) : Judges env.head (valueType b) := h.query (valueType_query b)
  refine .resolve hs fun s' hs' b? hb => ?_
  cases b? with
  | none => exact h.pure _ env s' rfl hs'
  | some b =>
    cases b with
    | declared q =>
      have rest (_ : Unit) : Judges env.head (do markAssigned q; valueType (.declared q)) :=
        h.bind (setOutState_judges q _) fun _ => value _
      refine (refer_judged hs' (hb q rfl) id.span).then hs' fun _ =>
        h.bind (h.query (symbol?_query q)) fun x? => ?_
      cases x? with
      | none => exact rest ()
      | some x =>
        dsimp only
        split
        · exact h.bind (error_judges (by decide) _ _) rest
        · split
          · exact h.bind (refused _) rest
          · exact rest ()
    | external x =>
      dsimp only
      split
      · exact h.bind (refused _) (fun _ => value _) env s' rfl hs'
      · exact value _ env s' rfl hs'
    | builtin => exact h.bind (refused _) (fun _ => value _) env s' rfl hs'

theorem moduleMember_judges (module member : Ident) : Judges head (moduleMember module member) := by
  rintro env s rfl hs
  have h : ComposesSearches env.head fun _ p => Judges env.head p := judges_searches
  refine .table ?_
  split
  · exact h.pure _ env s rfl hs
  · next id hid =>
    split
    · next hmodule =>
      have husable : s.Usable id := by
        refine CheckState.usable_of_kind .module (by decide) (by decide) fun x hx => ?_
        rw [hx] at hmodule
        exact of_decide_eq_true hmodule
      refine (refer_judged hs husable module.span).then hs fun _ =>
        h.bind (h.query (lookup_query _ _ _)) fun found => ?_
      cases found with
      | found b => exact h.bind (h.query (valueType_query b)) fun _ => h.pure _
      | unknowable => exact h.pure _
      | missing => exact h.bind (error_judges (by decide) _ _) fun _ => h.pure _
    · exact h.pure _ env s rfl hs

theorem objectMemberType_judges (typeName : String) (o : ResolvedObject) (member : Ident) :
    Judges head (objectMemberType typeName o member) := by
  rintro env s rfl hs
  have h : ComposesSearches env.head fun _ p => Judges env.head p := judges_searches
  refine .search hs ⟨(findMember_finds o member.name).still, findMember_touches o member.name⟩
    fun s₁ hs₁ _ => ?_
  cases ((findMember o member.name).outcome env s).1 with
  | some m =>
    refine .search hs₁ (memberBinding_query m member.span).searches fun s₂ hs₂ htable => ?_
    cases hb : ((memberBinding m member.span).outcome env s₁).1 with
    | declared id =>
      have husable := usable_of_memberBinding hs₁.reachable.consistent hs₁.membered hb
      exact (refer_judged hs₂ (husable.of_table htable) member.span).then hs₂ fun _ => h.pure _
    | external x => exact h.pure _ env s₂ rfl hs₂
    | builtin => exact h.pure _ env s₂ rfl hs₂
  | none =>
    refine h.bind (h.search ⟨chainResolved_still o, chainResolved_touches o⟩) (fun resolved =>
      h.read fun env _ => ?_) env s₁ rfl hs₁
    dsimp only
    split
    · exact h.bind (error_judges (by decide) _ _) fun _ => h.pure _
    · exact h.pure _

theorem judges_names : Composes head fun _ p => Judges head p where
  toComposesSearches := judges_searches
  readName := readName_judges
  writeName := writeName_judges
  moduleMember := moduleMember_judges
  objectMemberType := objectMemberType_judges

end Check

end SimFront
