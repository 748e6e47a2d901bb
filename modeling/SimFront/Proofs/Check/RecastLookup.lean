import SimFront.Proofs.Check.Recast

/-!
# Looking names up beside a recast variable

What a name means, and which types and members it leads to, does not hang on the type of a
variable.  The types that the variable has in the two runs are normalized to the same type
(`normalize_recasts`), and so fit the same places (`assignable_recasts`).
-/

namespace SimFront.Check

variable {α β : Type} {c : Recast}

/-! ## Other modules -/

theorem moduleTable?_blind (name : String) : Blind c (moduleTable? name) := by
  refine Recasts.get fun s own _ => ?_
  rw [show (s.recast c own).modules = s.modules from rfl]
  cases List.lookup name s.modules with
  | some answer => exact .pure rfl
  | none =>
    refine Recasts.read fun env => ?_
    dsimp only
    refine Blind.bind (.modify (fun _ => rfl) (fun _ => rfl) fun _ _ => rfl) fun _ => ?_
    exact .pure rfl

theorem definitionTable?_blind : Blind c definitionTable? := by
  refine Recasts.read fun env => ?_
  split
  · exact moduleTable?_blind env.moduleName
  · exact .pure rfl

theorem hasUnresolvedSource_blind : Blind c hasUnresolvedSource := by
  rw [hasUnresolvedSource_eq]
  have hlacks : Blind c lacksDefinition := by
    refine Recasts.read fun env => ?_
    split
    · exact definitionTable?_blind.bind fun _ => .pure rfl
    · exact .pure rfl
  exact hlacks.bind fun _ => .get fun s own _ => .read fun env => .pure rfl

theorem suppressUnknown_blind : Blind c suppressUnknown := by
  refine Recasts.read fun env => ?_
  split
  · exact .pure rfl
  · exact hasUnresolvedSource_blind

theorem firstImported?_blind (name : String) (ms : List String) : Blind c (firstImported? name ms) := by
  induction ms with
  | nil => exact .pure rfl
  | cons m ms ih =>
    refine (moduleTable?_blind m).bind fun table? => ?_
    split
    · exact .pure rfl
    · exact ih

/-- A name that is found elsewhere is no symbol of the module. -/
def Outside (found : Lookup) : Prop := ∀ id, found ≠ .found (.declared id)

theorem lookupExternal_recasts (name : String) :
    Recasts c (fun a b => a = b ∧ Outside a) (lookupExternal name) (lookupExternal name) := by
  have copy (s : Symbol) : Outside (.found (.external s)) := by
    intro id h
    cases h
  refine .read fun env => definitionTable?_blind.bind fun table? => ?_
  split
  · next s _ => exact .pure ⟨rfl, copy s⟩
  · refine .get fun s own _ => ?_
    refine (firstImported?_blind name s.wholeImports).bind fun s? => ?_
    cases s? with
    | some s => exact .pure ⟨rfl, copy s⟩
    | none =>
      refine hasUnresolvedSource_blind.bind fun unresolved => ?_
      split
      · exact .pure ⟨rfl, fun _ h => by cases h⟩
      · exact .pure ⟨rfl, fun _ h => by cases h⟩

theorem lookupIn_outside (module name : String) (table? : Option SymbolTable) :
    Outside (lookupIn module name table?) := by
  intro id h
  unfold lookupIn at h
  split at h
  · cases h
  · split at h <;> cases h

/-- If the binding is the variable, the name is that of the variable. -/
def Other (c : Recast) (name : String) (b : Binding) : Prop := b = .declared c.id → name = c.name

theorem Other.of_lookupFrom? {t : SymbolTable} (h : t.Fits c) {scope id : Nat} {name : String}
    (hid : t.lookupFrom? scope name = some id) : Other c name (.declared id) := by
  intro heq
  obtain rfl := Binding.declared.inj heq
  obtain ⟨i, -, hi⟩ := List.exists_of_findSome?_eq_some hid
  exact h.only i name hi

theorem lookup_recasts (module? : Option String) (name : String) (scope : Nat) :
    Recasts c (fun a b => a = b ∧ ∀ x, a = .found x → Other c name x) (lookup module? name scope)
      (lookup module? name scope) := by
  have outside {found : Lookup} (h : Outside found) : ∀ x, found = .found x → Other c name x := by
    intro x hx heq
    exact absurd (heq ▸ hx) (h c.id)
  have own {t : SymbolTable} (ht : t.Fits c) {scope id : Nat}
      (hid : t.lookupFrom? scope name = some id) :
      ∀ x, Lookup.found (.declared id) = .found x → Other c name x := by
    intro x hx
    obtain rfl := Lookup.found.inj hx
    exact .of_lookupFrom? ht hid
  refine .read fun env => .table fun t uses ht => ?_
  cases module? with
  | none =>
    dsimp only
    rw [t.recast_lookupFrom? c uses]
    split
    · next hid => exact .pure ⟨rfl, own ht hid⟩
    · exact (lookupExternal_recasts name).mono fun _ _ h => ⟨h.1, outside h.2⟩
  | some m =>
    dsimp only
    rw [t.recast_lookupFrom? c uses]
    split
    · split
      · next hid => exact .pure ⟨rfl, own ht hid⟩
      · split
        · exact definitionTable?_blind.bind fun table? =>
            .pure ⟨rfl, outside (lookupIn_outside m name table?)⟩
        · exact .pure ⟨rfl, outside fun _ h => by cases h⟩
    · exact (moduleTable?_blind m).bind fun table? =>
        .pure ⟨rfl, outside (lookupIn_outside m name table?)⟩

theorem lookup_blind (module? : Option String) (name : String) (scope : Nat) :
    Blind c (lookup module? name scope) := (lookup_recasts module? name scope).mono fun _ _ h => h.1

/-! ## Bindings -/

/-- A symbol as it is found in both tables.  The one that is recast is no type. -/
inductive Seen (c : Recast) (own : Prop) : Option Symbol → Option Symbol → Prop where
  | same (s? : Option Symbol) : Seen c own s? s?
  | recast (s : Symbol) :
      own → s.kind ≠ .type → s.type = c.old → Seen c own (some s) (some { s with type := c.new })

theorem symbol?_recasts (id : Nat) : Recasts c (Seen c (id = c.id)) (symbol? id) (symbol? id) := by
  refine .table fun t uses ht => .pure ?_
  rw [t.recast_symbol?]
  by_cases hid : c.id = id
  · obtain ⟨s, hs, hkind, htype⟩ := ht.symbol
    subst hid
    rw [if_pos rfl, hs]
    exact .recast s rfl hkind htype
  · rw [if_neg hid]
    exact .same _

theorem bindingSymbol?_recasts (b : Binding) :
    Recasts c (Seen c (b = .declared c.id)) (bindingSymbol? b) (bindingSymbol? b) := by
  cases b with
  | declared id =>
    rw [Binding.declared.injEq]
    exact symbol?_recasts id
  | external s => exact .pure (.same _)
  | builtin => exact .pure (.same _)

/-- The value of a name has one type, or is that of the symbol. -/
theorem valueType_recasts {b : Binding} {name : String} (h : Other c name b) :
    Recasts c (c.Types (name = c.name)) (valueType b) (valueType b) := by
  refine (bindingSymbol?_recasts b).bind fun s? s?' hs => ?_
  cases hs with
  | same =>
    cases s? with
    | none => exact .pure (.refl c _ _)
    | some s => dsimp only; split <;> exact .pure (.refl c _ _)
  | recast s hown hkind htype =>
    dsimp only
    split
    · exact .pure (.refl c _ _)
    · exact .pure (.inr ⟨decide_eq_true (h hown), htype, rfl⟩)

/-! ## Types by name -/

theorem declaredType?_blind (module? : Option String) (name : String) (scope : Nat) :
    Blind c (declaredType? module? name scope) := by
  refine (lookup_blind module? name scope).bind fun found => ?_
  cases found with
  | found b =>
    refine (bindingSymbol?_recasts b).bind fun s? s?' hs => ?_
    cases hs with
    | same =>
      cases s? with
      | none => exact .pure rfl
      | some s => dsimp only; split <;> exact .pure rfl
    | recast s _ hkind _ =>
      dsimp only
      rw [if_neg hkind, if_neg hkind]
      exact .pure rfl
  | unknowable => exact .pure rfl
  | missing => exact .pure rfl

theorem followNames_blind (scope hops : Nat) (type : Ty) : Blind c (followNames scope hops type) := by
  induction hops generalizing type with
  | zero => exact .pure rfl
  | succ hops ih =>
    cases type with
    | named module? name =>
      unfold followNames
      split
      · exact .pure rfl
      · refine (declaredType?_blind module? name scope).bind fun t? => ?_
        cases t? with
        | none => exact .pure rfl
        | some t => exact ih t
    | _ => exact .pure rfl

theorem currentScope_blind : Blind c currentScope := .table fun _ _ _ => .pure rfl

theorem resolveNamed_blind (module? : Option String) (name : String) :
    Blind c (resolveNamed module? name) :=
  currentScope_blind.bind fun scope => followNames_blind scope maxHops _

theorem normalize_blind (type : Ty) : Blind c (normalize type) := by
  cases type with
  | named module? name =>
    refine (resolveNamed_blind module? name).bind fun t? => ?_
    split <;> exact .pure rfl
  | _ => exact .pure rfl

/-- Names are followed to the end of a chain that is not too long, and no other module is asked. -/
theorem followNames_leadsTo {s : CheckState} {scope n : Nat} {type behind : Ty}
    (h : s.table.LeadsTo scope n type behind) (env : Env) {hops : Nat} (hn : n < hops) :
    (followNames scope hops type).outcome env s = (some behind, s) := by
  induction h generalizing hops with
  | @here type hnamed =>
    obtain ⟨k, rfl⟩ : ∃ k, hops = k + 1 := ⟨hops - 1, by omega⟩
    cases type with
    | named module? name => cases hnamed
    | _ => rfl
  | @name name id n symbol behind hbuiltin hlookup hsymbol hkind _ ih =>
    obtain ⟨k, rfl⟩ : ∃ k, hops = k + 1 := ⟨hops - 1, by omega⟩
    have hdeclared : (declaredType? none name scope).outcome env s = (some symbol.type, s) := by
      have hfound : (lookup none name scope).outcome env s = (.found (.declared id), s) := by
        unfold lookup
        rw [outcome_read, outcome_bind, show table.outcome env s = (s.table, s) from rfl]
        dsimp only
        rw [hlookup]
        rfl
      unfold declaredType?
      rw [outcome_bind, hfound]
      dsimp only
      rw [outcome_bind, show (bindingSymbol? (.declared id)).outcome env s = (s.table.symbol? id, s) from rfl,
        hsymbol]
      dsimp only
      rw [if_pos hkind]
      rfl
    have hrest := @ih k (by omega)
    unfold followNames
    rw [show builtinType? none name = none from hbuiltin]
    dsimp only
    rw [outcome_bind, hdeclared]
    exact hrest

/-- A type is normalized to the one it leads to. -/
theorem normalize_leadsTo {s : CheckState} {n : Nat} {type behind : Ty}
    (h : s.table.LeadsTo s.table.current n type behind) (hn : n < maxHops)
    (hplain : behind.hasMembers = false) (env : Env) :
    (normalize type).outcome env s = (behind, s) := by
  have hresolved := followNames_leadsTo h env hn
  cases h with
  | here hnamed =>
    cases type with
    | named module? name => cases hnamed
    | _ => rfl
  | @name name =>
    unfold normalize resolveNamed
    rw [outcome_bind, outcome_bind, show currentScope.outcome env s = (s.table.current, s) from rfl,
      hresolved]
    cases behind with
    | record fields => cases hplain
    | object info => cases hplain
    | _ => rfl

/-- The two types of the variable are normalized to one. -/
theorem normalize_recasts {carried : Bool} {a b : Ty} (h : c.Types carried a b) :
    Recasts c Eq (normalize a) (normalize b) := by
  rcases h with rfl | ⟨-, rfl, rfl⟩
  · exact normalize_blind a
  · intro env s u hs
    cases hs with
    | @mk own hfits hsites =>
      obtain ⟨n, hn, hold⟩ := hfits.old
      obtain ⟨m, hm, hnew⟩ := hfits.new
      have hfirst := normalize_leadsTo hold hn c.behind_plain env
      have hsecond := normalize_leadsTo (s := s.recast c own) (hfits.leadsTo hnew) hm
        c.behind_plain env
      rw [hfirst, hsecond]
      exact ⟨rfl, .mk hfits hsites⟩

theorem assignable_recasts {target target' source source' : Ty} {atarget asource : Bool}
    (htarget : c.Types atarget target target') (hsource : c.Types asource source source') :
    Recasts c Eq (assignable target source) (assignable target' source') := by
  refine (normalize_recasts htarget).bind fun t t' ht => ?_
  subst ht
  refine (normalize_recasts hsource).bind fun a a' ha => ?_
  subst ha
  exact .pure rfl

/-! ## Objects -/

theorem objectOrigin?_blind (module? : Option String) (name : String) :
    Blind c (objectOrigin? module? name) := by
  refine .read fun env => ?_
  dsimp only
  split
  · exact .pure rfl
  · refine currentScope_blind.bind fun scope => (lookup_blind module? name scope).bind fun found => ?_
    cases found with
    | found b =>
      refine (bindingSymbol?_recasts b).bind fun s? s?' hs => .pure ?_
      cases hs <;> rfl
    | unknowable => exact .pure rfl
    | missing => exact .pure rfl

theorem findObject_blind (module? : Option String) (name : String) :
    Blind c (findObject module? name) := by
  refine (resolveNamed_blind module? name).bind fun t? => ?_
  split
  · exact (objectOrigin?_blind module? name).bind fun _ => .pure rfl
  · exact .pure rfl

theorem baseObjects_blind (o : ResolvedObject) : Blind c (baseObjects o) := by
  refine mapM_blind o.info.bases fun base => ?_
  cases base with
  | named module? name => exact findObject_blind module? name
  | _ => exact findObject_blind none ""

theorem searchDepth_blind (o : ResolvedObject) : Blind c (searchDepth o) := by
  refine .read fun env => .table fun t uses ht => ?_
  rw [ht.recast_namedBases]
  exact .pure rfl

theorem firstHit_recasts {missing? : Option α} {P : α → Prop} (hmissing : ∀ a, missing? = some a → P a)
    {search : ResolvedObject → List String → Check (Option α × List String)}
    (hsearch : ∀ o visited, Recasts c (fun a b => a = b ∧ ∀ hit, a.1 = some hit → P hit)
      (search o visited) (search o visited)) (os : List (Option ResolvedObject))
    (visited : List String) : Recasts c (fun a b => a = b ∧ ∀ hit, a.1 = some hit → P hit)
      (firstHit missing? search os visited) (firstHit missing? search os visited) := by
  induction os generalizing visited with
  | nil => exact .pure ⟨rfl, fun _ h => by cases h⟩
  | cons o? os ih =>
    cases o? with
    | none =>
      unfold firstHit
      split
      · next hit =>
        refine .pure ⟨rfl, fun a ha => ?_⟩
        obtain rfl := Option.some.inj ha
        exact hmissing hit rfl
      · exact ih visited
    | some o =>
      refine (hsearch o visited).bind fun found found' hfound => ?_
      obtain ⟨rfl, hhit⟩ := hfound
      split
      · next hit visited' => exact .pure ⟨rfl, hhit⟩
      · exact ih _

/-- A search comes to the same hit, of which is known what is known of every hit. -/
theorem searchIn_recasts {missing? : Option α} {hit? : ResolvedObject → Option α} {P : α → Prop}
    (hmissing : ∀ a, missing? = some a → P a) (hhit : ∀ o a, hit? o = some a → P a) (depth : Nat)
    (o : ResolvedObject) (visited : List String) :
    Recasts c (fun a b => a = b ∧ ∀ hit, a.1 = some hit → P hit)
      (searchIn missing? hit? depth o visited) (searchIn missing? hit? depth o visited) := by
  induction depth generalizing o visited with
  | zero => exact .pure ⟨rfl, fun _ h => by cases h⟩
  | succ depth ih =>
    unfold searchIn
    split
    · exact .pure ⟨rfl, fun _ h => by cases h⟩
    · split
      · next hit heq =>
        refine .pure ⟨rfl, fun a ha => ?_⟩
        obtain rfl := Option.some.inj ha
        exact hhit o hit heq
      · exact (baseObjects_blind o).bind fun bases => firstHit_recasts hmissing ih bases _

theorem member?_name {o : ResolvedObject} {name : String} {m : Member} (h : o.member? name = some m) :
    m.name = name := by
  unfold ResolvedObject.member? at h
  split at h
  · obtain rfl := Option.some.inj h
    rfl
  · obtain ⟨info, -, rfl⟩ := Option.map_eq_some_iff.1 h
    rfl

theorem findMember_recasts (o : ResolvedObject) (name : String) :
    Recasts c (fun a b => a = b ∧ ∀ m, a = some m → m.name = name) (findMember o name)
      (findMember o name) := by
  refine (searchDepth_blind o).bind fun depth => ?_
  refine (searchIn_recasts (fun _ h => by cases h) (fun _ _ => member?_name) depth o []).bind
    fun found found' hfound => ?_
  obtain ⟨rfl, hname⟩ := hfound
  exact .pure ⟨rfl, hname⟩

theorem chainResolved_blind (o : ResolvedObject) : Blind c (chainResolved o) := by
  refine (searchDepth_blind o).bind fun depth => ?_
  refine (searchIn_recasts (P := fun _ => True) (fun _ _ => trivial) (fun _ _ _ => trivial) depth o
    []).bind fun found found' hfound => ?_
  obtain ⟨rfl, -⟩ := hfound
  exact .pure rfl

theorem baseMethod_blind (o : ResolvedObject) (name : String) : Blind c (baseMethod o name) := by
  refine (searchDepth_blind o).bind fun depth => (baseObjects_blind o).bind fun bases => ?_
  refine (firstHit_recasts (P := fun _ => True) (fun _ h => by cases h)
    (searchIn_recasts (fun _ h => by cases h) (fun _ _ _ => trivial) depth) bases [o.key]).bind
      fun found found' hfound => ?_
  obtain ⟨rfl, -⟩ := hfound
  exact .pure rfl

/-- A member that is the variable has its name. -/
theorem memberSymbol?_recasts (owner name : String) :
    Recasts c (fun a b => a = b ∧ (a = some c.id → name = c.name)) (memberSymbol? owner name)
      (memberSymbol? owner name) := by
  refine .get fun s own hfits => .pure ⟨rfl, fun hid => ?_⟩
  obtain ⟨d, -, hd⟩ := Option.bind_eq_some_iff.1 hid
  exact hfits.only d.scope name hd

theorem memberBinding_recasts (m : Member) (use : Span) :
    Recasts c (fun a b => a = b ∧ Other c m.name a) (memberBinding m use) (memberBinding m use) := by
  unfold memberBinding
  extract_lets copy
  split
  · exact .pure ⟨rfl, fun h => by cases h⟩
  · refine (memberSymbol?_recasts m.owner m.name).bind fun id? id?' hid => ?_
    obtain ⟨rfl, hname⟩ := hid
    cases id? with
    | none => exact .pure ⟨rfl, fun h => by cases h⟩
    | some id =>
      refine .pure ⟨rfl, fun heq => hname ?_⟩
      obtain rfl := Binding.declared.inj heq
      rfl

end SimFront.Check
