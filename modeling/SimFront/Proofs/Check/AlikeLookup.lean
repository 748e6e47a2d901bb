import SimFront.Proofs.Check.Alike
import SimFront.Proofs.Check.Found

/-!
# Names mean the same with a graft

Looking up a name that the graft does not bring in comes to the same symbol, and so do the
types and the objects that are found by such names, and the searches through the bases of
objects.  The tables of other modules know nothing of the graft.
-/

namespace SimFront

/-! ## What is found -/

/-- What a name stands for in both runs. -/
inductive Binds (g : Graft) : Binding → Binding → Prop where
  | declared (id : Nat) : Binds g (.declared id) (.declared (g.symbol id))
  | external (s : Symbol) (avoids : s.type.Avoids g.names) : Binds g (.external s) (.external s)
  | builtin : Binds g .builtin .builtin

/-- The outcome of looking a name up in both runs. -/
inductive Meets (g : Graft) : Lookup → Lookup → Prop where
  | declared (id : Nat) : Meets g (.found (.declared id)) (.found (.declared (g.symbol id)))
  | external (s : Symbol) (avoids : s.type.Avoids g.names) (origin : s.origin?.isSome) :
      Meets g (.found (.external s)) (.found (.external s))
  | unknowable : Meets g .unknowable .unknowable
  | missing : Meets g .missing .missing

theorem Meets.origin {g : Graft} {s : Symbol} {l : Lookup}
    (h : Meets g (.found (.external s)) l) : s.origin?.isSome := by
  cases h
  assumption

namespace Graft

/-- A member that the graft takes nothing from. -/
structure FitsMember (g : Graft) (m : Member) : Prop where
  type : m.type.Avoids g.names
  owner : m.origin? = none → m.owner ∉ g.names
  method : ∀ info, m.method? = some info → info.signature.Avoids g.names

theorem Fits.member {g : Graft} {o : ResolvedObject} (h : g.Fits o) {name : String} {m : Member}
    (hm : o.member? name = some m) : g.FitsMember m := by
  unfold ResolvedObject.member? at hm
  split at hm
  · next type htype =>
    cases hm
    exact ⟨h.info.field htype, h.name, fun _ hmethod => by cases hmethod⟩
  · obtain ⟨method, hmethod, rfl⟩ := Option.map_eq_some_iff.1 hm
    have hsignature := h.info.method _ (Members.mem_of_find? hmethod)
    refine ⟨?_, h.name, fun _ hinfo => ?_⟩
    · rw [Ty.Avoids]
      exact hsignature
    · cases hinfo
      exact hsignature

end Graft

/-- The copy of a symbol that another module gets mentions no bare name, and has an origin. -/
theorem SymbolTable.exported_avoids {t : SymbolTable} {module name : String} {s : Symbol}
    {names : List String} (h : t.exported? module name = some s) :
    s.type.Avoids names ∧ s.origin?.isSome := by
  obtain ⟨original, -, rfl⟩ := Option.map_eq_some_iff.1 h
  exact ⟨original.type.avoids_qualify module, rfl⟩

namespace Check

variable {α β : Type} {head : ModuleHead} {g : Graft}

/-! ## Other modules -/

theorem moduleTable?_agree {name : String} (hown : name = head.name → head.kind = .implementation) :
    Agree head g (fun _ => True) (moduleTable? name) := by
  rintro env s u rfl hs
  have hu : u.Faithful (g.moveEnv env) := hs.faithful'.of_resolver rfl rfl
  have hlike := moduleTable?_like name env s
  refine ⟨⟨?_, trivial⟩, hs.like hlike (moduleTable?_faithful hs.faithful hown)
    (moduleTable?_like name _ u) ((moduleTable?_faithful hu hown).of_resolver rfl rfl), ?_⟩
  · rw [moduleTable?_value hs.faithful, moduleTable?_value hu]
    rfl
  · rw [hlike.quiet.1]
    exact .refl _

theorem definitionTable?_agree : Agree head g (fun _ => True) definitionTable? := by
  refine .readSame (fun _ => rfl) fun env henv _ => ?_
  split
  · next hkind =>
    subst henv
    exact moduleTable?_agree fun _ => hkind
  · exact Agree.pure trivial

theorem hasUnresolvedSource_agree : Agree head g (fun _ => True) hasUnresolvedSource := by
  refine .readSame (fun _ => rfl) fun env henv _ => ?_
  have rest (lacking : Bool) : Agree head g (fun _ => True) (do
      let s ← get
      pure (lacking || (env.resolver?.isNone && !s.wholeImports.isEmpty))) :=
    .get fun _ s u _ hs => by
      rw [hs.wholeImports]
      exact Agree.pure trivial
  dsimp only
  split
  · exact definitionTable?_agree.bind fun table? _ =>
      (Agree.pure (P := fun _ => True) trivial).bind fun lacking _ => rest lacking
  · exact (Agree.pure (P := fun _ => True) trivial).bind fun lacking _ => rest lacking

theorem suppressUnknown_agree : Agree head g (fun _ => True) suppressUnknown := by
  refine .readSame (fun env => ?_) fun env _ _ => ?_
  · unfold Graft.moveEnv
    rw [List.head?_map, Option.any_map]
    rfl
  · split
    · exact Agree.pure trivial
    · exact hasUnresolvedSource_agree

theorem firstImported?_agree (name : String) {ms : List String} (hms : head.name ∉ ms) :
    Agree head g (fun s? => ∀ s, s? = some s → s.type.Avoids g.names ∧ s.origin?.isSome)
      (firstImported? name ms) := by
  induction ms with
  | nil => exact Agree.pure fun _ h => nomatch h
  | cons m ms ih =>
    obtain ⟨hm, hms⟩ := not_or.1 (mt List.mem_cons.2 hms)
    refine (moduleTable?_agree fun h => absurd h.symm hm).bind fun table? _ => ?_
    split
    · next symbol hsymbol =>
      refine Agree.pure fun _ h => ?_
      obtain rfl := Option.some.inj h
      obtain ⟨other, -, hexported⟩ := Option.bind_eq_some_iff.1 hsymbol
      exact SymbolTable.exported_avoids hexported
    · exact ih hms

theorem lookupExternal_alike (name : String) :
    Alike head g (Meets g) (lookupExternal name) (lookupExternal name) := by
  refine .readSame (fun _ => rfl) fun env henv _ => definitionTable?_agree.bind fun table? _ => ?_
  split
  · next symbol hsymbol =>
    obtain ⟨other, -, hexported⟩ := Option.bind_eq_some_iff.1 hsymbol
    obtain ⟨havoids, horigin⟩ := SymbolTable.exported_avoids hexported
    exact .pure (.external symbol havoids horigin)
  · refine .get fun env' s u henv' hs => ?_
    rw [hs.wholeImports]
    have himports := hs.faithful.imports
    rw [henv'] at himports
    refine (firstImported?_agree name himports).bind fun s? hs? => ?_
    cases s? with
    | some symbol =>
      obtain ⟨havoids, horigin⟩ := hs? symbol rfl
      exact .pure (.external symbol havoids horigin)
    | none =>
      refine hasUnresolvedSource_agree.bind fun unresolved _ => ?_
      cases unresolved with
      | true => exact .pure .unknowable
      | false => exact .pure .missing

theorem lookupIn_meets (module name : String) (table? : Option SymbolTable) :
    Meets g (lookupIn module name table?) (lookupIn module name table?) := by
  unfold lookupIn
  split
  · exact .unknowable
  · split
    · next symbol hexported =>
      obtain ⟨havoids, horigin⟩ := SymbolTable.exported_avoids hexported
      exact .external symbol havoids horigin
    · exact .missing

/-! ## Names -/

/-- A name of another module, or one that the graft does not bring in, is looked up alike. -/
theorem lookup_alike {module? : Option String} {name : String}
    (hname : module? = none → name ∉ g.names) (scope : Nat) :
    Alike head g (Meets g) (lookup module? name scope) (lookup module? name (g.scope scope)) := by
  refine .readSame (fun _ => rfl) fun env henv _ => .table fun t v h => ?_
  cases module? with
  | none =>
    dsimp only
    rw [h.lookupFrom?_fresh (hname rfl) scope]
    cases t.lookupFrom? scope name with
    | some id => exact .pure (.declared id)
    | none => exact lookupExternal_alike name
  | some m =>
    dsimp only
    split
    · rw [h.lookupFrom?_root name]
      cases t.lookupFrom? SymbolTable.root name with
      | some id => exact .pure (.declared id)
      | none =>
        dsimp only [Option.map_none]
        split
        · exact definitionTable?_agree.bind fun table? _ => .pure (lookupIn_meets m name table?)
        · exact .pure .missing
    · next hm =>
      subst henv
      exact (moduleTable?_agree fun h => absurd h hm).bind fun table? _ =>
        .pure (lookupIn_meets m name table?)

variable {b b' : Binding}

theorem bindingSymbol?_alike (h : Binds g b b') :
    Alike head g (Found g) (bindingSymbol? b) (bindingSymbol? b') := by
  cases h with
  | declared id => exact symbol?_alike id
  | external s havoids => exact .pure (.some s s.scope havoids)
  | builtin => exact .pure .none

theorem valueType_alike (h : Binds g b b') :
    Alike head g (fun t t' => t' = t ∧ t.Avoids g.names) (valueType b) (valueType b') := by
  refine (bindingSymbol?_alike h).bind fun s? s?' hs => ?_
  cases hs with
  | none => exact .pure ⟨rfl, trivial⟩
  | some s scope havoids =>
    dsimp only
    split
    · exact .pure ⟨rfl, trivial⟩
    · exact .pure ⟨rfl, havoids⟩

theorem isPlaceholder_alike (h : Binds g b b') :
    Alike head g (fun x y => y = x) (isPlaceholder b) (isPlaceholder b') := by
  cases h with
  | declared id =>
    refine .get fun _ s u _ hs => .pure ?_
    rw [hs.placeholders, Bool.eq_iff_iff, List.contains_iff_mem, List.contains_iff_mem,
      List.mem_map_of_injective g.symbol_mono.injective]
  | external s havoids => exact .pure rfl
  | builtin => exact .pure rfl

/-! ## Types -/

/-- The type that a name stands for, where it stands for one. -/
theorem boundType?_alike (h : Binds g b b') :
    Alike head g (fun t? t?' => t?' = t? ∧ ∀ t, t? = some t → t.Avoids g.names)
      (do match ← bindingSymbol? b with
        | some s => if s.kind = .type then pure (some s.type) else pure none
        | none => pure none)
      (do match ← bindingSymbol? b' with
        | some s => if s.kind = .type then pure (some s.type) else pure none
        | none => pure none) := by
  refine (bindingSymbol?_alike h).bind fun s? s?' hs => ?_
  cases hs with
  | none => exact .pure ⟨rfl, by simp⟩
  | some s scope havoids =>
    dsimp only
    split
    · refine .pure ⟨rfl, fun t ht => ?_⟩
      obtain rfl := Option.some.inj ht
      exact havoids
    · exact .pure ⟨rfl, by simp⟩

theorem declaredType?_alike {module? : Option String} {name : String}
    (hname : module? = none → name ∉ g.names) (scope : Nat) :
    Alike head g (fun t? t?' => t?' = t? ∧ ∀ t, t? = some t → t.Avoids g.names)
      (declaredType? module? name scope) (declaredType? module? name (g.scope scope)) := by
  refine (lookup_alike hname scope).bind fun found found' h => ?_
  cases h with
  | declared id => exact boundType?_alike (.declared id)
  | external s havoids => exact boundType?_alike (.external s havoids)
  | unknowable => exact .pure ⟨rfl, by simp⟩
  | missing => exact .pure ⟨rfl, by simp⟩

theorem Ty.avoids_named {names : List String} {module? : Option String} {name : String}
    (h : (Ty.named module? name).Avoids names) : module? = none → name ∉ names := by
  rintro rfl
  exact h

theorem Ty.named_avoids {names : List String} {module? : Option String} {name : String}
    (h : module? = none → name ∉ names) : (Ty.named module? name).Avoids names := by
  cases module? with
  | none => exact h rfl
  | some m => trivial

theorem builtinType?_avoids {names : List String} {module? : Option String} {name : String} {t : Ty}
    (h : builtinType? module? name = some t) : t.Avoids names := by
  cases module? with
  | none =>
    obtain ⟨b, -, rfl⟩ := Option.map_eq_some_iff.1 h
    trivial
  | some m => cases h

theorem followNames_alike (scope hops : Nat) {t : Ty} (ht : t.Avoids g.names) :
    Alike head g (fun t? t?' => t?' = t? ∧ ∀ t, t? = some t → t.Avoids g.names)
      (followNames scope hops t) (followNames (g.scope scope) hops t) := by
  induction hops generalizing t with
  | zero => exact .pure ⟨rfl, fun _ h => nomatch h⟩
  | succ hops ih =>
    have stop : Alike head g (fun t? t?' => t?' = t? ∧ ∀ t, t? = some t → t.Avoids g.names)
        (pure (some t)) (pure (some t)) := by
      refine .pure ⟨rfl, fun _ hsome => ?_⟩
      obtain rfl := Option.some.inj hsome
      exact ht
    cases t with
    | named module? name =>
      unfold followNames
      split
      · next builtin hbuiltin =>
        refine .pure ⟨rfl, fun _ hsome => ?_⟩
        obtain rfl := Option.some.inj hsome
        exact builtinType?_avoids hbuiltin
      · refine (declaredType?_alike (Ty.avoids_named ht) scope).bind fun _ t? h => ?_
        obtain ⟨rfl, havoids⟩ := h
        cases t? with
        | none => exact .pure ⟨rfl, fun _ h => nomatch h⟩
        | some t => exact ih (havoids t rfl)
    | _ => exact stop

theorem resolveNamed_agree {module? : Option String} {name : String}
    (hname : module? = none → name ∉ g.names) :
    Agree head g (fun t? => ∀ t, t? = some t → t.Avoids g.names) (resolveNamed module? name) :=
  currentScope_alike.bind fun scope scope' hscope => by
    subst hscope
    exact followNames_alike scope maxHops (Ty.named_avoids hname)

theorem normalize_agree {t : Ty} (ht : t.Avoids g.names) :
    Agree head g (Ty.Avoids g.names) (normalize t) := by
  cases t with
  | named module? name =>
    refine (resolveNamed_agree (Ty.avoids_named ht)).bind fun t? ht? => ?_
    split
    · exact Agree.pure ht
    · exact Agree.pure ht
    · exact Agree.pure ht
    · next t _ _ => exact Agree.pure (ht? t rfl)
  | _ => exact Agree.pure ht

theorem assignable_agree {target source : Ty} (htarget : target.Avoids g.names)
    (hsource : source.Avoids g.names) : Agree head g (fun _ => True) (assignable target source) :=
  (normalize_agree htarget).bind fun _ _ => (normalize_agree hsource).bind fun _ _ =>
    Agree.pure trivial

/-! ## Objects -/

theorem objectOrigin?_agree {module? : Option String} {name : String}
    (hname : module? = none → name ∉ g.names) :
    Agree head g (fun _ => True) (objectOrigin? module? name) := by
  refine .readSame (fun _ => rfl) fun env henv _ => ?_
  dsimp only
  split
  · exact Agree.pure trivial
  · refine currentScope_alike.bind fun scope scope' hscope => ?_
    subst hscope
    refine (lookup_alike hname scope).bind fun found found' h => ?_
    have origin {b b' : Binding} (h : Binds g b b') :
        Alike head g (fun a b => b = a ∧ True)
          (do pure ((← bindingSymbol? b).bind (·.origin?)))
          (do pure ((← bindingSymbol? b').bind (·.origin?))) := by
      refine (bindingSymbol?_alike h).bind fun s? s?' hs => ?_
      cases hs <;> exact .pure ⟨rfl, trivial⟩
    cases h with
    | declared id => exact origin (.declared id)
    | external s havoids => exact origin (.external s havoids)
    | unknowable => exact Agree.pure trivial
    | missing => exact Agree.pure trivial

section Own

variable {env : Env} {s : CheckState} {module? : Option String} {name : String}

/-- Where a type is declared under a name, the name stands for a type. -/
theorem declaredType?_isSome (hs : s.Faithful env) {scope : Nat}
    (h : ((declaredType? module? name scope).outcome env s).1.isSome) : ∃ b symbol,
      ((lookup module? name scope).outcome env s).1 = .found b ∧
      ((bindingSymbol? b).outcome env s).1 = some symbol ∧ symbol.kind = .type := by
  unfold declaredType? at h
  rw [outcome_bind] at h
  obtain ⟨-, hlike, hfaithful⟩ :=
    (lookup_query module? name scope).stable hs hs (CheckState.Like.refl s)
  cases hfound : ((lookup module? name scope).outcome env s).1 with
  | found b =>
    rw [hfound] at h
    dsimp only at h
    rw [outcome_bind, ((bindingSymbol?_query b).stable hs hfaithful hlike).1] at h
    cases hsymbol : ((bindingSymbol? b).outcome env s).1 with
    | none =>
      rw [hsymbol] at h
      cases h
    | some symbol =>
      rw [hsymbol] at h
      dsimp only at h
      split at h
      · next hkind => exact ⟨b, symbol, rfl, hsymbol, hkind⟩
      · cases h
  | unknowable =>
    rw [hfound] at h
    cases h
  | missing =>
    rw [hfound] at h
    cases h

theorem resolveNamed_isSome (hs : s.Faithful env) {m : String}
    (h : ((resolveNamed (some m) name).outcome env s).1.isSome) : ∃ b symbol,
      ((lookup (some m) name s.table.current).outcome env s).1 = .found b ∧
      ((bindingSymbol? b).outcome env s).1 = some symbol ∧ symbol.kind = .type := by
  refine declaredType?_isSome hs ?_
  change ((followNames s.table.current maxHops (.named (some m) name)).outcome env s).1.isSome at h
  unfold maxHops followNames builtinType? at h
  dsimp only at h
  rw [outcome_bind] at h
  cases hdeclared : ((declaredType? (some m) name s.table.current).outcome env s).1 with
  | none =>
    rw [hdeclared] at h
    cases h
  | some t => rfl

/-- The origin of an object of the module's own is that of the symbol that the name stands
for. -/
theorem objectOrigin?_own (hs : s.Faithful env) {b : Binding}
    (hfound : ((lookup (some env.moduleName) name s.table.current).outcome env s).1 = .found b) :
    ((objectOrigin? (some env.moduleName) name).outcome env s).1 =
      ((bindingSymbol? b).outcome env s).1.bind (·.origin?) := by
  obtain ⟨-, hlike, hfaithful⟩ :=
    (lookup_query (some env.moduleName) name s.table.current).stable hs hs (CheckState.Like.refl s)
  unfold objectOrigin?
  rw [outcome_read]
  dsimp only
  rw [Option.filter_some, decide_eq_false fun hne => hne rfl, if_neg Bool.false_ne_true]
  dsimp only
  rw [outcome_bind, outcome_bind, show currentScope.outcome env s = (s.table.current, s) from rfl,
    hfound]
  dsimp only
  rw [outcome_bind, ((bindingSymbol?_query b).stable hs hfaithful hlike).1]
  rfl

end Own

/-- An object that is found without an origin has a name that the graft does not bring in. -/
theorem findObject_name {module? : Option String} {name : String}
    (hname : module? = none → name ∉ g.names) {env : Env} {s u : CheckState}
    (hs : s.Grafted g env u) {o : ResolvedObject}
    (ho : ((findObject module? name).outcome env s).1 = some o) (horigin : o.origin? = none) :
    o.name ∉ g.names := by
  unfold findObject at ho
  rw [outcome_bind] at ho
  split at ho
  · next info hinfo =>
    obtain ⟨-, hlike, hfaithful⟩ :=
      (resolveNamed_query module? name).stable hs.faithful hs.faithful (CheckState.Like.refl s)
    obtain rfl := Option.some.inj ho
    cases module? with
    | none => exact hname rfl
    | some m =>
      obtain ⟨b, symbol, hfound, hsymbol, hkind⟩ :=
        resolveNamed_isSome hs.faithful (Option.isSome_of_eq_some hinfo)
      by_cases hm : m = env.moduleName
      · subst hm
        have horigin' : symbol.origin? = none := by
          have hstable := ((objectOrigin?_query (some env.moduleName) name).stable hs.faithful
            hfaithful hlike).1
          rw [← horigin]
          show _ = ((objectOrigin? (some env.moduleName) name).outcome env _).1
          rw [hstable, objectOrigin?_own hs.faithful hfound, hsymbol]
          rfl
        have hlookup : Alike env.head g (Meets g)
            (lookup (some env.moduleName) name s.table.current)
            (lookup (some env.moduleName) name (g.scope s.table.current)) :=
          lookup_alike (by intro h; cases h) s.table.current
        have hmeets := (hlookup env s u rfl hs).1
        rw [hfound] at hmeets
        cases b with
        | declared id =>
          -- a type that the module itself declares under the name
          have hfinds := lookup_finds (some env.moduleName) name s.table.current env s rfl
            hs.faithful
          obtain ⟨symbol', hsymbol', rfl⟩ :=
            hs.table.name_of_declares (hfinds.2.2 _ hfound id rfl)
          obtain rfl : symbol' = symbol := Option.some.inj (hsymbol'.symm.trans hsymbol)
          exact hs.table.own hsymbol hkind horigin'
        | external symbol' =>
          obtain rfl : symbol' = symbol := Option.some.inj hsymbol
          have hsome := hmeets.origin
          rw [horigin'] at hsome
          cases hsome
        | builtin => cases hsymbol
      · refine absurd horigin ?_
        show ((objectOrigin? (some m) name).outcome env _).1 ≠ none
        unfold objectOrigin?
        rw [outcome_read]
        dsimp only
        rw [Option.filter_some, decide_eq_true hm, if_pos rfl]
        exact fun h => nomatch h
  · cases ho

theorem findObject_agree {module? : Option String} {name : String}
    (hname : module? = none → name ∉ g.names) :
    Agree head g (fun o? => ∀ o, o? = some o → g.Fits o) (findObject module? name) := by
  have found : Agree head g (fun o? => ∀ o, o? = some o → o.info.Avoids g.names)
      (findObject module? name) := by
    refine (resolveNamed_agree hname).bind fun t? ht? => ?_
    split
    · next info =>
      refine (objectOrigin?_agree hname).bind fun origin? _ => Agree.pure fun o ho => ?_
      obtain rfl := Option.some.inj ho
      have hinfo := ht? _ rfl
      rwa [Ty.Avoids] at hinfo
    · exact Agree.pure fun _ h => nomatch h
  intro env s u henv hs
  obtain ⟨⟨hsame, hinfo⟩, hs', hreturns⟩ := found env s u henv hs
  exact ⟨⟨hsame, fun o ho => ⟨findObject_name hname hs ho, hinfo o ho⟩⟩, hs', hreturns⟩

theorem baseObject_agree {base : Ty} (hbase : base.Avoids g.names) :
    Agree head g (fun o? => ∀ o, o? = some o → g.Fits o) (baseObject base) := by
  cases base with
  | named module? name => exact findObject_agree (Ty.avoids_named hbase)
  | _ => exact findObject_agree fun _ => g.empty_notMem

theorem baseObjects_agree {o : ResolvedObject} (ho : g.Fits o) :
    Agree head g (fun os => ∀ o? ∈ os, ∀ o, o? = some o → g.Fits o) (baseObjects o) :=
  mapM_agree fun base hbase => baseObject_agree (ho.info.base base hbase)

/-! ## Searches -/

theorem firstHit_agree {P : α → Prop} {missing? : Option α}
    (hmissing : ∀ hit, missing? = some hit → P hit)
    {search : ResolvedObject → List String → Check (Option α × List String)}
    (hsearch : ∀ o visited, g.Fits o → Agree head g (Hits P) (search o visited))
    {os : List (Option ResolvedObject)} (hos : ∀ o? ∈ os, ∀ o, o? = some o → g.Fits o)
    (visited : List String) : Agree head g (Hits P) (firstHit missing? search os visited) := by
  induction os generalizing visited with
  | nil => exact Agree.pure fun _ h => nomatch h
  | cons o? os ih =>
    have rest := ih fun o? ho => hos o? (List.mem_cons_of_mem _ ho)
    cases o? with
    | none =>
      cases missing? with
      | none => exact rest visited
      | some hit =>
        refine Agree.pure fun a ha => ?_
        obtain rfl := Option.some.inj ha
        exact hmissing hit rfl
    | some o =>
      refine (hsearch o visited (hos _ List.mem_cons_self o rfl)).bind fun found hfound => ?_
      obtain ⟨hit?, visited'⟩ := found
      cases hit? with
      | some hit => exact Agree.pure hfound
      | none => exact rest visited'

theorem searchIn_agree {P : α → Prop} {missing? : Option α}
    (hmissing : ∀ hit, missing? = some hit → P hit) {hit? : ResolvedObject → Option α}
    (hhit : ∀ o a, g.Fits o → hit? o = some a → P a) (depth : Nat) {o : ResolvedObject}
    (ho : g.Fits o) (visited : List String) :
    Agree head g (Hits P) (searchIn missing? hit? depth o visited) := by
  induction depth generalizing o visited with
  | zero => exact Agree.pure fun _ h => nomatch h
  | succ depth ih =>
    unfold searchIn
    split
    · exact Agree.pure fun _ h => nomatch h
    · split
      · next hit hfound =>
        refine Agree.pure fun a ha => hhit o a ho ?_
        rw [hfound, ← ha]
      · exact (baseObjects_agree ho).bind fun bases hbases =>
          firstHit_agree hmissing (fun o visited ho => ih ho visited) hbases _

theorem reaches_agree (key : String) (depth : Nat) {stack : List ResolvedObject}
    (hstack : ∀ o ∈ stack, g.Fits o) (visited : List String) :
    Agree head g (fun _ => True) (reaches key depth stack visited) := by
  fun_induction reaches key depth stack visited with
  | case1 => exact Agree.pure trivial
  | case2 => exact Agree.pure trivial
  | case3 _ o stack _ _ _ ih => exact ih fun o' ho' => hstack o' (List.mem_cons_of_mem o ho')
  | case4 => exact Agree.pure trivial
  | case5 o stack visited hne hnew depth ih =>
    refine (baseObjects_agree (hstack o List.mem_cons_self)).bind fun bases hbases =>
      ih bases fun o' ho' => ?_
    rcases List.mem_append.1 ho' with ho' | ho'
    · obtain ⟨o?, ho?, hsome⟩ := List.mem_filterMap.1 (List.mem_reverse.1 ho')
      exact hbases o? ho? o' hsome
    · exact hstack o' (List.mem_cons_of_mem o ho')

/-- The runs may need different depths, but come to the same end at the greater one. -/
theorem searchDepth_alike {R : α → α → Prop} {o : ResolvedObject} {f : Nat → Check α}
    (hf : ∀ n, Alike head g R (f n) (f n)) (hsettles : Settles o f) :
    Alike head g R (searchDepth o >>= f) (searchDepth o >>= f) := by
  intro env s u henv hs
  let n := max (searchBound env s o) (searchBound (g.moveEnv env) u o)
  have hdeep : (f n).outcome env s = (f (searchBound env s o)).outcome env s :=
    hsettles env s n hs.faithful (Nat.le_max_left ..)
  have hdeep' : (f n).outcome (g.moveEnv env) u =
      (f (searchBound (g.moveEnv env) u o)).outcome (g.moveEnv env) u :=
    hsettles _ u n (hs.faithful'.of_resolver rfl rfl) (Nat.le_max_right ..)
  have halike := hf n env s u henv hs
  rw [hdeep, hdeep'] at halike
  exact halike

theorem findMember_agree {o : ResolvedObject} (ho : g.Fits o) (name : String) :
    Agree head g (fun m? => ∀ m, m? = some m → g.FitsMember m) (findMember o name) :=
  searchDepth_alike (fun n => (searchIn_agree (fun _ h => nomatch h) (fun _ _ ho hm => ho.member hm)
    n ho []).bind fun _ hfound => Agree.pure hfound) (searchIn_settles none (·.member? name) o (·.1))

theorem chainResolved_agree {o : ResolvedObject} (ho : g.Fits o) :
    Agree head g (fun _ => True) (chainResolved o) :=
  searchDepth_alike (fun n => (searchIn_agree (P := fun _ => True) (fun _ _ => trivial)
    (fun _ _ _ _ => trivial) n ho []).bind fun _ _ => Agree.pure trivial)
    (searchIn_settles (some ()) (fun _ => none) o (·.1.isNone))

theorem baseMethod_agree {o : ResolvedObject} (ho : g.Fits o) (name : String) :
    Agree head g (fun m? => ∀ m, m? = some m → g.FitsMember m) (baseMethod o name) :=
  searchDepth_alike (fun n => (baseObjects_agree ho).bind fun _ hbases =>
    (firstHit_agree (fun _ h => nomatch h) (fun _ visited ho => searchIn_agree
      (fun _ h => nomatch h) (fun _ _ ho hm => ho.member hm) n ho visited) hbases [o.key]).bind
      fun _ hfound => Agree.pure fun m hm => hfound m (Option.eq_some_of_filter_eq_some hm))
    (baseMethod_settles o name)

theorem inheritsItself_agree {o : ResolvedObject} (ho : g.Fits o) :
    Agree head g (fun _ => True) (inheritsItself o) :=
  searchDepth_alike (fun n => (baseObjects_agree ho).bind fun bases hbases =>
    reaches_agree o.key n (fun o' ho' => by
      obtain ⟨o?, ho?, hsome⟩ := List.mem_filterMap.1 (List.mem_reverse.1 ho')
      exact hbases o? ho? o' hsome) []) (inheritsItself_settles o)

/-! ## Members as bindings -/

/-- The member of an object type that the module declares without the graft. -/
theorem memberSymbol?_alike {owner : String} (howner : owner ∉ g.names) (name : String) :
    Alike head g (fun id? id?' => id?' = id?.map g.symbol) (memberSymbol? owner name)
      (memberSymbol? owner name) := by
  refine .get fun env s u _ hs => .pure ?_
  have hfind := hs.objectDecls.find? (p := fun d => d.name = owner)
    (fun d e hd => by rw [hd.moved]) fun d hd => decide_eq_false fun heq => howner (heq ▸ hd.1)
  obtain ⟨hs', hu'⟩ | ⟨d, e, hs', hu', hd⟩ := hfind
  · rw [hs', hu']
    rfl
  · rw [hs', hu', hd.moved]
    refine hs.table.declared d.scope name fun hadds => ?_
    -- the names of the graft are in no object
    refine (hs.table.home hadds.1).2 ?_
    rw [hs.table.kind, hd.kind]

theorem memberBinding_alike {m : Member} (hm : g.FitsMember m) (use : Span) :
    Alike head g (Binds g) (memberBinding m use) (memberBinding m use) := by
  unfold memberBinding
  dsimp only
  split
  · exact .pure (.external _ hm.type)
  · next horigin =>
    have hnone : m.origin? = none := by simpa using horigin
    refine (memberSymbol?_alike (hm.owner hnone) m.name).bind fun id? id?' h => ?_
    subst h
    cases id? with
    | none => exact .pure (.external _ hm.type)
    | some id => exact .pure (.declared id)

end Check

end SimFront
