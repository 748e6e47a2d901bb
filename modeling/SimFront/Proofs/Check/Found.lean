import SimFront.Proofs.Check.Recorded

/-!
# What names are found to stand for

Wherever a name, or a member of that name, is found to stand for a symbol of the module
under analysis, some scope declares the symbol under just that name.
-/

namespace SimFront.Check

variable {α : Type} {head : ModuleHead}

/-- If the binding is a symbol of the module, the table declares it under the name. -/
def Stands (name : String) (t : SymbolTable) (b : Binding) : Prop :=
  ∀ id, b = .declared id → t.Declares name id

theorem stands_external (name : String) (t : SymbolTable) (s : Symbol) :
    Stands name t (.external s) := fun _ h => nomatch h

/-- What was found stands under the name. -/
def FoundAs (name : String) (t : SymbolTable) (l : Lookup) : Prop :=
  ∀ b, l = .found b → Stands name t b

theorem foundAs_external (name : String) (t : SymbolTable) (s : Symbol) :
    FoundAs name t (.found (.external s)) := by
  rintro _ ⟨⟩
  exact stands_external name t s

theorem foundAs_declared {name : String} {t : SymbolTable} {id : Nat} (scope : Nat)
    (h : t.lookupFrom? scope name = some id) : FoundAs name t (.found (.declared id)) := by
  rintro _ ⟨⟩ _ ⟨⟩
  exact SymbolTable.declares_of_lookupFrom? h

/-! ## Lookups -/

theorem lookupIn_found (module name : String) (table? : Option SymbolTable) (t : SymbolTable) :
    FoundAs name t (lookupIn module name table?) := by
  unfold lookupIn
  split
  · exact fun _ h => nomatch h
  · split
    · exact foundAs_external name t _
    · exact fun _ h => nomatch h

theorem lookupExternal_finds (name : String) :
    Finds head (FoundAs name) (lookupExternal name) := by
  refine .read fun env _ => Still.bind definitionTable?_query.still fun _ => ?_
  split
  · exact .pure fun t => foundAs_external name t _
  · refine .get fun s hs => Still.bind (firstImported?_query name hs).still fun found? => ?_
    split
    · exact .pure fun t _ => foundAs_external name t _
    · refine Still.bind hasUnresolvedSource_query.still fun unresolved => ?_
      split
      · exact .pure fun t _ _ h => nomatch h
      · exact .pure fun t _ _ h => nomatch h

theorem lookup_finds (module? : Option String) (name : String) (scope : Nat) :
    Finds head (FoundAs name) (lookup module? name scope) := by
  refine .read fun env henv => .bind table_finds fun t' => ?_
  cases module? with
  | none =>
    dsimp only
    split
    · next id hid =>
      refine .pure fun t ht => foundAs_declared scope ?_
      rwa [← ht]
    · exact (lookupExternal_finds name).mono fun _ _ h _ => h
  | some m =>
    dsimp only
    split
    · split
      · next id hid =>
        refine .pure fun t ht => foundAs_declared SymbolTable.root ?_
        rwa [← ht]
      · split
        · exact Still.bind definitionTable?_query.still fun table? =>
            .pure fun t _ => lookupIn_found m name table? t
        · refine .pure fun _ _ _ h => ?_
          cases h
    · next hm =>
      subst henv
      exact Still.bind (Query.ask fun h => absurd h hm).still fun table? =>
        .pure fun t _ => lookupIn_found m name table? t

/-! ## Members -/

theorem name_of_member? {o : ResolvedObject} {name : String} {m : Member}
    (h : o.member? name = some m) : m.name = name := by
  unfold ResolvedObject.member? at h
  split at h
  · cases h
    rfl
  · obtain ⟨method, -, rfl⟩ := Option.map_eq_some_iff.1 h
    rfl

/-- The hit of a search, if there is one, satisfies a property. -/
def Hits (Q : α → Prop) (found : Option α × List String) : Prop := ∀ a, found.1 = some a → Q a

theorem firstHit_finds {Q : α → Prop}
    {search : ResolvedObject → List String → Check (Option α × List String)}
    (h : ∀ o visited, Finds head (fun _ => Hits Q) (search o visited))
    (os : List (Option ResolvedObject)) (visited : List String) :
    Finds head (fun _ => Hits Q) (firstHit none search os visited) := by
  induction os generalizing visited with
  | nil => exact .pure fun _ _ h => nomatch h
  | cons o? os ih =>
    cases o? with
    | none => exact ih visited
    | some o =>
      refine .bind (h o visited) fun found => ?_
      obtain ⟨hit?, visited'⟩ := found
      cases hit? with
      | some hit => exact .pure fun _ h => h
      | none => exact (ih visited').mono fun _ _ h _ => h

theorem searchIn_finds {Q : α → Prop} {hit? : ResolvedObject → Option α}
    (h : ∀ o a, hit? o = some a → Q a) (depth : Nat) (o : ResolvedObject) (visited : List String) :
    Finds head (fun _ => Hits Q) (searchIn none hit? depth o visited) := by
  induction depth generalizing o visited with
  | zero => exact .pure fun _ _ h => nomatch h
  | succ depth ih =>
    unfold searchIn
    split
    · exact .pure fun _ _ h => nomatch h
    · split
      · next hit hhit =>
        refine .pure fun _ a ha => h o a ?_
        rw [hhit, ← ha]
      · exact Still.bind (baseObjects_query o).still fun bases => firstHit_finds ih bases _

theorem searchDepth_still (o : ResolvedObject) : Still head (searchDepth o) :=
  fun _ s _ hs => ⟨.refl s, hs, trivial⟩

theorem findMember_finds (o : ResolvedObject) (name : String) :
    Finds head (fun _ m? => ∀ m, m? = some m → m.name = name) (findMember o name) :=
  Still.bind (searchDepth_still o) fun depth =>
    .bind (searchIn_finds (fun _ _ => name_of_member?) depth o []) fun _ => .pure fun _ h => h

theorem chainResolved_still (o : ResolvedObject) : Still head (chainResolved o) :=
  Still.bind (searchDepth_still o) fun depth =>
    Still.bind (searchIn_query (some ()) _ depth o []).still fun _ => .nothing _

theorem baseMethod_still (o : ResolvedObject) (name : String) : Still head (baseMethod o name) :=
  Still.bind (searchDepth_still o) fun depth => Still.bind (baseObjects_query o).still fun bases =>
    Still.bind (firstHit_query none (searchIn_query none _ depth) bases [o.key]).still fun _ => .nothing _

theorem inheritsItself_still (o : ResolvedObject) : Still head (inheritsItself o) :=
  Still.bind (searchDepth_still o) fun depth => Still.bind (baseObjects_query o).still fun _ =>
    (reaches_query o.key depth _ []).still

theorem memberSymbol?_finds (owner name : String) :
    Finds head (fun t id? => ∀ id, id? = some id → t.Declares name id) (memberSymbol? owner name) := by
  refine .get fun s _ => .pure fun t ht id hid => ?_
  obtain ⟨d, -, hdeclared⟩ := Option.bind_eq_some_iff.1 hid
  exact ⟨d.scope, by rw [ht, hdeclared]⟩

theorem memberBinding_finds (m : Member) (use : Span) :
    Finds head (Stands m.name) (memberBinding m use) := by
  unfold memberBinding
  dsimp only
  split
  · exact .pure fun t => stands_external m.name t _
  · refine .bind (memberSymbol?_finds m.owner m.name) fun id? => ?_
    cases id? with
    | none => exact .pure fun t _ => stands_external m.name t _
    | some id =>
      refine .pure fun t h => ?_
      rintro _ ⟨⟩
      exact h id rfl

/-! ## Names in the scopes around -/

/-- What a name was found to mean, if anything, stands under the name. -/
def MeansAs (name : String) (t : SymbolTable) (b? : Option Binding) : Prop :=
  ∀ b, b? = some b → Stands name t b

theorem objectMemberAt_finds (scope : Nat) (id : Ident) :
    Finds head (MeansAs id.name) (objectMemberAt scope id) := by
  have nothing : Finds head (MeansAs id.name) (pure none) := .pure fun _ _ h => nomatch h
  refine Still.bind table_finds.still fun t => ?_
  split
  · split
    · refine .read fun env _ => ?_
      split
      · next o _ =>
        refine .bind (findMember_finds o id.name) fun m? => ?_
        cases m? with
        | none => exact nothing.mono fun _ _ h _ => h
        | some m =>
          refine .bind (memberBinding_finds m id.span) fun b => .pure fun t hb hm => ?_
          rintro _ ⟨⟩
          rwa [hm m rfl] at hb
      · exact nothing
    · exact nothing
  · exact nothing

theorem nameIn_finds (id : Ident) (scopes : List Nat) :
    Finds head (MeansAs id.name) (nameIn id scopes) := by
  induction scopes with
  | nil => exact .pure fun _ _ h => nomatch h
  | cons scope rest ih =>
    refine .bind table_finds fun t' => ?_
    split
    · next symbol hsymbol =>
      refine .pure fun t ht => ?_
      rintro _ ⟨⟩ _ ⟨⟩
      exact ⟨scope, ht ▸ hsymbol⟩
    · refine Finds.mono ?_ fun _ _ h _ => h
      refine .bind (objectMemberAt_finds scope id) fun b? => ?_
      cases b? with
      | none => exact ih.mono fun _ _ h _ => h
      | some b => exact .pure fun _ h => h

theorem resolveName_finds (id : Ident) : Finds head (MeansAs id.name) (resolveName id) := by
  have nothing {t : SymbolTable} : MeansAs id.name t none := fun _ h => nomatch h
  refine Still.bind table_finds.still fun t => .bind (nameIn_finds id _) fun b? => ?_
  cases b? with
  | some b => exact .pure fun _ h => h
  | none =>
    refine Finds.mono ?_ fun _ _ h _ => h
    dsimp only
    split
    · refine .pure fun t => ?_
      rintro _ ⟨⟩ _ ⟨⟩
    · refine .bind (lookupExternal_finds id.name) fun found => ?_
      cases found with
      | found b =>
        refine .pure fun t h => ?_
        rintro _ ⟨⟩
        exact h b rfl
      | unknowable => exact .pure fun _ _ => nothing
      | missing =>
        refine Finds.mono ?_ fun _ _ h _ => h
        dsimp only
        split
        · exact .pure fun _ => nothing
        · refine Still.bind suppressUnknown_query.still fun suppressed => ?_
          split
          · exact .pure fun _ => nothing
          · exact Still.bind (error_still _ _ _) fun _ => .pure fun _ => nothing

end SimFront.Check
