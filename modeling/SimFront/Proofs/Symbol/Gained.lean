import SimFront.Proofs.Symbol.Grafting

/-!
# A table while a type is declared in it

`Gaining g name? t u` says what the table `u` may have more than `t` while a type with the
names of the graft `g` is declared in the current scope of `t`: its names there, and symbols
and scopes of its own.  The operations on tables keep it so.  When the declaration is done
`u` is `t` with a graft (`Gaining.grafted`), one that moves no number of `t`
(`Graft.grown`).
-/

namespace SimFront

/-! ## Numbers that leave room -/

/-- The number `i`, with `k` numbers left free from `n` on. -/
def skip (n k i : Nat) : Nat := if i < n then i else i + k

variable {n k i : Nat}

theorem skip_lt (h : i < n) : skip n k i = i := if_pos h

theorem skip_ge (h : n ≤ i) : skip n k i = i + k := if_neg (Nat.not_lt.2 h)

theorem skip_strictMono (n k : Nat) : StrictMono (skip n k) := by
  intro i j hij
  unfold skip
  split <;> split <;> omega

/-- The numbers that are left free are the ones that nothing is moved to. -/
theorem skip_ne_iff {j : Nat} : (∀ i, skip n k i ≠ j) ↔ n ≤ j ∧ j < n + k := by
  constructor
  · intro h
    have hbelow := h j
    have habove := h (j - k)
    unfold skip at hbelow habove
    split at hbelow <;> split at habove <;> omega
  · rintro ⟨hn, hk⟩ i
    unfold skip
    split <;> omega

namespace Graft

/-- Nothing has been brought in yet. -/
structure Blank (g : Graft) : Prop where
  symbol : ∀ i, g.symbol i = i
  scope : ∀ i, g.scope i = i

/-- The graft after some symbols and scopes have come in behind those that were there. -/
def grown (g : Graft) (t u : SymbolTable) (hscopes : SymbolTable.root < t.scopes.size) : Graft :=
  { g with
    symbol := skip t.symbols.size (u.symbols.size - t.symbols.size)
    scope := skip t.scopes.size (u.scopes.size - t.scopes.size)
    symbol_mono := skip_strictMono _ _
    scope_mono := skip_strictMono _ _
    scope_root := skip_lt hscopes }

end Graft

namespace SymbolTable

variable {g : Graft} {t u : SymbolTable} {name? : Option String} {symbol : Symbol}

/-! ## Sound tables -/

/-- The numbers in the table are those of symbols and scopes that are there. -/
structure Sound (t : SymbolTable) : Prop where
  consistent : t.Consistent
  named : t.Named

theorem Sound.scope_lt (h : t.Sound) {id : Nat} (hs : t.symbol? id = some symbol) :
    symbol.scope < t.scopes.size := by
  obtain ⟨sc, hsc, -⟩ := Option.bind_eq_some_iff.1 (h.consistent.listed hs)
  exact lt_of_scope? hsc

theorem Sound.parent_lt (h : t.Sound) {i p : Nat} (hp : t.parent? i = some p) :
    p < t.scopes.size := by
  obtain ⟨sc, hsc, hparent⟩ := Option.bind_eq_some_iff.1 hp
  exact Nat.lt_trans (h.consistent.parent hsc hparent).1 (lt_of_scope? hsc)

/-- What is not there is not used. -/
theorem Sound.unused (h : t.Sound) {id : Nat} (hid : t.symbols.size ≤ id) :
    t.referenceCount id = 0 := by
  unfold referenceCount
  rw [References.count_eq, References.of_eq, List.length_eq_zero_iff, List.filter_eq_nil_iff]
  intro r hr heq
  obtain ⟨s, hs⟩ := h.named.referred r hr
  have hlt := (Array.getElem?_eq_some_iff.1 hs).1
  rw [of_decide_eq_true heq] at hlt
  exact Nat.not_lt.2 hid hlt

/-! ## The invariant -/

/-- A name that a scope has got. -/
structure NewName (g : Graft) (t u : SymbolTable) (i : Nat) (e : String × Nat) : Prop where
  new : t.symbols.size ≤ e.2
  named : ∃ symbol, u.symbol? e.2 = some symbol ∧ symbol.name = e.1
  /-- Of the old scopes only the one that was current gets names, and only those of the graft. -/
  home : i < t.scopes.size → i = t.current ∧ e.1 ∈ g.names

structure Gaining (g : Graft) (name? : Option String) (t u : SymbolTable) : Prop
    extends t.Extends u where
  current_lt : u.current < u.scopes.size
  clear : ∀ e ∈ t.namesOf t.current, e.1 ∉ g.names
  kept : ∀ {id}, id < t.symbols.size → u.symbol? id = t.symbol? id
  fresh : ∀ {id symbol}, t.symbols.size ≤ id → u.symbol? id = some symbol →
    g.place symbol.span ∧ symbol.kind ≠ .var ∧ symbol.kind ≠ .parameter
  names : ∀ i, ∃ more, u.namesOf i = more ++ t.namesOf i ∧ ∀ e ∈ more, NewName g t u i e
  /-- The name of the type stands in the scope where it is declared. -/
  declared : ∀ name, name? = some name → ∃ e ∈ u.namesOf t.current, e.1 = name
  count : ∀ id, t.referenceCount id ≤ u.referenceCount id

namespace Gaining

theorem refl (hcurrent : t.current < t.scopes.size)
    (hclear : ∀ e ∈ t.namesOf t.current, e.1 ∉ g.names) : Gaining g none t t where
  toExtends := .refl t
  current_lt := hcurrent
  clear := hclear
  kept _ := rfl
  fresh hid hs := absurd (Array.getElem?_eq_some_iff.1 hs).1 (Nat.not_lt.2 hid)
  names _ := ⟨[], rfl, List.forall_mem_nil _⟩
  declared _ h := nomatch h
  count _ := Nat.le_refl _

/-! ## Operations -/

theorem of_references (h : Gaining g name? t u) {rs : References}
    (hcount : ∀ id, u.references.count id ≤ rs.count id) :
    Gaining g name? t { u with references := rs } :=
  { h with
    toExtends := h.toExtends.trans (.of_scopes rfl (Nat.le_refl _))
    names := fun i =>
      have ⟨more, hmore, hnew⟩ := h.names i
      ⟨more, hmore, fun e he => { hnew e he with }⟩
    count := fun id => Nat.le_trans (h.count id) (hcount id) }

theorem goTo (h : Gaining g name? t u) {i : Nat} (hi : i < u.scopes.size) :
    Gaining g name? t { u with current := i } :=
  { h with
    toExtends := h.toExtends.trans (.of_scopes rfl (Nat.le_refl _))
    current_lt := hi
    names := fun i =>
      have ⟨more, hmore, hnew⟩ := h.names i
      ⟨more, hmore, fun e he => { hnew e he with }⟩ }

theorem enter (h : Gaining g name? t u) (kind : ScopeKind) (span : Span) :
    Gaining g name? t (u.enter kind span) :=
  { h with
    toExtends := h.toExtends.trans (u.extends_enter kind span)
    current_lt := by
      rw [size_enter]
      exact Nat.lt_succ_self _
    names := fun i => by
      obtain ⟨more, hmore, hnew⟩ := h.names i
      exact ⟨more, (namesOf_enter u kind span i).trans hmore, fun e he => { hnew e he with }⟩
    declared := fun name hname => by
      rw [namesOf_enter]
      exact h.declared name hname }

/-- A scope that was entered is left again. -/
theorem leave {v : SymbolTable} {kind : ScopeKind} {span : Span} (h : Gaining g name? t v)
    (hcurrent : u.current < u.scopes.size) (hreturns : (u.enter kind span).Returns v) :
    Gaining g name? t v.leave := by
  rw [leave_of_parent? (parent?_of_returns hreturns)]
  exact h.goTo (Nat.lt_of_lt_of_le hcurrent
    ((u.extends_enter kind span).trans hreturns.toExtends).scopes)

theorem append (h : Gaining g name? t u) (hspan : g.place symbol.span) (hvar : symbol.kind ≠ .var)
    (hparameter : symbol.kind ≠ .parameter)
    (hhome : u.current < t.scopes.size → u.current = t.current ∧ symbol.name ∈ g.names) :
    Gaining g name? t (u.append u.current symbol) where
  toExtends := h.toExtends.trans (u.extends_append u.current symbol)
  current_lt := by
    rw [size_append]
    exact h.current_lt
  clear := h.clear
  kept hid := by
    rw [symbol?_append_eq, if_neg (Nat.ne_of_lt (Nat.lt_of_lt_of_le hid h.symbols))]
    exact h.kept hid
  fresh hid hs := by
    rw [symbol?_append_eq] at hs
    split at hs
    · cases hs
      exact ⟨hspan, hvar, hparameter⟩
    · exact h.fresh hid hs
  names i := by
    obtain ⟨more, hmore, hnew⟩ := h.names i
    have old : ∀ e ∈ more, NewName g t (u.append u.current symbol) i e := by
      intro e he
      obtain ⟨s, hs, hname⟩ := (hnew e he).named
      obtain ⟨s', hs', hname'⟩ := u.keeps_append u.current symbol _ s hs
      exact { hnew e he with named := ⟨s', hs', hname'.trans hname⟩ }
    rw [namesOf_append h.current_lt]
    split
    · next hi =>
      refine ⟨(symbol.name, u.symbols.size) :: more, congrArg _ hmore, fun e he => ?_⟩
      rcases List.mem_cons.1 he with rfl | he
      · exact ⟨h.symbols, ⟨_, u.symbol?_append u.current symbol, rfl⟩, hi ▸ hhome⟩
      · exact old e he
    · exact ⟨more, hmore, old⟩
  declared name hname := by
    obtain ⟨e, he, heq⟩ := h.declared name hname
    refine ⟨e, ?_, heq⟩
    rw [namesOf_append h.current_lt]
    split
    · exact .tail _ he
    · exact he
  count := h.count

/-- The type of a symbol that is new is filled in. -/
theorem retype (h : Gaining g name? t u) {id : Nat} (hid : t.symbols.size ≤ id) (type : Ty) :
    Gaining g name? t (u.modifySymbol id fun s => { s with type }) := by
  have modified (i : Nat) : (u.modifySymbol id fun s => { s with type }).symbol? i =
      if i = id then (u.symbol? i).map (fun s => { s with type }) else u.symbol? i := by
    unfold modifySymbol symbol?
    rw [Array.getElem?_modify]
    by_cases hi : id = i
    · rw [if_pos hi, if_pos hi.symm]
    · rw [if_neg hi, if_neg (Ne.symm hi)]
  refine { h with
    toExtends := h.toExtends.trans (u.extends_modifySymbol _ _)
    kept := fun {i} hi => ?_, fresh := fun {i s} hi hs => ?_, names := fun i => ?_ }
  · rw [modified, if_neg (Nat.ne_of_lt (Nat.lt_of_lt_of_le hi hid))]
    exact h.kept hi
  · rw [modified] at hs
    split at hs
    · obtain ⟨s', hs', rfl⟩ := Option.map_eq_some_iff.1 hs
      have hold := h.fresh hi hs'
      exact hold
    · exact h.fresh hi hs
  · obtain ⟨more, hmore, hnew⟩ := h.names i
    refine ⟨more, hmore, fun e he => { hnew e he with named := ?_ }⟩
    obtain ⟨s, hs, hname⟩ := (hnew e he).named
    obtain ⟨s', hs', hname'⟩ := u.keeps_modifySymbol id (f := fun s => { s with type })
      (fun _ => rfl) _ s hs
    exact ⟨s', hs', hname'.trans hname⟩

/-- The name of the type stands for a symbol of its own, where it is declared. -/
theorem lookup_name (h : Gaining g name? t u) {name : String} (hname : name? = some name)
    (hmem : name ∈ g.names) : ∃ id symbol, u.declared? t.current name = some id ∧
      t.symbols.size ≤ id ∧ u.symbol? id = some symbol ∧ symbol.name = name := by
  obtain ⟨e, he, rfl⟩ := h.declared name hname
  obtain ⟨more, hmore, hnew⟩ := h.names t.current
  rw [declared?_eq_lookup]
  cases hid : List.lookup e.1 (u.namesOf t.current) with
  | none => exact absurd rfl (bne_iff_ne.1 (List.lookup_eq_none_iff.1 hid e he))
  | some id =>
    obtain ⟨l, r, hlist, -⟩ := List.lookup_eq_some_iff.1 hid
    have hlisted : (e.1, id) ∈ u.namesOf t.current := by
      rw [hlist]
      exact List.mem_append_right l (.head _)
    rw [hmore] at hlisted
    rcases List.mem_append.1 hlisted with hlisted | hlisted
    · have hentry := hnew _ hlisted
      obtain ⟨symbol, hsymbol, hsame⟩ := hentry.named
      exact ⟨id, symbol, rfl, hentry.new, hsymbol, hsame⟩
    · exact absurd hmem (h.clear (e.1, id) hlisted)

/-! ## The graft -/

/-- When the declaration is done, the table is the one from before with a graft. -/
theorem grafted (h : Gaining g name? t u) (hblank : g.Blank) (hsound : t.Sound)
    (ht : Grafted g t t) (hinside : g.inside = true) (hhome : g.home? = some t.current)
    (hcurrent : u.current = t.current) (hscopes : root < t.scopes.size) :
    Grafted (g.grown t u hscopes) t u := by
  have hsymbols := h.symbols
  have hscopesLe := h.scopes
  have symbol_of_lt {i : Nat} (hi : i < t.symbols.size) : (g.grown t u hscopes).symbol i = i :=
    skip_lt hi
  have scope_of_lt {i : Nat} (hi : i < t.scopes.size) : (g.grown t u hscopes).scope i = i :=
    skip_lt hi
  -- a number that is moved is none of `u`
  have scope_of_ge {i : Nat} (hi : t.scopes.size ≤ i) :
      u.scope? ((g.grown t u hscopes).scope i) = none ∧ t.scope? i = none := by
    refine ⟨Array.getElem?_eq_none ?_, Array.getElem?_eq_none hi⟩
    show u.scopes.size ≤ skip _ _ _
    rw [skip_ge hi]
    omega
  have newSymbol {i : Nat} (hi : t.symbols.size ≤ i) (hlt : i < u.symbols.size) :
      (g.grown t u hscopes).NewSymbol i := skip_ne_iff.2 ⟨hi, by omega⟩
  refine { ht with
    nextSymbol := fun j => ?_, nextScope := fun j => ?_, symbol := fun i => ?_, kind := fun i => ?_
    parent := fun i => ?_, declared := fun i name hname => ?_, names := fun i e he => ?_
    added := fun {i s} hnew hs => ?_, current := ?_, home := fun {i} hi => ?_
    outside := fun hout => ?_, clear := fun {i} e he hadds => ?_, count := fun i => ?_ }
  · show skip _ _ _ = _
    rw [skip_ge (Nat.le_add_right _ _)]
    omega
  · show skip _ _ _ = _
    rw [skip_ge (Nat.le_add_right _ _)]
    omega
  · by_cases hi : i < t.symbols.size
    · rw [symbol_of_lt hi, h.kept hi]
      cases hs : t.symbol? i with
      | none => rfl
      | some s =>
        refine congrArg some ?_
        show s = { s with scope := (g.grown t u hscopes).scope s.scope }
        rw [scope_of_lt (hsound.scope_lt hs)]
    · have hge : t.symbols.size ≤ i := Nat.le_of_not_lt hi
      rw [show t.symbol? i = none from Array.getElem?_eq_none hge]
      refine Array.getElem?_eq_none ?_
      show u.symbols.size ≤ skip _ _ _
      rw [skip_ge hge]
      omega
  · by_cases hi : i < t.scopes.size
    · rw [scope_of_lt hi]
      obtain ⟨sc, hsc⟩ := exists_scope? hi
      have hkind : t.kind? i = some sc.kind := congrArg (Option.map _) hsc
      rw [hkind]
      exact h.kind hkind
    · obtain ⟨hu, ht⟩ := scope_of_ge (Nat.le_of_not_lt hi)
      unfold kind?
      rw [hu, ht]
  · by_cases hi : i < t.scopes.size
    · rw [scope_of_lt hi, h.parent hi]
      cases hp : t.parent? i with
      | none => rfl
      | some p => exact congrArg some (scope_of_lt (hsound.parent_lt hp)).symm
    · obtain ⟨hu, ht⟩ := scope_of_ge (Nat.le_of_not_lt hi)
      unfold parent?
      rw [hu, ht]
      rfl
  · by_cases hi : i < t.scopes.size
    · rw [scope_of_lt hi] at hname ⊢
      obtain ⟨more, hmore, hnew⟩ := h.names i
      have hskipped : List.lookup name more = none := by
        rw [List.lookup_eq_none_iff]
        intro e he
        refine bne_iff_ne.2 fun heq => hname ?_
        obtain ⟨hhere, hmem⟩ := (hnew e he).home hi
        exact ⟨hhere ▸ hhome, heq ▸ hmem⟩
      rw [declared?_eq_lookup, declared?_eq_lookup, hmore, List.lookup_append, hskipped,
        Option.none_or]
      cases hid : List.lookup name (t.namesOf i) with
      | none => rfl
      | some id =>
        obtain ⟨s, hs, -⟩ := ht.name_of_declares ⟨i, (declared?_eq_lookup t i name).trans hid⟩
        exact congrArg some (symbol_of_lt (Array.getElem?_eq_some_iff.1 hs).1).symm
    · obtain ⟨hu, ht⟩ := scope_of_ge (Nat.le_of_not_lt hi)
      unfold declared?
      rw [hu, ht]
      rfl
  · obtain ⟨more, hmore, hnew⟩ := h.names i
    rw [hmore] at he
    rcases List.mem_append.1 he with he | he
    · obtain ⟨s, hs, -⟩ := (hnew e he).named
      exact .inr (newSymbol (hnew e he).new (Array.getElem?_eq_some_iff.1 hs).1)
    · obtain ⟨s, hs, -⟩ := ht.named e he
      have hi : i < t.scopes.size := by
        by_contra hge
        unfold namesOf at he
        rw [(scope_of_ge (Nat.le_of_not_lt hge)).2] at he
        cases he
      exact .inl ⟨i, e.2, (scope_of_lt hi).symm,
        (symbol_of_lt (Array.getElem?_eq_some_iff.1 hs).1).symm, he⟩
  · refine h.fresh ?_ hs
    by_contra hlt
    exact hnew i (symbol_of_lt (Nat.lt_of_not_le hlt))
  · rw [hcurrent]
    exact (scope_of_lt ht.current_lt).symm
  · obtain ⟨hlt, hkind⟩ := ht.home hi
    obtain ⟨sc, hsc⟩ := exists_scope? hlt
    have hsame : t.kind? i = some sc.kind := congrArg (Option.map _) hsc
    rw [h.kind hsame, ← hsame]
    exact ⟨Nat.lt_of_lt_of_le hlt hscopesLe, hkind⟩
  · exact absurd (hinside.symm.trans hout) (by decide)
  · have hi : i < t.scopes.size := by
      by_contra hge
      unfold namesOf at he
      rw [(scope_of_ge (Nat.le_of_not_lt hge)).2] at he
      cases he
    refine ht.clear e he ?_
    rw [hblank.scope]
    rwa [scope_of_lt hi] at hadds
  · by_cases hi : i < t.symbols.size
    · rw [symbol_of_lt hi]
      exact h.count i
    · rw [hsound.unused (Nat.le_of_not_lt hi)]
      exact Nat.zero_le _

end Gaining

end SymbolTable

end SimFront
