import SimFront.Proofs.Symbol.Grafted

/-!
# Operations on a table and on the same table with a graft

Entering a scope, going back, declaring a symbol, filling in its type and recording its
uses take a table and the same table with a graft to such tables again.
-/

namespace SimFront

theorem References.count_add (rs : References) (r : Reference) (symbol : Nat) :
    (rs.add r).count symbol = rs.count symbol + if r.symbol = symbol then 1 else 0 := by
  unfold References.count References.add
  rw [Places.of_add, List.length_append]
  split <;> rfl

namespace SymbolTable

variable {g : Graft} {t u : SymbolTable} {i id scope : Nat} {name : String} {symbol : Symbol}

theorem symbol?_append_eq (t : SymbolTable) (scope : Nat) (symbol : Symbol) (i : Nat) :
    (t.append scope symbol).symbol? i =
      if i = t.symbols.size then some { symbol with scope } else t.symbol? i :=
  Array.getElem?_push

theorem declared?_enter_eq (t : SymbolTable) (kind : ScopeKind) (span : Span) (i : Nat)
    (name : String) : (t.enter kind span).declared? i name = t.declared? i name := by
  rw [declared?_eq_lookup, namesOf_enter, declared?_eq_lookup]

namespace Grafted

/-! ## Scopes -/

theorem enter (h : Grafted g t u) (kind : ScopeKind) (span : Span) :
    Grafted g (t.enter kind span) (u.enter kind span) where
  nextSymbol := h.nextSymbol
  nextScope j := by
    have hnext := h.nextScope (1 + j)
    rw [size_enter, size_enter, Nat.add_assoc, Nat.add_assoc]
    exact hnext
  symbol := h.symbol
  kind i := by
    rw [kind?_enter, kind?_enter, h.kind]
    exact if_congr h.scope_eq_size rfl rfl
  parent i := by
    rw [parent?_enter, parent?_enter, h.parent, h.current]
    by_cases hi : i = t.scopes.size
    · rw [if_pos hi, if_pos (h.scope_eq_size.2 hi)]
      rfl
    · rw [if_neg hi, if_neg fun heq => hi (h.scope_eq_size.1 heq)]
  declared i name hname := by
    rw [declared?_enter_eq, declared?_enter_eq]
    exact h.declared i name hname
  names i e he := by
    rw [namesOf_enter] at he
    simp only [namesOf_enter]
    exact h.names i e he
  added := h.added
  current := h.scopes_eq.symm
  current_lt := by
    rw [size_enter]
    exact Nat.lt_succ_self _
  home {i} hi := by
    obtain ⟨hlt, hkind⟩ := h.home hi
    rw [size_enter, kind?_enter, if_neg (Nat.ne_of_lt hlt)]
    exact ⟨Nat.lt_succ_of_lt hlt, hkind⟩
  outside hinside i hi := by
    rw [enclosing_eq] at hi
    rcases List.mem_cons.1 hi with rfl | hi
    · -- the new scope is none that was there before
      intro hhome
      refine absurd (h.home hhome).1 ?_
      show ¬ g.scope t.scopes.size < _
      rw [h.scopes_eq]
      exact Nat.lt_irrefl _
    · rw [show (t.enter kind span).parent? (t.enter kind span).current = some t.current by
        rw [parent?_enter]
        exact if_pos rfl] at hi
      have hlt : t.current < (t.enter kind span).current := h.current_lt
      dsimp only at hi
      rw [if_pos hlt, (t.extends_enter kind span).enclosing h.current_lt] at hi
      exact h.outside hinside i hi
  clear {i} e he := by
    rw [namesOf_enter] at he
    exact h.clear e he
  count := h.count
  types := h.types
  own := h.own
  named {i} e he := by
    rw [namesOf_enter] at he
    exact h.named e he

/-- Another scope becomes the current one. -/
theorem goTo (h : Grafted g t u) (hi : i < t.scopes.size)
    (houtside : g.inside = false → ∀ j ∈ t.enclosing i, g.home? ≠ some (g.scope j)) :
    Grafted g { t with current := i } { u with current := g.scope i } :=
  { h with
    current := rfl
    current_lt := hi
    outside := fun hinside j hj => houtside hinside j (mem_enclosing_of_scopes hj rfl) }

/-- The current scope is left for one around it. -/
theorem leave (h : Grafted g t u) (hparent : t.parent? t.current = some i)
    (hi : i < t.scopes.size)
    (houtside : g.inside = false → ∀ j ∈ t.enclosing i, g.home? ≠ some (g.scope j)) :
    Grafted g t.leave u.leave := by
  have hparent' : u.parent? u.current = some (g.scope i) := by
    rw [h.current, h.parent, hparent]
    rfl
  rw [leave_of_parent? hparent, leave_of_parent? hparent']
  exact h.goTo hi houtside

/-! ## Symbols -/

/-- With the same scopes and references, and one symbol that has changed. -/
theorem replace (h : Grafted g t u) (id : Nat) {symbols symbols' : Array Symbol} {f f' : Symbol → Symbol}
    (hsize : symbols.size = t.symbols.size) (hsize' : symbols'.size = u.symbols.size)
    (ht : ∀ i, symbols[i]? = if i = id then (t.symbol? i).map f else t.symbol? i)
    (hu : ∀ i, symbols'[i]? = if i = g.symbol id then (u.symbol? i).map f' else u.symbol? i)
    (hmove : ∀ s, f' (g.move s) = g.move (f s))
    (hf : ∀ s, t.symbol? id = some s → (f s).name = s.name ∧ (f s).type.Avoids g.names ∧
      ((f s).kind = .type → (f s).origin? = none → (f s).name ∉ g.names)) :
    Grafted g { t with symbols } { u with symbols := symbols' } := by
  -- an old symbol is one as before, or the one that has changed
  have old {i : Nat} {s : Symbol} (hs : symbols[i]? = some s) :
      t.symbol? i = some s ∨ ∃ s', t.symbol? id = some s' ∧ s = f s' := by
    rw [ht] at hs
    split at hs
    · next hi =>
      subst hi
      obtain ⟨s', hs', rfl⟩ := Option.map_eq_some_iff.1 hs
      exact .inr ⟨s', hs', rfl⟩
    · exact .inl hs
  refine { h with
    nextSymbol := fun j => ?_, symbol := fun i => ?_, added := fun {i s} hnew hs => ?_,
    outside := fun hinside j hj => ?_, types := fun {i s} hs => ?_,
    own := fun {i s} hs => ?_, named := fun {i} e he => ?_ }
  · dsimp only
    rw [hsize, hsize']
    exact h.nextSymbol j
  · show symbols'[g.symbol i]? = (symbols[i]?).map g.move
    rw [hu, ht, h.symbol]
    by_cases hi : i = id
    · rw [if_pos hi, if_pos (congrArg _ hi), Option.map_map, Option.map_map]
      exact congrArg (Option.map · _) (funext hmove)
    · rw [if_neg hi, if_neg fun heq => hi (Graft.symbol_inj.1 heq)]
  · have hs : symbols'[i]? = some s := hs
    rw [hu, if_neg fun heq => hnew id heq.symm] at hs
    exact h.added hnew hs
  · exact h.outside hinside j (mem_enclosing_of_scopes hj rfl)
  · obtain hs | ⟨s', hs', rfl⟩ := old hs
    · exact h.types hs
    · exact (hf s' hs').2.1
  · obtain hs | ⟨s', hs', rfl⟩ := old hs
    · exact h.own hs
    · exact (hf s' hs').2.2
  · obtain ⟨s, hs, hname⟩ := h.named e he
    show ∃ s, symbols[e.2]? = some s ∧ s.name = e.1
    rw [ht]
    split
    · next hi =>
      rw [hs]
      refine ⟨f s, rfl, ?_⟩
      rw [(hf s (hi ▸ hs)).1, hname]
    · exact ⟨s, hs, hname⟩

/-- The type of a symbol is filled in. -/
theorem retype (h : Grafted g t u) (id : Nat) {type : Ty} (htype : type.Avoids g.names) :
    Grafted g (t.modifySymbol id fun s => { s with type })
      (u.modifySymbol (g.symbol id) fun s => { s with type }) := by
  have modified (symbols : Array Symbol) (id i : Nat) :
      (symbols.modify id fun s => { s with type })[i]? =
        if i = id then symbols[i]?.map (fun s => { s with type }) else symbols[i]? := by
    rw [Array.getElem?_modify]
    by_cases hi : id = i
    · rw [if_pos hi, if_pos hi.symm]
    · rw [if_neg hi, if_neg (Ne.symm hi)]
  refine h.replace id Array.size_modify Array.size_modify (modified _ _) (modified _ _)
    (fun _ => rfl) fun s hs => ?_
  have hown := h.own hs
  exact ⟨rfl, htype, hown⟩

theorem append (h : Grafted g t u) (hname : g.Plain symbol.name)
    (htype : symbol.type.Avoids g.names)
    (hown : symbol.kind = .type → symbol.origin? = none → symbol.name ∉ g.names) :
    Grafted g (t.append t.current symbol) (u.append u.current symbol) where
  nextSymbol j := by
    have hnext := h.nextSymbol (1 + j)
    show g.symbol ((t.symbols.push _).size + j) = (u.symbols.push _).size + j
    rw [Array.size_push, Array.size_push, Nat.add_assoc, Nat.add_assoc]
    exact hnext
  nextScope j := by
    rw [size_append, size_append]
    exact h.nextScope j
  symbol i := by
    rw [symbol?_append_eq, symbol?_append_eq, h.symbol, h.current]
    by_cases hi : i = t.symbols.size
    · rw [if_pos hi, if_pos (h.symbol_eq_size.2 hi)]
      rfl
    · rw [if_neg hi, if_neg fun heq => hi (h.symbol_eq_size.1 heq)]
  kind i := by
    rw [kind?_append, kind?_append]
    exact h.kind i
  parent i := by
    rw [parent?_append, parent?_append]
    exact h.parent i
  declared i name hadds := by
    have hold := h.declared i name hadds
    rw [declared?_eq_lookup, declared?_eq_lookup] at hold
    rw [declared?_eq_lookup, declared?_eq_lookup, namesOf_append h.current_lt,
      namesOf_append h.current_lt', h.current]
    by_cases hi : i = t.current
    · rw [if_pos hi, if_pos (congrArg _ hi), List.lookup_cons, List.lookup_cons]
      split
      · rw [Option.map_some, h.size_eq]
      · exact hold
    · rw [if_neg hi, if_neg fun heq => hi (Graft.scope_inj.1 heq)]
      exact hold
  names i e he := by
    have kept {j id' : Nat} (hmem : (e.1, id') ∈ t.namesOf j) :
        (e.1, id') ∈ (t.append t.current symbol).namesOf j := by
      rw [namesOf_append h.current_lt]
      split
      · exact List.mem_cons_of_mem _ hmem
      · exact hmem
    have old (he : e ∈ u.namesOf i) := (h.names i e he).imp_left
      fun ⟨j, id', hi, hid, hmem⟩ => (⟨j, id', hi, hid, kept hmem⟩ :
        ∃ j id', i = g.scope j ∧ e.2 = g.symbol id' ∧
          (e.1, id') ∈ (t.append t.current symbol).namesOf j)
    rw [namesOf_append h.current_lt'] at he
    split at he
    · next hi =>
      rcases List.mem_cons.1 he with rfl | he
      · refine .inl ⟨t.current, t.symbols.size, hi.trans h.current, h.size_eq.symm, ?_⟩
        rw [namesOf_append h.current_lt, if_pos rfl]
        exact List.mem_cons_self
      · exact old he
    · exact old he
  added {i s} hnew hs := by
    rw [symbol?_append_eq, if_neg fun heq => hnew _ (h.size_eq.trans heq.symm)] at hs
    exact h.added hnew hs
  current := h.current
  current_lt := by
    rw [size_append]
    exact h.current_lt
  home hi := by
    rw [size_append, kind?_append]
    exact h.home hi
  outside hinside j hj := by
    have hsame := (t.extends_append t.current symbol).enclosing h.current_lt
    exact h.outside hinside j (hsame ▸ hj)
  clear {i} e he := by
    rw [namesOf_append h.current_lt] at he
    split at he
    · next hi =>
      rcases List.mem_cons.1 he with rfl | he
      · rw [hi]
        exact h.not_adds_current hname _ (t.self_mem_enclosing t.current)
      · exact h.clear e he
    · exact h.clear e he
  count := h.count
  types {i s} hs := by
    rw [symbol?_append_eq] at hs
    split at hs
    · cases hs
      exact htype
    · exact h.types hs
  own {i s} hs := by
    rw [symbol?_append_eq] at hs
    split at hs
    · cases hs
      exact hown
    · exact h.own hs
  named {i} e he := by
    have kept (he : e ∈ t.namesOf i) :
        ∃ s, (t.append t.current symbol).symbol? e.2 = some s ∧ s.name = e.1 := by
      obtain ⟨s, hs, hsname⟩ := h.named e he
      obtain ⟨s', hs', hname'⟩ := t.keeps_append t.current symbol _ s hs
      exact ⟨s', hs', hname'.trans hsname⟩
    rw [namesOf_append h.current_lt] at he
    split at he
    · rcases List.mem_cons.1 he with rfl | he
      · exact ⟨_, t.symbol?_append t.current symbol, rfl⟩
      · exact kept he
    · exact kept he

/-- A symbol is declared in both tables, or refused in both. -/
theorem define (h : Grafted g t u) (hname : g.Plain symbol.name)
    (htype : symbol.type.Avoids g.names)
    (hown : symbol.kind = .type → symbol.origin? = none → symbol.name ∉ g.names) :
    (∃ id t' u', t.define symbol = .ok (id, t') ∧ u.define symbol = .ok (g.symbol id, u') ∧
      Grafted g t' u') ∨
    ∃ d d', t.define symbol = .error d ∧ u.define symbol = .error d' := by
  unfold SymbolTable.define defineIn
  rw [h.declared?_current hname]
  cases hdeclared : t.declared? t.current symbol.name with
  | none =>
    refine .inl ⟨_, _, _, rfl, ?_, h.append hname htype hown⟩
    rw [h.size_eq]
    rfl
  | some existing =>
    simp only [Option.map_some]
    rw [h.symbol]
    cases hprevious : t.symbol? existing with
    | none => exact .inr ⟨_, _, rfl, rfl⟩
    | some previous =>
      simp only [Option.map_some]
      by_cases hcompletes :
          (previous.isForward && previous.kind = .procedure && symbol.kind = .procedure) = true
      · refine .inl ⟨_, _, _, if_pos hcompletes, if_pos hcompletes, ?_⟩
        obtain ⟨s, hs, hsname⟩ := h.name_of_declares ⟨t.current, hdeclared⟩
        have set (symbols : Array Symbol) (i j : Nat) (s : Symbol) :
            (symbols.setIfInBounds i s)[j]? =
              if j = i then symbols[j]?.map (fun _ => s) else symbols[j]? := by
          rw [Array.getElem?_setIfInBounds]
          by_cases hi : i = j
          · subst hi
            rw [if_pos rfl, if_pos rfl]
            split
            · next hlt => rw [Array.getElem?_eq_getElem hlt, Option.map_some]
            · next hge => rw [Array.getElem?_eq_none (Nat.le_of_not_lt hge), Option.map_none]
          · rw [if_neg hi, if_neg (Ne.symm hi)]
        refine h.replace existing Array.size_setIfInBounds Array.size_setIfInBounds
          (set _ _ · _) (set _ _ · _) (fun _ => ?_) fun s' hs' => ?_
        · unfold Graft.move
          rw [h.current]
        · rw [hs] at hs'
          cases hs'
          exact ⟨hsname.symm, htype, hown⟩
      · exact .inr ⟨_, _, if_neg hcompletes, if_neg hcompletes⟩

/-! ## Uses -/

theorem of_references (h : Grafted g t u) (rs : References) {rs' : References}
    (hcount : ∀ id, rs.count id ≤ rs'.count (g.symbol id)) :
    Grafted g { t with references := rs } { u with references := rs' } :=
  { h with
    count := hcount
    outside := fun hinside j hj => h.outside hinside j (mem_enclosing_of_scopes hj rfl) }

/-- A use of a symbol is recorded in both tables. -/
theorem referIn (h : Grafted g t u) (scope scope' id : Nat) (span span' : Span) :
    Grafted g (t.referIn scope id span) (u.referIn scope' (g.symbol id) span') := by
  refine h.of_references _ fun i => ?_
  rw [References.count_add, References.count_add]
  refine Nat.add_le_add (h.count i) (Nat.le_of_eq ?_)
  exact if_congr Graft.symbol_inj.symm rfl rfl

end Grafted

end SymbolTable

end SimFront
