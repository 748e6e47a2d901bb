import Mathlib.Data.List.Nodup
import SimFront.Symbol.Lookup

/-!
# What the names in a symbol table stand for

In a table that was built by declaring, every name of a scope stands for a symbol of that
name, no scope has a name twice, and every reference is to a symbol (`Named`).  Symbols
are never taken away and never renamed (`Keeps`), so what a name once stood for keeps it.
-/

namespace SimFront.SymbolTable

variable {t t' t'' : SymbolTable}

/-! ## The invariant -/

structure Named (t : SymbolTable) : Prop where
  /-- A name of a scope stands for a symbol of that name. -/
  symbol : ∀ {i : Nat} {sc : Scope}, t.scope? i = some sc → ∀ e ∈ sc.names,
    ∃ s, t.symbol? e.2 = some s ∧ s.name = e.1
  /-- A scope declares a name once. -/
  distinct : ∀ {i : Nat} {sc : Scope}, t.scope? i = some sc → (sc.names.map (·.1)).Nodup
  /-- What is referred to is there. -/
  referred : ∀ r ∈ t.references.entries.toList, ∃ s, t.symbol? r.symbol = some s

/-- The symbols stay, under their names. -/
def Keeps (t t' : SymbolTable) : Prop :=
  ∀ id s, t.symbol? id = some s → ∃ s', t'.symbol? id = some s' ∧ s'.name = s.name

theorem Keeps.refl (t : SymbolTable) : t.Keeps t := fun _ _ h => ⟨_, h, rfl⟩

theorem Keeps.trans (h : t.Keeps t') (h' : t'.Keeps t'') : t.Keeps t'' := fun id s hs => by
  obtain ⟨s', hs', hname⟩ := h id s hs
  obtain ⟨s'', hs'', hname'⟩ := h' id s' hs'
  exact ⟨s'', hs'', hname'.trans hname⟩

/-- Some scope declares the name as the symbol. -/
def Declares (t : SymbolTable) (name : String) (id : Nat) : Prop :=
  ∃ scope, t.declared? scope name = some id

theorem Named.of_declares (h : t.Named) {name : String} {id : Nat} (hd : t.Declares name id) :
    ∃ s, t.symbol? id = some s ∧ s.name = name := by
  obtain ⟨scope, hscope⟩ := hd
  obtain ⟨sc, hsc, hfind⟩ := Option.bind_eq_some_iff.1 hscope
  obtain ⟨l, r, hnames, -⟩ := List.lookup_eq_some_iff.1 hfind
  refine h.symbol hsc (name, id) ?_
  rw [hnames]
  exact List.mem_append_right l List.mem_cons_self

theorem declares_of_lookupFrom? {scope : Nat} {name : String} {id : Nat}
    (h : t.lookupFrom? scope name = some id) : t.Declares name id := by
  obtain ⟨sc, -, hsc⟩ := List.exists_of_findSome?_eq_some h
  exact ⟨sc, hsc⟩

/-! ## New tables -/

theorem named_new (moduleName : String) (span : Span) : (new moduleName span).Named where
  symbol {i sc} h := by
    cases i with
    | zero =>
      cases h
      exact fun _ he => nomatch he
    | succ i => cases h
  distinct {i sc} h := by
    cases i with
    | zero =>
      cases h
      exact List.nodup_nil
    | succ i => cases h
  referred _ h := nomatch h

/-! ## Changes that leave the symbols alone -/

/-- With the same symbols and references, and in each scope the names of an old one or none. -/
theorem Named.of_scopes (h : t.Named) (hsymbols : t'.symbols = t.symbols)
    (hreferences : t'.references = t.references)
    (hscopes : ∀ {i sc}, t'.scope? i = some sc →
      sc.names = [] ∨ ∃ j old, t.scope? j = some old ∧ sc.names = old.names) : t'.Named where
  symbol {i sc} hsc e he := by
    unfold symbol?
    rw [hsymbols]
    obtain hnil | ⟨j, old, hold, hnames⟩ := hscopes hsc
    · rw [hnil] at he
      cases he
    · rw [hnames] at he
      exact h.symbol hold e he
  distinct {i sc} hsc := by
    obtain hnil | ⟨j, old, hold, hnames⟩ := hscopes hsc
    · rw [hnil]
      exact List.nodup_nil
    · rw [hnames]
      exact h.distinct hold
  referred := by
    unfold symbol?
    rw [hsymbols, hreferences]
    exact h.referred

theorem Named.enter (h : t.Named) (kind : ScopeKind) (span : Span) : (t.enter kind span).Named := by
  refine h.of_scopes rfl rfl fun {i sc} hsc => ?_
  unfold SymbolTable.enter scope? at hsc
  rw [Array.getElem?_push] at hsc
  split at hsc
  · cases hsc
    exact .inl rfl
  · rw [Array.getElem?_modify] at hsc
    split at hsc
    · obtain ⟨old, hold, rfl⟩ := Option.map_eq_some_iff.1 hsc
      exact .inr ⟨i, old, hold, rfl⟩
    · exact .inr ⟨i, sc, hsc, rfl⟩

theorem keeps_enter (t : SymbolTable) (kind : ScopeKind) (span : Span) :
    t.Keeps (t.enter kind span) := fun _ _ h => ⟨_, h, rfl⟩

theorem leave_eq (t : SymbolTable) : ∃ scope, t.leave = { t with current := scope } := by
  unfold leave
  split
  · exact ⟨_, rfl⟩
  · exact ⟨t.current, rfl⟩

theorem Named.leave (h : t.Named) : t.leave.Named := by
  obtain ⟨scope, hleave⟩ := t.leave_eq
  rw [hleave]
  exact ⟨h.symbol, h.distinct, h.referred⟩

theorem keeps_leave (t : SymbolTable) : t.Keeps t.leave := by
  obtain ⟨scope, hleave⟩ := t.leave_eq
  rw [hleave]
  exact fun _ _ h => ⟨_, h, rfl⟩

/-! ## Changes of the symbols -/

/-- With all symbols kept under their names, the same scopes and the same references. -/
theorem Named.of_keeps (h : t.Named) (hkeeps : t.Keeps t') (hscopes : t'.scopes = t.scopes)
    (hreferences : t'.references = t.references) : t'.Named where
  symbol {i sc} hsc e he := by
    unfold scope? at hsc
    rw [hscopes] at hsc
    obtain ⟨s, hs, hname⟩ := h.symbol hsc e he
    obtain ⟨s', hs', hname'⟩ := hkeeps _ _ hs
    exact ⟨s', hs', hname'.trans hname⟩
  distinct {i sc} hsc := by
    unfold scope? at hsc
    rw [hscopes] at hsc
    exact h.distinct hsc
  referred r hr := by
    rw [hreferences] at hr
    obtain ⟨s, hs⟩ := h.referred r hr
    obtain ⟨s', hs', -⟩ := hkeeps _ _ hs
    exact ⟨s', hs'⟩

theorem keeps_modifySymbol (t : SymbolTable) (id : Nat) {f : Symbol → Symbol}
    (hf : ∀ s, (f s).name = s.name) : t.Keeps (t.modifySymbol id f) := by
  intro i s hs
  unfold modifySymbol symbol? at *
  dsimp only
  rw [Array.getElem?_modify]
  split
  · rw [hs]
    exact ⟨_, rfl, hf s⟩
  · exact ⟨s, hs, rfl⟩

theorem Named.modifySymbol (h : t.Named) (id : Nat) {f : Symbol → Symbol}
    (hf : ∀ s, (f s).name = s.name) : (t.modifySymbol id f).Named :=
  h.of_keeps (t.keeps_modifySymbol id hf) rfl rfl

theorem keeps_append (t : SymbolTable) (scope : Nat) (symbol : Symbol) :
    t.Keeps (t.append scope symbol) := by
  intro i s hs
  unfold append symbol? at *
  dsimp only
  obtain ⟨hlt, -⟩ := Array.getElem?_eq_some_iff.1 hs
  rw [Array.getElem?_push, if_neg (Nat.ne_of_lt hlt)]
  exact ⟨s, hs, rfl⟩

theorem symbol?_append (t : SymbolTable) (scope : Nat) (symbol : Symbol) :
    (t.append scope symbol).symbol? t.symbols.size = some { symbol with scope } := by
  unfold append symbol?
  rw [Array.getElem?_push, if_pos rfl]

theorem scope?_append {scope i : Nat} {symbol : Symbol} {sc : Scope}
    (h : (t.append scope symbol).scope? i = some sc) : ∃ old, t.scope? i = some old ∧
      sc.names = if scope = i then (symbol.name, t.symbols.size) :: old.names else old.names := by
  unfold append scope? at *
  dsimp only at h
  rw [Array.getElem?_modify] at h
  split at h
  · next hi =>
    obtain ⟨old, hold, rfl⟩ := Option.map_eq_some_iff.1 h
    exact ⟨old, hold, (if_pos hi).symm⟩
  · next hi => exact ⟨sc, h, (if_neg hi).symm⟩

theorem Named.append (h : t.Named) {scope : Nat} {symbol : Symbol}
    (hnew : t.declared? scope symbol.name = none) : (t.append scope symbol).Named where
  symbol {i sc} hsc e he := by
    obtain ⟨old, hold, hnames⟩ := scope?_append hsc
    have hkept (he : e ∈ old.names) : ∃ s, (t.append scope symbol).symbol? e.2 = some s ∧
        s.name = e.1 := by
      obtain ⟨s, hs, hname⟩ := h.symbol hold e he
      obtain ⟨s', hs', hname'⟩ := t.keeps_append scope symbol _ _ hs
      exact ⟨s', hs', hname'.trans hname⟩
    rw [hnames] at he
    split at he
    · rcases List.mem_cons.1 he with rfl | he
      · exact ⟨_, t.symbol?_append scope symbol, rfl⟩
      · exact hkept he
    · exact hkept he
  distinct {i sc} hsc := by
    obtain ⟨old, hold, hnames⟩ := scope?_append hsc
    rw [hnames]
    split
    · next hi =>
      subst hi
      refine List.nodup_cons.2 ⟨fun hmem => ?_, h.distinct hold⟩
      obtain ⟨e, he, hname⟩ := List.mem_map.1 hmem
      have hfind : List.lookup symbol.name old.names = none := by
        unfold declared? at hnew
        rwa [hold] at hnew
      have hname : e.1 = symbol.name := hname
      have hne := List.lookup_eq_none_iff.1 hfind e he
      rw [hname, bne_self_eq_false] at hne
      cases hne
    · exact h.distinct hold
  referred r hr := by
    obtain ⟨s, hs⟩ := h.referred r hr
    obtain ⟨s', hs', -⟩ := t.keeps_append scope symbol _ _ hs
    exact ⟨s', hs'⟩

/-- Either the name is new in the scope, or it stands for a heading that is completed. -/
theorem defineIn_cases {scope id : Nat} {symbol : Symbol} (h : t.defineIn scope symbol = .ok (id, t')) :
    (t.declared? scope symbol.name = none ∧ id = t.symbols.size ∧ t' = t.append scope symbol) ∨
    (∃ previous, t.declared? scope symbol.name = some id ∧ t.symbol? id = some previous ∧
      previous.isForward ∧ previous.kind = .procedure ∧ symbol.kind = .procedure ∧
      t' = { t with symbols := t.symbols.setIfInBounds id { symbol with scope } }) := by
  unfold defineIn at h
  split at h
  · next hnone =>
    obtain ⟨rfl, rfl⟩ := Prod.mk.inj (Except.ok.inj h)
    exact .inl ⟨hnone, rfl, rfl⟩
  · next existing hexisting =>
    split at h
    · cases h
    · next previous hprevious =>
      split at h
      · next hforward =>
        obtain ⟨rfl, rfl⟩ := Prod.mk.inj (Except.ok.inj h)
        simp only [Bool.and_eq_true, decide_eq_true_eq] at hforward
        exact .inr ⟨previous, hexisting, hprevious, hforward.1.1, hforward.1.2, hforward.2, rfl⟩
      · cases h

theorem Named.defineIn (h : t.Named) {scope id : Nat} {symbol : Symbol}
    (hdefine : t.defineIn scope symbol = .ok (id, t')) : t'.Named ∧ t.Keeps t' := by
  obtain ⟨hnew, -, rfl⟩ | ⟨previous, hdeclared, hprevious, -, -, -, rfl⟩ := defineIn_cases hdefine
  · exact ⟨h.append hnew, t.keeps_append scope symbol⟩
  · obtain ⟨s, hs, hname⟩ := h.of_declares ⟨scope, hdeclared⟩
    have hkeeps : t.Keeps { t with symbols := t.symbols.setIfInBounds id { symbol with scope } } := by
      intro i s' hs'
      unfold symbol? at *
      dsimp only
      rw [Array.getElem?_setIfInBounds]
      split
      · next hi =>
        subst hi
        rw [hs'] at hs
        obtain ⟨hlt, -⟩ := Array.getElem?_eq_some_iff.1 hs'
        rw [if_pos hlt]
        exact ⟨_, rfl, by rw [Option.some.inj hs, hname]⟩
      · exact ⟨s', hs', rfl⟩
    exact ⟨h.of_keeps hkeeps rfl rfl, hkeeps⟩

/-! ## References -/

theorem Named.referIn (h : t.Named) {scope id : Nat} {span : Span} {s : Symbol}
    (hs : t.symbol? id = some s) : (t.referIn scope id span).Named where
  symbol := h.symbol
  distinct := h.distinct
  referred r hr := by
    have hr : r ∈ (t.references.entries.push ⟨id, span, scope⟩).toList := hr
    rw [Array.toList_push] at hr
    rcases List.mem_append.1 hr with hr | hr
    · exact h.referred r hr
    · rw [List.mem_singleton.1 hr]
      exact ⟨s, hs⟩

end SimFront.SymbolTable
