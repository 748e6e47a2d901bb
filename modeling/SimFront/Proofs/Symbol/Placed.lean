import SimFront.Proofs.Symbol.Declared
import SimFront.Proofs.Text.Position

/-!
# Where scopes and symbols lie

In a table that was built scope by scope, every scope but the module's own lies within the
scope around it, every symbol lies within the scope that it is declared in, and the names
of a scope stand for symbols of that scope (`Placed`).  Scopes are never taken away, moved
or hung elsewhere (`KeepsScopes`), so what lies within a scope stays there.
-/

namespace SimFront

namespace SymbolTable

variable {t t' t'' : SymbolTable} {scope id : Nat} {span : Span} {symbol : Symbol}

/-! ## The invariant -/

/-- The scope is there and its span covers another. -/
def Within (t : SymbolTable) (scope : Nat) (span : Span) : Prop :=
  ∃ sc, t.scope? scope = some sc ∧ sc.span.containsSpan span

structure Placed (t : SymbolTable) : Prop where
  /-- All scopes but the module's own lie within the scope around them. -/
  scope : ∀ {i : Nat} {sc : Scope}, t.scope? i = some sc → i ≠ root →
    ∃ p, sc.parent? = some p ∧ t.Within p sc.span
  /-- Symbols lie within the scope that they are declared in. -/
  symbol : ∀ {id : Nat} {s : Symbol}, t.symbol? id = some s → t.Within s.scope s.span
  /-- The names of a scope stand for symbols that are declared in it. -/
  owned : ∀ {i : Nat} {sc : Scope}, t.scope? i = some sc → ∀ e ∈ sc.names,
    ∃ s, t.symbol? e.2 = some s ∧ s.scope = i

/-- The scopes stay as they are, but for what they hold. -/
def KeepsScopes (t t' : SymbolTable) : Prop :=
  ∀ i sc, t.scope? i = some sc →
    ∃ sc', t'.scope? i = some sc' ∧ sc'.span = sc.span ∧ sc'.parent? = sc.parent?

theorem KeepsScopes.refl (t : SymbolTable) : t.KeepsScopes t := fun _ _ h => ⟨_, h, rfl, rfl⟩

theorem KeepsScopes.trans (h : t.KeepsScopes t') (h' : t'.KeepsScopes t'') :
    t.KeepsScopes t'' := fun i sc hsc => by
  obtain ⟨sc', hsc', hspan, hparent⟩ := h i sc hsc
  obtain ⟨sc'', hsc'', hspan', hparent'⟩ := h' i sc' hsc'
  exact ⟨sc'', hsc'', hspan'.trans hspan, hparent'.trans hparent⟩

theorem Within.mono (h : t.Within scope span) (hkeeps : t.KeepsScopes t') :
    t'.Within scope span := by
  obtain ⟨sc, hsc, hcovers⟩ := h
  obtain ⟨sc', hsc', hspan, -⟩ := hkeeps scope sc hsc
  exact ⟨sc', hsc', hspan ▸ hcovers⟩

theorem Within.trans {inner : Span} (h : t.Within scope span) (hinner : span.containsSpan inner) :
    t.Within scope inner := by
  obtain ⟨sc, hsc, hcovers⟩ := h
  exact ⟨sc, hsc, Span.containsSpan_trans hcovers hinner⟩

/-! ## New tables -/

theorem scope?_new {moduleName : String} {i : Nat} {sc : Scope}
    (h : (new moduleName span).scope? i = some sc) :
    i = root ∧ sc = { id := root, kind := .module, span, parent? := none } := by
  cases i with
  | zero =>
    cases h
    exact ⟨rfl, rfl⟩
  | succ i => cases h

theorem placed_new (moduleName : String) (span : Span) : (new moduleName span).Placed where
  scope hsc hne := absurd (scope?_new hsc).1 hne
  symbol h := nomatch h
  owned hsc _ he := by
    rw [(scope?_new hsc).2] at he
    cases he

theorem within_new (moduleName : String) (span : Span) : (new moduleName span).Within root span :=
  ⟨_, rfl, Span.containsSpan_refl span⟩

/-! ## Entering and leaving scopes -/

theorem scope?_enter_new (t : SymbolTable) (kind : ScopeKind) (span : Span) :
    (t.enter kind span).scope? (t.enter kind span).current =
      some { id := t.scopes.size, kind, span, parent? := some t.current } := by
  unfold enter scope?
  dsimp only
  rw [Array.getElem?_push, if_pos Array.size_modify.symm]

/-- After a scope was entered there are that scope and the old ones. -/
theorem scope?_enter {kind : ScopeKind} {i : Nat} {sc : Scope}
    (h : (t.enter kind span).scope? i = some sc) :
    (i = t.scopes.size ∧ sc = { id := t.scopes.size, kind, span, parent? := some t.current }) ∨
    ∃ old, t.scope? i = some old ∧ sc.span = old.span ∧ sc.parent? = old.parent? ∧
      sc.names = old.names := by
  unfold enter scope? at h
  dsimp only at h
  rw [Array.getElem?_push, Array.size_modify, Array.getElem?_modify] at h
  split at h
  · next hi => exact .inl ⟨hi, (Option.some.inj h).symm⟩
  · split at h
    · obtain ⟨old, hold, rfl⟩ := Option.map_eq_some_iff.1 h
      exact .inr ⟨old, hold, rfl, rfl, rfl⟩
    · exact .inr ⟨sc, h, rfl, rfl, rfl⟩

theorem keepsScopes_enter (t : SymbolTable) (kind : ScopeKind) (span : Span) :
    t.KeepsScopes (t.enter kind span) := by
  intro i sc hsc
  obtain ⟨hlt, -⟩ := Array.getElem?_eq_some_iff.1 hsc
  unfold enter scope? at *
  dsimp only
  rw [Array.getElem?_push, Array.size_modify, if_neg (Nat.ne_of_lt hlt), Array.getElem?_modify, hsc]
  split <;> exact ⟨_, rfl, rfl, rfl⟩

/-- A scope may be entered that lies within the current one. -/
theorem Placed.enter (h : t.Placed) (kind : ScopeKind) (hspan : t.Within t.current span) :
    (t.enter kind span).Placed where
  scope {i sc} hsc hne := by
    obtain ⟨-, rfl⟩ | ⟨old, hold, hsame, hparent, -⟩ := scope?_enter hsc
    · exact ⟨t.current, rfl, hspan.mono (t.keepsScopes_enter kind span)⟩
    · obtain ⟨p, hp, hwithin⟩ := h.scope hold hne
      rw [hsame, hparent]
      exact ⟨p, hp, hwithin.mono (t.keepsScopes_enter kind span)⟩
  symbol hs := (h.symbol hs).mono (t.keepsScopes_enter kind span)
  owned {i sc} hsc e he := by
    obtain ⟨-, rfl⟩ | ⟨old, hold, -, -, hnames⟩ := scope?_enter hsc
    · cases he
    · exact h.owned hold e (hnames ▸ he)

/-- Leaving leads back to the scope around the current one. -/
theorem leave_of_parent {sc : Scope} (hsc : t.scope? t.current = some sc) {p : Nat}
    (hp : sc.parent? = some p) : t.leave = { t with current := p } := by
  unfold leave
  rw [hsc, Option.bind_some, hp]

/-! ## Declaring symbols -/

theorem keepsScopes_append (t : SymbolTable) (scope : Nat) (symbol : Symbol) :
    t.KeepsScopes (t.append scope symbol) := by
  intro i sc hsc
  unfold append scope? at *
  dsimp only
  rw [Array.getElem?_modify, hsc]
  split <;> exact ⟨_, rfl, rfl, rfl⟩

theorem keepsScopes_defineIn (h : t.defineIn scope symbol = .ok (id, t')) : t.KeepsScopes t' := by
  obtain ⟨-, -, rfl⟩ | ⟨_, -, -, -, -, -, rfl⟩ := defineIn_cases h
  · exact t.keepsScopes_append scope symbol
  · exact .refl t

/-- The names of scopes after a declaration are the old ones, and the new one in its scope. -/
theorem names_defineIn (h : t.defineIn scope symbol = .ok (id, t')) {i : Nat} {sc : Scope}
    (hsc : t'.scope? i = some sc) : ∃ old, t.scope? i = some old ∧ sc.span = old.span ∧
      sc.parent? = old.parent? ∧
      ∀ e ∈ sc.names, e ∈ old.names ∨ (e.2 = id ∧ i = scope) := by
  obtain ⟨-, rfl, rfl⟩ | ⟨_, -, -, -, -, -, rfl⟩ := defineIn_cases h
  · unfold append scope? at *
    dsimp only at hsc
    rw [Array.getElem?_modify] at hsc
    split at hsc
    · next hi =>
      obtain ⟨old, hold, rfl⟩ := Option.map_eq_some_iff.1 hsc
      refine ⟨old, hold, rfl, rfl, fun e he => ?_⟩
      rcases List.mem_cons.1 he with rfl | he
      · exact .inr ⟨rfl, hi.symm⟩
      · exact .inl he
    · exact ⟨sc, hsc, rfl, rfl, fun _ he => .inl he⟩
  · exact ⟨sc, hsc, rfl, rfl, fun _ he => .inl he⟩

/-- A symbol that takes the number of another one is declared in the scope of that one. -/
theorem Placed.scope_of_defineIn (h : t.Placed) (hdefine : t.defineIn scope symbol = .ok (id, t'))
    {s : Symbol} (hs : t.symbol? id = some s) : s.scope = scope := by
  obtain ⟨-, rfl, -⟩ | ⟨_, hdeclared, -, -, -, -, -⟩ := defineIn_cases hdefine
  · obtain ⟨hlt, -⟩ := Array.getElem?_eq_some_iff.1 hs
    exact absurd hlt (Nat.lt_irrefl _)
  · obtain ⟨sc, hsc, hfind⟩ := Option.bind_eq_some_iff.1 hdeclared
    obtain ⟨l, r, hnames, -⟩ := List.lookup_eq_some_iff.1 hfind
    obtain ⟨s', hs', hscope⟩ := h.owned hsc (symbol.name, id) (by
      rw [hnames]
      exact List.mem_append_right l List.mem_cons_self)
    rw [hs] at hs'
    cases hs'
    exact hscope

/-- A symbol may be declared that lies within its scope. -/
theorem Placed.defineIn (h : t.Placed) (hspan : t.Within scope symbol.span)
    (hdefine : t.defineIn scope symbol = .ok (id, t')) : t'.Placed where
  scope {i sc} hsc hne := by
    obtain ⟨old, hold, hsame, hparent, -⟩ := names_defineIn hdefine hsc
    obtain ⟨p, hp, hwithin⟩ := h.scope hold hne
    rw [hsame, hparent]
    exact ⟨p, hp, hwithin.mono (keepsScopes_defineIn hdefine)⟩
  symbol {i s} hs := by
    rw [symbol?_defineIn hdefine] at hs
    split at hs
    · cases hs
      exact hspan.mono (keepsScopes_defineIn hdefine)
    · exact (h.symbol hs).mono (keepsScopes_defineIn hdefine)
  owned {i sc} hsc e he := by
    obtain ⟨old, hold, -, -, hnames⟩ := names_defineIn hdefine hsc
    rw [symbol?_defineIn hdefine]
    rcases hnames e he with he | ⟨hid, rfl⟩
    · obtain ⟨s, hs, hscope⟩ := h.owned hold e he
      split
      · next hid => exact ⟨_, rfl, (h.scope_of_defineIn hdefine (hid ▸ hs)).symm.trans hscope⟩
      · exact ⟨s, hs, hscope⟩
    · rw [if_pos hid]
      exact ⟨_, rfl, rfl⟩

/-- Symbols may change in what is neither their place nor their scope. -/
theorem Placed.modifySymbol (h : t.Placed) (id : Nat) {f : Symbol → Symbol}
    (hspan : ∀ s, (f s).span = s.span) (hscope : ∀ s, (f s).scope = s.scope) :
    (t.modifySymbol id f).Placed where
  scope := h.scope
  symbol {i s} hs := by
    unfold SymbolTable.modifySymbol symbol? at hs
    dsimp only at hs
    rw [Array.getElem?_modify] at hs
    split at hs
    · obtain ⟨old, hold, rfl⟩ := Option.map_eq_some_iff.1 hs
      rw [hspan, hscope]
      exact h.symbol hold
    · exact h.symbol hs
  owned {i sc} hsc e he := by
    obtain ⟨s, hs, hin⟩ := h.owned hsc e he
    unfold SymbolTable.modifySymbol symbol? at *
    dsimp only
    rw [Array.getElem?_modify, hs]
    split
    · exact ⟨_, rfl, (hscope s).trans hin⟩
    · exact ⟨s, rfl, hin⟩

end SymbolTable

end SimFront
