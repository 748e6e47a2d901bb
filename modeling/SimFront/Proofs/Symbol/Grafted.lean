import Mathlib.Order.Monotone.Basic
import SimFront.Proofs.Symbol.Arenas
import SimFront.Proofs.Types.Avoids

/-!
# A table with more declarations than another

A graft is what a table has more than another: some names in one scope, symbols and scopes
of their own.  It moves the numbers of what comes later (`Graft`).  `Grafted g t u` says
that `u` is `t` with the graft `g`.  Names are looked up alike in both, where the graft
does not hide them (`Grafted.lookupId?`), and the operations on tables keep it so.
-/

namespace SimFront

namespace SymbolTable

variable {t t' t'' : SymbolTable} {i scope : Nat} {symbol : Symbol}

/-! ## Views of scopes -/

def kind? (t : SymbolTable) (scope : Nat) : Option ScopeKind := (t.scope? scope).map (·.kind)

def parent? (t : SymbolTable) (scope : Nat) : Option Nat := (t.scope? scope).bind (·.parent?)

/-- The names of a scope with what they stand for, latest first. -/
def namesOf (t : SymbolTable) (scope : Nat) : List (String × Nat) :=
  ((t.scope? scope).map (·.names)).getD []

theorem declared?_eq_lookup (t : SymbolTable) (scope : Nat) (name : String) :
    t.declared? scope name = List.lookup name (t.namesOf scope) := by
  unfold declared? namesOf
  cases t.scope? scope <;> rfl

theorem enclosing_eq (t : SymbolTable) (scope : Nat) : t.enclosing scope =
    scope :: match t.parent? scope with
      | some p => if p < scope then t.enclosing p else []
      | none => [] := by
  rw [enclosing]
  rfl

theorem self_mem_enclosing (t : SymbolTable) (scope : Nat) : scope ∈ t.enclosing scope := by
  rw [enclosing_eq]
  exact List.mem_cons_self

theorem le_of_mem_enclosing (h : i ∈ t.enclosing scope) : i ≤ scope := by
  induction scope using Nat.strongRecOn with
  | ind scope ih =>
    rw [enclosing_eq] at h
    rcases List.mem_cons.1 h with rfl | h
    · exact Nat.le_refl _
    · split at h
      · next p _ =>
        split at h
        · next hlt => exact Nat.le_trans (ih p hlt h) (Nat.le_of_lt hlt)
        · cases h
      · cases h

theorem lt_of_kind? {kind : ScopeKind} (h : t.kind? i = some kind) : i < t.scopes.size := by
  obtain ⟨sc, hsc, -⟩ := Option.map_eq_some_iff.1 h
  exact lt_of_scope? hsc

theorem kind?_enter (t : SymbolTable) (kind : ScopeKind) (span : Span) (i : Nat) :
    (t.enter kind span).kind? i = if i = t.scopes.size then some kind else t.kind? i := by
  unfold kind?
  rw [scope?_enter_eq]
  split
  · rfl
  · cases t.scope? i with
    | none => rfl
    | some sc =>
      simp only [Option.map_some]
      split <;> rfl

theorem parent?_enter (t : SymbolTable) (kind : ScopeKind) (span : Span) (i : Nat) :
    (t.enter kind span).parent? i =
      if i = t.scopes.size then some t.current else t.parent? i := by
  unfold parent?
  rw [scope?_enter_eq]
  split
  · rfl
  · cases t.scope? i with
    | none => rfl
    | some sc =>
      simp only [Option.map_some, Option.bind_some]
      split <;> rfl

theorem namesOf_enter (t : SymbolTable) (kind : ScopeKind) (span : Span) (i : Nat) :
    (t.enter kind span).namesOf i = t.namesOf i := by
  unfold namesOf
  rw [scope?_enter_eq]
  split
  · next hi =>
    subst hi
    rw [show t.scope? t.scopes.size = none from Array.getElem?_eq_none (Nat.le_refl _)]
    rfl
  · cases t.scope? i with
    | none => rfl
    | some sc =>
      simp only [Option.map_some]
      split <;> rfl

theorem scope?_append_eq (t : SymbolTable) (scope : Nat) (symbol : Symbol) (i : Nat) :
    (t.append scope symbol).scope? i = (t.scope? i).map fun sc =>
      if i = scope then { sc with names := (symbol.name, t.symbols.size) :: sc.names } else sc := by
  unfold append scope?
  dsimp only
  rw [Array.getElem?_modify]
  by_cases hi : scope = i
  · simp [hi]
  · simp [hi, Ne.symm hi]

theorem kind?_append (t : SymbolTable) (scope : Nat) (symbol : Symbol) (i : Nat) :
    (t.append scope symbol).kind? i = t.kind? i := by
  unfold kind?
  rw [scope?_append_eq, Option.map_map]
  congr 1
  funext sc
  dsimp only [Function.comp]
  split <;> rfl

theorem parent?_append (t : SymbolTable) (scope : Nat) (symbol : Symbol) (i : Nat) :
    (t.append scope symbol).parent? i = t.parent? i := by
  unfold parent?
  rw [scope?_append_eq]
  cases t.scope? i with
  | none => rfl
  | some sc =>
    simp only [Option.map_some, Option.bind_some]
    split <;> rfl

theorem namesOf_append (hscope : scope < t.scopes.size) (symbol : Symbol) (i : Nat) :
    (t.append scope symbol).namesOf i =
      if i = scope then (symbol.name, t.symbols.size) :: t.namesOf i else t.namesOf i := by
  unfold namesOf
  rw [scope?_append_eq]
  by_cases hi : i = scope
  · subst hi
    obtain ⟨sc, hsc⟩ := exists_scope? hscope
    rw [hsc]
    simp
  · simp only [if_neg hi]
    cases t.scope? i <;> rfl

theorem size_append (t : SymbolTable) (scope : Nat) (symbol : Symbol) :
    (t.append scope symbol).scopes.size = t.scopes.size := Array.size_modify

/-! ## Growing tables -/

/-- There are more symbols and scopes, and old scopes hang where they hung. -/
structure Extends (t t' : SymbolTable) : Prop where
  symbols : t.symbols.size ≤ t'.symbols.size
  scopes : t.scopes.size ≤ t'.scopes.size
  kind : ∀ {i kind}, t.kind? i = some kind → t'.kind? i = some kind
  parent : ∀ {i}, i < t.scopes.size → t'.parent? i = t.parent? i

theorem Extends.refl (t : SymbolTable) : t.Extends t :=
  ⟨Nat.le_refl _, Nat.le_refl _, fun h => h, fun _ => rfl⟩

theorem Extends.trans (h : t.Extends t') (h' : t'.Extends t'') : t.Extends t'' where
  symbols := Nat.le_trans h.symbols h'.symbols
  scopes := Nat.le_trans h.scopes h'.scopes
  kind hk := h'.kind (h.kind hk)
  parent hi := (h'.parent (Nat.lt_of_lt_of_le hi h.scopes)).trans (h.parent hi)

theorem extends_enter (t : SymbolTable) (kind : ScopeKind) (span : Span) :
    t.Extends (t.enter kind span) where
  symbols := Nat.le_refl _
  scopes := by
    rw [size_enter]
    exact Nat.le_succ _
  kind hk := by
    rw [kind?_enter, if_neg (Nat.ne_of_lt (lt_of_kind? hk))]
    exact hk
  parent hi := by rw [parent?_enter, if_neg (Nat.ne_of_lt hi)]

theorem extends_append (t : SymbolTable) (scope : Nat) (symbol : Symbol) :
    t.Extends (t.append scope symbol) where
  symbols := Nat.le_trans (Nat.le_succ _) (Nat.le_of_eq (Array.size_push _).symm)
  scopes := Nat.le_of_eq (size_append t scope symbol).symm
  kind hk := by
    rw [kind?_append]
    exact hk
  parent _ := parent?_append t scope symbol _

/-- With the same scopes, and no symbol less. -/
theorem Extends.of_scopes (hscopes : t'.scopes = t.scopes)
    (hsymbols : t.symbols.size ≤ t'.symbols.size) : t.Extends t' where
  symbols := hsymbols
  scopes := Nat.le_of_eq (congrArg Array.size hscopes).symm
  kind hk := by
    unfold kind? scope? at *
    rw [hscopes]
    exact hk
  parent _ := by
    unfold parent? scope?
    rw [hscopes]

theorem extends_modifySymbol (t : SymbolTable) (id : Nat) (f : Symbol → Symbol) :
    t.Extends (t.modifySymbol id f) :=
  .of_scopes rfl (Nat.le_of_eq Array.size_modify.symm)

theorem extends_defineIn {id : Nat} (h : t.defineIn scope symbol = .ok (id, t')) :
    t.Extends t' := by
  obtain ⟨-, -, rfl⟩ | ⟨_, -, -, -, -, -, rfl⟩ := defineIn_cases h
  · exact t.extends_append scope symbol
  · exact .of_scopes rfl (Nat.le_of_eq Array.size_setIfInBounds.symm)

/-- The scopes around a scope are the same ones where scopes up to it hang alike. -/
theorem enclosing_congr (h : ∀ j ≤ i, t'.parent? j = t.parent? j) :
    t'.enclosing i = t.enclosing i := by
  induction i using Nat.strongRecOn with
  | ind i ih =>
    rw [enclosing_eq, enclosing_eq, h i (Nat.le_refl i)]
    congr 1
    split
    · next p _ =>
      split
      · next hlt => exact ih p hlt fun j hj => h j (Nat.le_trans hj (Nat.le_of_lt hlt))
      · rfl
    · rfl

theorem Extends.enclosing (h : t.Extends t') (hi : i < t.scopes.size) :
    t'.enclosing i = t.enclosing i :=
  enclosing_congr fun _ hj => h.parent (Nat.lt_of_le_of_lt hj hi)

theorem mem_enclosing_of_scopes (hi : i ∈ t'.enclosing scope) (h : t'.scopes = t.scopes) :
    i ∈ t.enclosing scope := by
  rwa [enclosing_congr (t := t) fun j _ => by
    unfold parent? scope?
    rw [h]] at hi

/-- A step that leaves the scopes where they are and comes back to the current one. -/
structure Returns (t t' : SymbolTable) : Prop extends t.Extends t' where
  current : t'.current = t.current

theorem Returns.refl (t : SymbolTable) : t.Returns t := ⟨.refl t, rfl⟩

theorem Returns.trans (h : t.Returns t') (h' : t'.Returns t'') : t.Returns t'' :=
  ⟨h.toExtends.trans h'.toExtends, h'.current.trans h.current⟩

theorem leave_of_parent? {p : Nat} (h : t.parent? t.current = some p) :
    t.leave = { t with current := p } := by
  obtain ⟨sc, hsc, hp⟩ := Option.bind_eq_some_iff.1 h
  exact leave_of_parent hsc hp

theorem extends_leave (t : SymbolTable) : t.Extends t.leave := by
  obtain ⟨scope, hleave⟩ := t.leave_eq
  rw [hleave]
  exact .of_scopes rfl (Nat.le_refl _)

/-- After a step in a new scope the scope around is the one from before. -/
theorem parent?_of_returns {kind : ScopeKind} {span : Span} (h : (t.enter kind span).Returns t') :
    t'.parent? t'.current = some t.current := by
  rw [h.current]
  show t'.parent? t.scopes.size = _
  rw [h.parent (by rw [size_enter]; exact Nat.lt_succ_self _), parent?_enter, if_pos rfl]

/-- A scope that was entered is left again. -/
theorem returns_leave {kind : ScopeKind} {span : Span} (h : (t.enter kind span).Returns t') :
    t.Returns t'.leave := by
  obtain ⟨hsymbols, hscopes, hkind, hparents⟩ :=
    (t.extends_enter kind span).trans h.toExtends
  rw [leave_of_parent? (parent?_of_returns h)]
  exact ⟨⟨hsymbols, hscopes, hkind, hparents⟩, rfl⟩

end SymbolTable

/-! ## Grafts -/

/-- What a table has more than another, and how numbers go over into those of the larger
one. -/
structure Graft where
  /-- The names that are brought in. -/
  names : List String
  /-- Where reports on the graft may stand. -/
  place : Span → Prop
  symbol : Nat → Nat
  scope : Nat → Nat
  /-- The scope of the larger table that declares the names, once there is one. -/
  home? : Option Nat
  /-- Whether the current scope lies within that scope. -/
  inside : Bool
  symbol_mono : StrictMono symbol
  scope_mono : StrictMono scope
  scope_root : scope SymbolTable.root = SymbolTable.root
  home_ne_root : home? ≠ some SymbolTable.root
  empty_notMem : "" ∉ names

namespace Graft

variable {g : Graft}

/-- A scope declares the name in the larger table alone. -/
def Adds (g : Graft) (scope : Nat) (name : String) : Prop := g.home? = some scope ∧ name ∈ g.names

/-- The name means the same in the current scope of both tables. -/
def Plain (g : Graft) (name : String) : Prop := g.inside = true → name ∉ g.names

/-- A number of the larger table that the smaller one has nothing for. -/
def NewSymbol (g : Graft) (id : Nat) : Prop := ∀ i, g.symbol i ≠ id

def NewScope (g : Graft) (scope : Nat) : Prop := ∀ i, g.scope i ≠ scope

/-- A symbol as it stands in the larger table. -/
def move (g : Graft) (s : Symbol) : Symbol := { s with scope := g.scope s.scope }

theorem scope_inj {i j : Nat} : g.scope i = g.scope j ↔ i = j := g.scope_mono.injective.eq_iff

theorem symbol_inj {i j : Nat} : g.symbol i = g.symbol j ↔ i = j :=
  g.symbol_mono.injective.eq_iff

theorem not_adds_of_fresh {scope : Nat} {name : String} (h : name ∉ g.names) :
    ¬ g.Adds scope name := fun hadds => h hadds.2

theorem plain_of_fresh {name : String} (h : name ∉ g.names) : g.Plain name := fun _ => h

end Graft

namespace SymbolTable

/-- The table `u` is `t` with a graft. -/
structure Grafted (g : Graft) (t u : SymbolTable) : Prop where
  nextSymbol : ∀ j, g.symbol (t.symbols.size + j) = u.symbols.size + j
  nextScope : ∀ j, g.scope (t.scopes.size + j) = u.scopes.size + j
  symbol : ∀ id, u.symbol? (g.symbol id) = (t.symbol? id).map g.move
  kind : ∀ i, u.kind? (g.scope i) = t.kind? i
  parent : ∀ i, u.parent? (g.scope i) = (t.parent? i).map g.scope
  declared : ∀ i name, ¬ g.Adds (g.scope i) name →
    u.declared? (g.scope i) name = (t.declared? i name).map g.symbol
  /-- A name of the larger table stands for what it stands for in the other, or for something
  new. -/
  names : ∀ i, ∀ e ∈ u.namesOf i,
    (∃ j id, i = g.scope j ∧ e.2 = g.symbol id ∧ (e.1, id) ∈ t.namesOf j) ∨ g.NewSymbol e.2
  added : ∀ {id s}, g.NewSymbol id → u.symbol? id = some s →
    g.place s.span ∧ s.kind ≠ .var ∧ s.kind ≠ .parameter
  current : u.current = g.scope t.current
  current_lt : t.current < t.scopes.size
  home : ∀ {i}, g.home? = some i → i < u.scopes.size ∧ u.kind? i ≠ some .object
  outside : g.inside = false → ∀ i ∈ t.enclosing t.current, g.home? ≠ some (g.scope i)
  /-- The scope that declares the names of the graft declares none of them without it. -/
  clear : ∀ {i}, ∀ e ∈ t.namesOf i, ¬ g.Adds (g.scope i) e.1
  count : ∀ id, t.referenceCount id ≤ u.referenceCount (g.symbol id)
  /-- No type of the smaller table mentions a name of the graft. -/
  types : ∀ {id s}, t.symbol? id = some s → s.type.Avoids g.names
  /-- No type of the module's own has a name of the graft. -/
  own : ∀ {id s}, t.symbol? id = some s → s.kind = .type → s.origin? = none → s.name ∉ g.names
  named : ∀ {i}, ∀ e ∈ t.namesOf i, ∃ s, t.symbol? e.2 = some s ∧ s.name = e.1

namespace Grafted

variable {g : Graft} {t u : SymbolTable} {i id scope : Nat} {name : String} {symbol : Symbol}

/-! ## Looking names up -/

theorem size_eq (h : Grafted g t u) : g.symbol t.symbols.size = u.symbols.size := h.nextSymbol 0

theorem scopes_eq (h : Grafted g t u) : g.scope t.scopes.size = u.scopes.size := h.nextScope 0

theorem scope_eq_size (h : Grafted g t u) : g.scope i = u.scopes.size ↔ i = t.scopes.size := by
  rw [← h.scopes_eq]
  exact Graft.scope_inj

theorem symbol_eq_size (h : Grafted g t u) : g.symbol i = u.symbols.size ↔ i = t.symbols.size := by
  rw [← h.size_eq]
  exact Graft.symbol_inj

theorem enclosing (h : Grafted g t u) (i : Nat) :
    u.enclosing (g.scope i) = (t.enclosing i).map g.scope := by
  induction i using Nat.strongRecOn with
  | ind i ih =>
    rw [enclosing_eq, enclosing_eq, h.parent, List.map_cons]
    congr 1
    cases t.parent? i with
    | none => rfl
    | some p =>
      simp only [Option.map_some]
      by_cases hlt : p < i
      · rw [if_pos hlt, if_pos (g.scope_mono hlt), ih p hlt]
      · rw [if_neg hlt, if_neg fun hgt => hlt (g.scope_mono.lt_iff_lt.1 hgt)]
        rfl

/-- A name that the graft hides nowhere around a scope is looked up alike from there. -/
theorem lookupFrom?_of (h : Grafted g t u) (hname : ∀ j ∈ t.enclosing i, ¬ g.Adds (g.scope j) name) :
    u.lookupFrom? (g.scope i) name = (t.lookupFrom? i name).map g.symbol := by
  have walk (scopes : List Nat) (hscopes : ∀ j ∈ scopes, ¬ g.Adds (g.scope j) name) :
      (scopes.map g.scope).findSome? (u.declared? · name) =
        (scopes.findSome? (t.declared? · name)).map g.symbol := by
    induction scopes with
    | nil => rfl
    | cons j scopes ih =>
      rw [List.map_cons, List.findSome?_cons, List.findSome?_cons,
        h.declared j name (hscopes j List.mem_cons_self)]
      cases t.declared? j name with
      | none => exact ih fun k hk => hscopes k (List.mem_cons_of_mem _ hk)
      | some id => rfl
  unfold lookupFrom?
  rw [h.enclosing]
  exact walk _ hname

theorem lookupFrom?_fresh (h : Grafted g t u) (hname : name ∉ g.names) (i : Nat) :
    u.lookupFrom? (g.scope i) name = (t.lookupFrom? i name).map g.symbol :=
  h.lookupFrom?_of fun _ _ => Graft.not_adds_of_fresh hname

theorem lookupFrom?_root (h : Grafted g t u) (name : String) :
    u.lookupFrom? root name = (t.lookupFrom? root name).map g.symbol := by
  rw [SymbolTable.lookupFrom?_root, SymbolTable.lookupFrom?_root]
  have hroot := h.declared root name fun hadds => g.home_ne_root (by rw [← g.scope_root]; exact hadds.1)
  rwa [g.scope_root] at hroot

theorem not_adds_current (h : Grafted g t u) (hname : g.Plain name) :
    ∀ j ∈ t.enclosing t.current, ¬ g.Adds (g.scope j) name := by
  intro j hj hadds
  cases hinside : g.inside with
  | false => exact h.outside hinside j hj hadds.1
  | true => exact hname hinside hadds.2

/-- A name that means the same in the current scopes is looked up alike. -/
theorem lookupId? (h : Grafted g t u) (hname : g.Plain name) :
    u.lookupId? name = (t.lookupId? name).map g.symbol := by
  unfold SymbolTable.lookupId?
  rw [h.current]
  exact h.lookupFrom?_of (h.not_adds_current hname)

theorem declared?_current (h : Grafted g t u) (hname : g.Plain name) :
    u.declared? u.current name = (t.declared? t.current name).map g.symbol := by
  rw [h.current]
  exact h.declared _ _ (h.not_adds_current hname _ (t.self_mem_enclosing t.current))

theorem current_lt' (h : Grafted g t u) : u.current < u.scopes.size := by
  rw [h.current, ← h.scopes_eq]
  exact g.scope_mono h.current_lt

/-- What a scope declares under a name has the name. -/
theorem name_of_declares (h : Grafted g t u) (hdeclares : t.Declares name id) :
    ∃ s, t.symbol? id = some s ∧ s.name = name := by
  obtain ⟨scope, hscope⟩ := hdeclares
  rw [declared?_eq_lookup] at hscope
  obtain ⟨l, r, hnames, -⟩ := List.lookup_eq_some_iff.1 hscope
  refine h.named (i := scope) (name, id) ?_
  rw [hnames]
  exact List.mem_append_right l List.mem_cons_self

end Grafted

end SymbolTable

end SimFront
