import Mathlib.Data.List.Induction
import SimFront.Proofs.Symbol.Placed

/-!
# The arenas of a symbol table stay consistent

A client builds a table by entering and leaving scopes, declaring symbols and recording
uses, in any order (`TableEdit`).  Scopes and symbols are held in two arenas and know each
other by number; what the numbers say of each other is `Consistent`.  Each edit keeps it
(`Consistent.perform`), so every run of edits leaves it (`arenas_after`), together with an
index of uses that gives for each symbol just what the run recorded for it.
-/

namespace SimFront

/-! ## The index of uses -/

theorem filterMap_placesAmong (entries : Array Reference) (symbol : Nat) :
    (placesAmong entries symbol).filterMap (entries[·]?) =
      entries.toList.filter (·.symbol = symbol) := by
  obtain ⟨rs⟩ := entries
  induction rs using List.reverseRecOn with
  | nil => rfl
  | append_singleton rs r ih =>
    have hpush : (⟨rs ++ [r]⟩ : Array Reference) = (⟨rs⟩ : Array Reference).push r := by simp
    have hold : (placesAmong ⟨rs⟩ symbol).filterMap (((⟨rs⟩ : Array Reference).push r)[·]?) =
        rs.filter (·.symbol = symbol) := by
      rw [← ih]
      apply List.filterMap_congr
      intro i hi
      have hlt : i < (⟨rs⟩ : Array Reference).size :=
        List.mem_range.1 (List.mem_filter.1 hi).1
      rw [Array.getElem?_push, if_neg (Nat.ne_of_lt hlt)]
    rw [hpush, placesAmong_push, List.filterMap_append, hold, Array.toList_push, List.filter_append]
    by_cases h : r.symbol = symbol <;> simp [h]

namespace References

/-- The uses of a symbol are those recorded for it, in the order of recording. -/
theorem of_eq (rs : References) (symbol : Nat) :
    rs.of symbol = rs.entries.toList.filter (·.symbol = symbol) := by
  unfold of
  rw [rs.indexed, filterMap_placesAmong]

/-- Every place in the index is one of the entries, so counting places counts uses. -/
theorem count_eq (rs : References) (symbol : Nat) : rs.count symbol = (rs.of symbol).length := by
  have hplace : ∀ i ∈ rs.places.of symbol, (rs.entries[i]?).isSome := by
    intro i hi
    rw [rs.indexed] at hi
    have hlt := List.mem_range.1 (List.mem_filter.1 hi).1
    simp [hlt]
  unfold count of
  generalize rs.places.of symbol = places at hplace
  induction places with
  | nil => rfl
  | cons i rest ih =>
    obtain ⟨r, hr⟩ := Option.isSome_iff_exists.1 (hplace i List.mem_cons_self)
    rw [List.filterMap_cons_some hr, List.length_cons, List.length_cons,
      ih fun j hj => hplace j (List.mem_cons_of_mem i hj)]

end References

/-! ## Edits -/

/-- What a client asks of a symbol table. -/
inductive TableEdit where
  | enter (kind : ScopeKind) (span : Span)
  | leave
  | define (symbol : Symbol)
  | defineIn (scope : Nat) (symbol : Symbol)
  | refer (symbol : Nat) (span : Span)

namespace SymbolTable

variable {t t' : SymbolTable} {scope id i : Nat} {symbol : Symbol} {sc : Scope} {span : Span}

/-- The table after a declaration, which may be refused. -/
def tryDefineIn (t : SymbolTable) (scope : Nat) (symbol : Symbol) : SymbolTable :=
  match t.defineIn scope symbol with
  | .ok (_, t') => t'
  | .error _ => t

def perform (t : SymbolTable) : TableEdit → SymbolTable
  | .enter kind span => t.enter kind span
  | .leave => t.leave
  | .define symbol => t.tryDefineIn t.current symbol
  | .defineIn scope symbol => t.tryDefineIn scope symbol
  | .refer symbol span => t.refer symbol span

/-- The table that a run of edits comes to. -/
def edited (t : SymbolTable) (edits : List TableEdit) : SymbolTable := edits.foldl perform t

/-- Declarations go to scopes that are there. -/
def Allows (t : SymbolTable) : TableEdit → Prop
  | .defineIn scope _ => scope < t.scopes.size
  | _ => True

/-- Each edit of a run is allowed where it comes. -/
def AllowsAll (t : SymbolTable) : List TableEdit → Prop
  | [] => True
  | e :: rest => t.Allows e ∧ (t.perform e).AllowsAll rest

instance (t : SymbolTable) : (e : TableEdit) → Decidable (t.Allows e)
  | .defineIn scope _ => inferInstanceAs (Decidable (scope < t.scopes.size))
  | .enter _ _ | .leave | .define _ | .refer _ _ => .isTrue trivial

instance decidableAllowsAll : (t : SymbolTable) → (edits : List TableEdit) →
    Decidable (t.AllowsAll edits)
  | _, [] => .isTrue trivial
  | t, e :: rest =>
    have := decidableAllowsAll (t.perform e) rest
    inferInstanceAs (Decidable (t.Allows e ∧ (t.perform e).AllowsAll rest))

/-- The uses that a run records, in order, each in the scope that is current then. -/
def recorded (t : SymbolTable) : List TableEdit → List Reference
  | [] => []
  | e :: rest =>
    match e with
    | .refer symbol span => ⟨symbol, span, t.current⟩ :: (t.perform e).recorded rest
    | _ => (t.perform e).recorded rest

/-! ## The invariant -/

/-- What the numbers of scopes and symbols say of each other. -/
structure Consistent (t : SymbolTable) : Prop where
  current : t.current < t.scopes.size
  /-- A scope knows its own number. -/
  id : ∀ {i sc}, t.scope? i = some sc → sc.id = i
  /-- Only the module's own scope has no scope around it. -/
  top : ∀ {i sc}, t.scope? i = some sc → (sc.parent? = none ↔ i = root)
  /-- The scope around a scope is older and has it as a child, once. -/
  parent : ∀ {i sc p}, t.scope? i = some sc → sc.parent? = some p →
    p < i ∧ (t.children p).count i = 1
  /-- Children are scopes that are there. -/
  child : ∀ {i sc}, t.scope? i = some sc → ∀ c ∈ sc.children, c < t.scopes.size
  /-- A name of a scope stands for a symbol of that name, declared in that scope. -/
  named : ∀ {i sc}, t.scope? i = some sc → ∀ e ∈ sc.names,
    ∃ s, t.symbol? e.2 = some s ∧ s.name = e.1 ∧ s.scope = i
  /-- A scope has a name once. -/
  distinct : ∀ {i sc}, t.scope? i = some sc → (sc.names.map (·.1)).Nodup
  /-- Every symbol is what its name stands for in its scope. -/
  listed : ∀ {id s}, t.symbol? id = some s → t.declared? s.scope s.name = some id

theorem lt_of_scope? (h : t.scope? i = some sc) : i < t.scopes.size :=
  (Array.getElem?_eq_some_iff.1 h).1

theorem exists_scope? (h : i < t.scopes.size) : ∃ sc, t.scope? i = some sc :=
  ⟨t.scopes[i], Array.getElem?_eq_getElem h⟩

theorem children_of (h : t.scope? i = some sc) : t.children i = sc.children := by
  unfold children
  rw [h]

theorem declared?_of (h : t.scope? i = some sc) (name : String) :
    t.declared? i name = List.lookup name sc.names := by
  unfold declared?
  rw [h]
  rfl

/-- A name of a scope that is looked up is one of its names. -/
theorem mem_names_of_declared? {name : String} (h : t.declared? i name = some id) :
    ∃ sc, t.scope? i = some sc ∧ (name, id) ∈ sc.names := by
  obtain ⟨sc, hsc, hfind⟩ := Option.bind_eq_some_iff.1 h
  obtain ⟨l, r, hnames, -⟩ := List.lookup_eq_some_iff.1 hfind
  refine ⟨sc, hsc, ?_⟩
  rw [hnames]
  exact List.mem_append_right l List.mem_cons_self

/-- In exactly one scope and under exactly one name a symbol is declared. -/
theorem Consistent.existsUnique_declared? (h : t.Consistent) (hid : id < t.symbols.size) :
    ∃! place : Nat × String, t.declared? place.1 place.2 = some id := by
  have hs : t.symbol? id = some t.symbols[id] := Array.getElem?_eq_getElem hid
  refine ⟨(t.symbols[id].scope, t.symbols[id].name), h.listed hs, ?_⟩
  rintro ⟨i, name⟩ hplace
  obtain ⟨sc, hsc, hmem⟩ := mem_names_of_declared? hplace
  obtain ⟨s, hs', hname, hscope⟩ := h.named hsc _ hmem
  rw [hs] at hs'
  cases hs'
  exact Prod.ext hscope.symm hname.symm

/-! ## New tables -/

theorem consistent_new (moduleName : String) (span : Span) :
    (new moduleName span).Consistent where
  current := Nat.zero_lt_one
  id h := by
    obtain ⟨rfl, rfl⟩ := scope?_new h
    rfl
  top h := by
    obtain ⟨rfl, rfl⟩ := scope?_new h
    simp
  parent h hp := by
    obtain ⟨rfl, rfl⟩ := scope?_new h
    cases hp
  child h c hc := by
    obtain ⟨rfl, rfl⟩ := scope?_new h
    cases hc
  named h e he := by
    obtain ⟨rfl, rfl⟩ := scope?_new h
    cases he
  distinct h := by
    obtain ⟨rfl, rfl⟩ := scope?_new h
    exact List.nodup_nil
  listed h := nomatch h

/-! ## Entering and leaving -/

theorem size_enter (t : SymbolTable) (kind : ScopeKind) (span : Span) :
    (t.enter kind span).scopes.size = t.scopes.size + 1 := by
  unfold enter
  dsimp only
  rw [Array.size_push, Array.size_modify]

/-- After a scope was entered, the scopes are the new one and the old ones, of which the
current one has got a child. -/
theorem scope?_enter_eq (t : SymbolTable) (kind : ScopeKind) (span : Span) (i : Nat) :
    (t.enter kind span).scope? i =
      if i = t.scopes.size then
        some { id := t.scopes.size, kind, span, parent? := some t.current }
      else (t.scope? i).map fun sc =>
        if i = t.current then { sc with children := sc.children ++ [t.scopes.size] } else sc := by
  unfold enter scope?
  dsimp only
  rw [Array.getElem?_push, Array.size_modify, Array.getElem?_modify]
  by_cases hi : i = t.scopes.size
  · simp [hi]
  · rw [if_neg hi, if_neg hi]
    by_cases hc : t.current = i
    · rw [if_pos hc]
      simp [hc.symm]
    · rw [if_neg hc]
      simp [Ne.symm hc]

/-- An old scope is as it was before a scope was entered, but for the new child. -/
theorem scope?_enter_old {kind : ScopeKind} (hi : i ≠ t.scopes.size)
    (h : (t.enter kind span).scope? i = some sc) :
    ∃ old, t.scope? i = some old ∧ sc.id = old.id ∧ sc.parent? = old.parent? ∧
      sc.names = old.names ∧
      sc.children = if i = t.current then old.children ++ [t.scopes.size] else old.children := by
  rw [scope?_enter_eq, if_neg hi] at h
  obtain ⟨old, hold, rfl⟩ := Option.map_eq_some_iff.1 h
  refine ⟨old, hold, ?_⟩
  split <;> exact ⟨rfl, rfl, rfl, rfl⟩

theorem declared?_enter {kind : ScopeKind} (hi : i ≠ t.scopes.size) (name : String) :
    (t.enter kind span).declared? i name = t.declared? i name := by
  unfold declared?
  rw [scope?_enter_eq, if_neg hi]
  cases t.scope? i with
  | none => rfl
  | some sc =>
    simp only [Option.map_some, Option.bind_some]
    split <;> rfl

theorem children_enter {kind : ScopeKind} {p : Nat} (hp : p < t.scopes.size) :
    (t.enter kind span).children p =
      if p = t.current then t.children p ++ [t.scopes.size] else t.children p := by
  obtain ⟨sc, hsc⟩ := exists_scope? hp
  unfold children
  rw [scope?_enter_eq, if_neg (Nat.ne_of_lt hp), hsc]
  simp only [Option.map_some]
  split <;> rfl

theorem Consistent.enter (h : t.Consistent) (kind : ScopeKind) (span : Span) :
    (t.enter kind span).Consistent := by
  have hnew := t.scope?_enter_eq kind span t.scopes.size
  rw [if_pos rfl] at hnew
  refine ⟨?_, ?_, ?_, ?_, ?_, ?_, ?_, ?_⟩
  · rw [size_enter]
    exact Nat.lt_succ_self _
  · intro i sc hsc
    by_cases hi : i = t.scopes.size
    · subst hi
      rw [hnew] at hsc
      cases hsc
      rfl
    · obtain ⟨old, hold, hid, -⟩ := scope?_enter_old hi hsc
      rw [hid]
      exact h.id hold
  · intro i sc hsc
    by_cases hi : i = t.scopes.size
    · subst hi
      rw [hnew] at hsc
      cases hsc
      have hpos := h.current
      constructor
      · intro hnone
        cases hnone
      · intro hroot
        unfold root at hroot
        omega
    · obtain ⟨old, hold, -, hparent, -⟩ := scope?_enter_old hi hsc
      rw [hparent]
      exact h.top hold
  · intro i sc p hsc hp
    by_cases hi : i = t.scopes.size
    · subst hi
      rw [hnew] at hsc
      cases hsc
      cases hp
      have hfresh : t.scopes.size ∉ t.children t.current := by
        intro hmem
        obtain ⟨sc, hsc⟩ := exists_scope? h.current
        rw [children_of hsc] at hmem
        exact absurd (h.child hsc _ hmem) (Nat.lt_irrefl _)
      rw [children_enter h.current, if_pos rfl, List.count_append,
        List.count_eq_zero_of_not_mem hfresh]
      exact ⟨h.current, by simp⟩
    · obtain ⟨old, hold, -, hparent, -⟩ := scope?_enter_old hi hsc
      obtain ⟨hlt, hcount⟩ := h.parent hold (hparent ▸ hp)
      have := lt_of_scope? hold
      refine ⟨hlt, ?_⟩
      rw [children_enter (by omega)]
      split
      · rw [List.count_append, hcount, List.count_singleton]
        simp [Ne.symm hi]
      · exact hcount
  · intro i sc hsc c hc
    rw [size_enter]
    by_cases hi : i = t.scopes.size
    · subst hi
      rw [hnew] at hsc
      cases hsc
      cases hc
    · obtain ⟨old, hold, -, -, -, hchildren⟩ := scope?_enter_old hi hsc
      rw [hchildren] at hc
      split at hc
      · rcases List.mem_append.1 hc with hc | hc
        · exact Nat.lt_succ_of_lt (h.child hold c hc)
        · rw [List.mem_singleton.1 hc]
          exact Nat.lt_succ_self _
      · exact Nat.lt_succ_of_lt (h.child hold c hc)
  · intro i sc hsc e he
    by_cases hi : i = t.scopes.size
    · subst hi
      rw [hnew] at hsc
      cases hsc
      cases he
    · obtain ⟨old, hold, -, -, hnames, -⟩ := scope?_enter_old hi hsc
      exact h.named hold e (hnames ▸ he)
  · intro i sc hsc
    by_cases hi : i = t.scopes.size
    · subst hi
      rw [hnew] at hsc
      cases hsc
      exact List.nodup_nil
    · obtain ⟨old, hold, -, -, hnames, -⟩ := scope?_enter_old hi hsc
      rw [hnames]
      exact h.distinct hold
  · intro id s hs
    have hdeclared := h.listed hs
    obtain ⟨sc, hsc, -⟩ := mem_names_of_declared? hdeclared
    have hlt := lt_of_scope? hsc
    rw [declared?_enter (Nat.ne_of_lt hlt)]
    exact hdeclared

/-- Another scope may be made current. -/
theorem Consistent.goTo (h : t.Consistent) (hscope : scope < t.scopes.size) :
    Consistent { t with current := scope } :=
  ⟨hscope, h.id, h.top, h.parent, h.child, h.named, h.distinct, h.listed⟩

theorem Consistent.leave (h : t.Consistent) : t.leave.Consistent := by
  obtain ⟨sc, hsc⟩ := exists_scope? h.current
  cases hp : sc.parent? with
  | none =>
    unfold SymbolTable.leave
    rw [hsc, Option.bind_some, hp]
    exact h
  | some p =>
    have := (h.parent hsc hp).1
    have := h.current
    rw [leave_of_parent hsc hp]
    exact h.goTo (by omega)

/-! ## Declaring -/

/-- A scope after a declaration is as it was, but that a new symbol has its name there. -/
theorem scope?_defineIn (h : t.defineIn scope symbol = .ok (id, t')) (hsc : t'.scope? i = some sc) :
    ∃ old, t.scope? i = some old ∧ sc.id = old.id ∧ sc.parent? = old.parent? ∧
      sc.children = old.children ∧
      (sc.names = old.names ∨
        i = scope ∧ List.lookup symbol.name old.names = none ∧
          sc.names = (symbol.name, id) :: old.names) := by
  obtain ⟨hnew, rfl, rfl⟩ | ⟨_, -, -, -, -, -, rfl⟩ := defineIn_cases h
  · unfold append scope? at hsc
    dsimp only at hsc
    rw [Array.getElem?_modify] at hsc
    split at hsc
    · next hi =>
      subst hi
      obtain ⟨old, hold, rfl⟩ := Option.map_eq_some_iff.1 hsc
      refine ⟨old, hold, rfl, rfl, rfl, .inr ⟨rfl, ?_, rfl⟩⟩
      rw [← declared?_of hold]
      exact hnew
    · exact ⟨sc, hsc, rfl, rfl, rfl, .inl rfl⟩
  · exact ⟨sc, hsc, rfl, rfl, rfl, .inl rfl⟩

theorem children_defineIn (h : t.defineIn scope symbol = .ok (id, t')) (p : Nat) :
    t'.children p = t.children p := by
  obtain ⟨-, rfl, rfl⟩ | ⟨_, -, -, -, -, -, rfl⟩ := defineIn_cases h
  · unfold children append scope?
    dsimp only
    rw [Array.getElem?_modify]
    by_cases hp : scope = p
    · rw [if_pos hp]
      cases t.scopes[p]? <;> rfl
    · rw [if_neg hp]
  · rfl

theorem declared?_defineIn_of_ne (h : t.defineIn scope symbol = .ok (id, t')) (hi : i ≠ scope)
    (name : String) : t'.declared? i name = t.declared? i name := by
  obtain ⟨-, rfl, rfl⟩ | ⟨_, -, -, -, -, -, rfl⟩ := defineIn_cases h
  · unfold declared? append scope?
    dsimp only
    rw [Array.getElem?_modify, if_neg hi.symm]
  · rfl

/-- The symbol that takes a number after a declaration has the name and the scope of the one
that had it, if there was one. -/
theorem Consistent.completed (h : t.Consistent) (hdefine : t.defineIn scope symbol = .ok (id, t'))
    {s : Symbol} (hs : t.symbol? id = some s) : s.name = symbol.name ∧ s.scope = scope := by
  obtain ⟨-, rfl, -⟩ | ⟨_, hdeclared, -, -, -, -, -⟩ := defineIn_cases hdefine
  · exact absurd (Array.getElem?_eq_some_iff.1 hs).1 (Nat.lt_irrefl _)
  · obtain ⟨sc, hsc, hmem⟩ := mem_names_of_declared? hdeclared
    obtain ⟨s', hs', hname, hscope⟩ := h.named hsc _ hmem
    rw [hs] at hs'
    cases hs'
    exact ⟨hname, hscope⟩

theorem Consistent.defineIn (h : t.Consistent) (hscope : scope < t.scopes.size)
    (hdefine : t.defineIn scope symbol = .ok (id, t')) : t'.Consistent := by
  refine ⟨?_, ?_, ?_, ?_, ?_, ?_, ?_, ?_⟩
  · rw [current_defineIn hdefine, size_scopes_defineIn hdefine]
    exact h.current
  · intro i sc hsc
    obtain ⟨old, hold, hid, -⟩ := scope?_defineIn hdefine hsc
    rw [hid]
    exact h.id hold
  · intro i sc hsc
    obtain ⟨old, hold, -, hparent, -⟩ := scope?_defineIn hdefine hsc
    rw [hparent]
    exact h.top hold
  · intro i sc p hsc hp
    obtain ⟨old, hold, -, hparent, -⟩ := scope?_defineIn hdefine hsc
    rw [children_defineIn hdefine]
    exact h.parent hold (hparent ▸ hp)
  · intro i sc hsc c hc
    obtain ⟨old, hold, -, -, hchildren, -⟩ := scope?_defineIn hdefine hsc
    rw [size_scopes_defineIn hdefine]
    exact h.child hold c (hchildren ▸ hc)
  · intro i sc hsc e he
    obtain ⟨old, hold, -, -, -, hnames⟩ := scope?_defineIn hdefine hsc
    have hkept (he : e ∈ old.names) : ∃ s, t'.symbol? e.2 = some s ∧ s.name = e.1 ∧ s.scope = i := by
      obtain ⟨s, hs, hname, hin⟩ := h.named hold e he
      rw [symbol?_defineIn hdefine]
      by_cases hid : e.2 = id
      · obtain ⟨hsame, hwhere⟩ := h.completed hdefine (hid ▸ hs)
        rw [if_pos hid]
        exact ⟨_, rfl, hsame.symm.trans hname, hwhere.symm.trans hin⟩
      · rw [if_neg hid]
        exact ⟨s, hs, hname, hin⟩
    rcases hnames with hnames | ⟨rfl, -, hnames⟩
    · exact hkept (hnames ▸ he)
    · rw [hnames] at he
      rcases List.mem_cons.1 he with rfl | he
      · rw [symbol?_defineIn hdefine, if_pos rfl]
        exact ⟨_, rfl, rfl, rfl⟩
      · exact hkept he
  · intro i sc hsc
    obtain ⟨old, hold, -, -, -, hnames⟩ := scope?_defineIn hdefine hsc
    rcases hnames with hnames | ⟨rfl, hfresh, hnames⟩
    · rw [hnames]
      exact h.distinct hold
    · rw [hnames, List.map_cons]
      refine List.nodup_cons.2 ⟨?_, h.distinct hold⟩
      intro hmem
      obtain ⟨e, he, hname⟩ := List.mem_map.1 hmem
      have hne := List.lookup_eq_none_iff.1 hfresh e he
      simp at hne
      exact hne hname.symm
  · intro j s hs
    rw [symbol?_defineIn hdefine] at hs
    by_cases hj : j = id
    · rw [if_pos hj] at hs
      cases hs
      rw [declared?_defineIn hdefine hscope, if_pos rfl, hj]
    · rw [if_neg hj] at hs
      have hdeclared := h.listed hs
      by_cases hin : s.scope = scope
      · rw [hin] at hdeclared ⊢
        rw [declared?_defineIn hdefine hscope]
        by_cases hname : symbol.name = s.name
        · -- the name stood for `j`, so the declaration would have completed `j`
          have hcompletes : some j = some id := by
            obtain ⟨hnone, -, -⟩ | ⟨_, hsame, -, -, -, -, -⟩ := defineIn_cases hdefine
            · rw [hname, hdeclared] at hnone
              cases hnone
            · rw [hname, hdeclared] at hsame
              exact hsame
          exact absurd (Option.some.inj hcompletes) hj
        · rw [if_neg hname]
          exact hdeclared
      · rw [declared?_defineIn_of_ne hdefine hin]
        exact hdeclared

theorem Consistent.tryDefineIn (h : t.Consistent) (hscope : scope < t.scopes.size)
    (symbol : Symbol) : (t.tryDefineIn scope symbol).Consistent := by
  unfold SymbolTable.tryDefineIn
  split
  · next hdefine => exact h.defineIn hscope hdefine
  · exact h

/-! ## Other changes -/

theorem symbol?_retype (t : SymbolTable) (id : Nat) (type : Ty) (i : Nat) :
    (t.modifySymbol id fun s => { s with type }).symbol? i =
      if id = i then (t.symbol? i).map (fun s => { s with type }) else t.symbol? i :=
  Array.getElem?_modify

theorem Consistent.retype (h : t.Consistent) (id : Nat) (type : Ty) :
    (t.modifySymbol id fun s => { s with type }).Consistent := by
  refine ⟨h.current, h.id, h.top, h.parent, h.child, fun {i sc} hsc e he => ?_, h.distinct,
    fun {i s} hs => ?_⟩
  · obtain ⟨s, hs, hname, hscope⟩ := h.named hsc e he
    rw [symbol?_retype, hs]
    split
    · exact ⟨_, rfl, hname, hscope⟩
    · exact ⟨s, rfl, hname, hscope⟩
  · rw [symbol?_retype] at hs
    split at hs
    · obtain ⟨s', hs', rfl⟩ := Option.map_eq_some_iff.1 hs
      have hlisted := h.listed hs'
      exact hlisted
    · exact h.listed hs

theorem Consistent.of_references (h : t.Consistent) (rs : References) :
    Consistent { t with references := rs } :=
  ⟨h.current, h.id, h.top, h.parent, h.child, h.named, h.distinct, h.listed⟩

/-! ## Runs -/

/-- Every edit keeps the arenas consistent. -/
theorem Consistent.perform (h : t.Consistent) {e : TableEdit} (hallowed : t.Allows e) :
    (t.perform e).Consistent := by
  cases e with
  | enter kind span => exact h.enter kind span
  | leave => exact h.leave
  | define symbol => exact h.tryDefineIn h.current symbol
  | defineIn scope symbol => exact h.tryDefineIn hallowed symbol
  | refer symbol span =>
    exact ⟨h.current, h.id, h.top, h.parent, h.child, h.named, h.distinct, h.listed⟩

theorem Consistent.edited (h : t.Consistent) {edits : List TableEdit}
    (hallowed : t.AllowsAll edits) : (t.edited edits).Consistent := by
  induction edits generalizing t with
  | nil => exact h
  | cons e rest ih => exact ih (h.perform hallowed.1) hallowed.2

/-- Only the recording of uses changes what is recorded. -/
theorem references_perform (t : SymbolTable) (e : TableEdit) :
    (t.perform e).references.entries.toList =
      t.references.entries.toList ++ t.recorded [e] := by
  have hdefine (scope : Nat) (symbol : Symbol) :
      (t.tryDefineIn scope symbol).references = t.references := by
    unfold tryDefineIn
    split
    · next hok =>
      obtain ⟨-, -, rfl⟩ | ⟨_, -, -, -, -, -, rfl⟩ := defineIn_cases hok <;> rfl
    · rfl
  cases e with
  | enter kind span => simp [perform, enter, recorded]
  | leave =>
    obtain ⟨scope, hleave⟩ := t.leave_eq
    simp [perform, hleave, recorded]
  | define symbol => simp [perform, hdefine, recorded]
  | defineIn scope symbol => simp [perform, hdefine, recorded]
  | refer symbol span => simp [perform, refer, referIn, References.add, recorded]

theorem recorded_cons (t : SymbolTable) (e : TableEdit) (rest : List TableEdit) :
    t.recorded [e] ++ (t.perform e).recorded rest = t.recorded (e :: rest) := by
  cases e <;> rfl

/-- After a run the uses are the old ones and those that the run recorded. -/
theorem references_edited (t : SymbolTable) (edits : List TableEdit) :
    (t.edited edits).references.entries.toList =
      t.references.entries.toList ++ t.recorded edits := by
  induction edits generalizing t with
  | nil => simp [edited, recorded]
  | cons e rest ih =>
    show ((t.perform e).edited rest).references.entries.toList = _
    rw [ih, references_perform, List.append_assoc, recorded_cons]

/-- **The arenas.**  After any run of edits on a new table scopes know their own numbers; all
but the module's own scope have an older scope around them, which has them as a child once;
names stand for symbols of that name and scope, each scope has a name once, and each symbol
is declared in one place; and the uses of a symbol are those that the run recorded for it. -/
theorem arenas_after (moduleName : String) (span : Span) {edits : List TableEdit}
    (h : (new moduleName span).AllowsAll edits) :
    let t := (new moduleName span).edited edits
    let uses (symbol : Nat) : List Reference :=
      ((new moduleName span).recorded edits).filter (·.symbol = symbol)
    (∃ sc, t.scope? root = some sc) ∧
    (∀ i sc, t.scope? i = some sc → sc.id = i ∧ (sc.parent? = none ↔ i = root) ∧
      (sc.names.map (·.1)).Nodup ∧
      ∀ p, sc.parent? = some p → p < i ∧ (t.children p).count i = 1) ∧
    (∀ i name id, t.declared? i name = some id →
      ∃ s, t.symbol? id = some s ∧ s.name = name ∧ s.scope = i) ∧
    (∀ id < t.symbols.size, ∃! place : Nat × String, t.declared? place.1 place.2 = some id) ∧
    ∀ symbol, t.referencesTo symbol = uses symbol ∧
      t.referenceCount symbol = (uses symbol).length := by
  intro t uses
  have ht : t.Consistent := (consistent_new moduleName span).edited h
  refine ⟨?_, ?_, ?_, fun id hid => ht.existsUnique_declared? hid, ?_⟩
  · have := ht.current
    exact exists_scope? (by unfold root; omega)
  · intro i sc hsc
    exact ⟨ht.id hsc, ht.top hsc, ht.distinct hsc, fun p hp => ht.parent hsc hp⟩
  · intro i name id hdeclared
    obtain ⟨sc, hsc, hmem⟩ := mem_names_of_declared? hdeclared
    exact ht.named hsc _ hmem
  · intro symbol
    have hentries : t.references.entries.toList = (new moduleName span).recorded edits := by
      rw [references_edited]
      rfl
    have huses : t.referencesTo symbol = uses symbol := by
      unfold referencesTo
      rw [References.of_eq, hentries]
    refine ⟨huses, ?_⟩
    rw [← huses]
    exact References.count_eq _ _

/-- A heading that is used in an inner scope, completed in the outer one and used again there
keeps its place and both uses; a second declaration of another kind is refused. -/
theorem arenas_after_completed :
    let heading : Symbol := { name := "P", kind := .procedure, span := {}, isForward := true }
    let edits : List TableEdit :=
      [.define heading, .enter .procedure {}, .define { heading with kind := .var }, .refer 0 {},
       .defineIn root { heading with isForward := false }, .leave, .refer 0 {},
       .define { heading with kind := .type }]
    let t := (new "M" {}).edited edits
    (new "M" {}).AllowsAll edits ∧ t.symbols.size = 2 ∧
      (∃! place : Nat × String, t.declared? place.1 place.2 = some 0) ∧
      t.referencesTo 0 = [⟨0, {}, 1⟩, ⟨0, {}, 0⟩] := by
  intro heading edits t
  have hallowed : (new "M" {}).AllowsAll edits := by decide
  have hsize : t.symbols.size = 2 := by decide
  obtain ⟨-, -, -, hplace, huses⟩ := arenas_after "M" {} hallowed
  refine ⟨hallowed, hsize, hplace 0 ?_, (huses 0).1.trans ?_⟩
  · show 0 < t.symbols.size
    omega
  · decide

end SymbolTable

end SimFront
