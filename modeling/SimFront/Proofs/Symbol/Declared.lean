import Mathlib.Algebra.Order.Group.Multiset
import Mathlib.Data.List.Perm.Basic
import Mathlib.Data.Multiset.Filter
import SimFront.Proofs.Symbol.Named

/-!
# What the names of a scope stand for after a declaration

A symbol is refused where its name is taken, unless it completes what has the name
(`defineIn_error`, `defineIn_ok`).  Otherwise its name stands for it, and all other names
and symbols are as before (`declared?_defineIn`, `symbol?_defineIn`).  The symbols of the
module's own scope are those that its names stand for, one for each name
(`Named.rootSymbols_of_name`).

The symbols of a table, each taken as the identifier that declares it, are its
declarations.  One more symbol is at most one more declaration, for a completed heading is
forgotten (`declarations_defineIn`), and nothing else makes declarations.
`own B` are those that `B` does not hold of.
-/

namespace SimFront

/-- A procedure heading that still lacks its body. -/
def Symbol.isHeading (s : Symbol) : Bool := s.isForward && s.kind = .procedure

/-- Takes the place of a symbol of its name: a procedure that of a heading. -/
def Symbol.completes (s previous : Symbol) : Bool := previous.isHeading && s.kind = .procedure

namespace SymbolTable

variable {t t' : SymbolTable} {scope id : Nat} {symbol : Symbol}

/-- The symbol that a scope itself declares under a name. -/
def declaredSymbol? (t : SymbolTable) (scope : Nat) (name : String) : Option Symbol :=
  (t.declared? scope name).bind t.symbol?

theorem Named.declaredSymbol?_isSome (h : t.Named) {name : String}
    (hd : t.declared? scope name = some id) :
    ∃ s, t.declaredSymbol? scope name = some s ∧ t.symbol? id = some s ∧ s.name = name := by
  obtain ⟨s, hs, hname⟩ := h.of_declares ⟨scope, hd⟩
  exact ⟨s, Option.bind_eq_some_iff.2 ⟨id, hd, hs⟩, hs, hname⟩

/-- Nothing is around the module's own scope. -/
theorem lookupFrom?_root (t : SymbolTable) (name : String) :
    t.lookupFrom? root name = t.declared? root name := by
  have henclosing : t.enclosing root = [root] := by
    unfold enclosing
    split
    · exact congrArg (root :: ·) (if_neg (Nat.not_lt_zero _))
    · rfl
  unfold lookupFrom?
  rw [henclosing, List.findSome?_cons]
  cases t.declared? root name <;> rfl

/-! ## Declaring a symbol -/

theorem current_defineIn (h : t.defineIn scope symbol = .ok (id, t')) : t'.current = t.current := by
  obtain ⟨-, -, rfl⟩ | ⟨_, -, -, -, -, -, rfl⟩ := defineIn_cases h <;> rfl

theorem size_scopes_defineIn (h : t.defineIn scope symbol = .ok (id, t')) :
    t'.scopes.size = t.scopes.size := by
  obtain ⟨-, -, rfl⟩ | ⟨_, -, -, -, -, -, rfl⟩ := defineIn_cases h
  · exact Array.size_modify
  · rfl

theorem references_defineIn (h : t.defineIn scope symbol = .ok (id, t')) :
    t'.references = t.references := by
  obtain ⟨-, -, rfl⟩ | ⟨_, -, -, -, -, -, rfl⟩ := defineIn_cases h <;> rfl

theorem declared?_append {scope : Nat} (hscope : scope < t.scopes.size) (symbol : Symbol)
    (name : String) :
    (t.append scope symbol).declared? scope name =
      if symbol.name = name then some t.symbols.size else t.declared? scope name := by
  have hold : t.scope? scope = some t.scopes[scope] := Array.getElem?_eq_getElem hscope
  have hnew : (t.append scope symbol).scope? scope =
      some { t.scopes[scope] with
        names := (symbol.name, t.symbols.size) :: t.scopes[scope].names } := by
    unfold append scope?
    dsimp only
    rw [Array.getElem?_modify, if_pos rfl, Array.getElem?_eq_getElem hscope, Option.map_some]
  unfold declared?
  rw [hold, hnew]
  dsimp only [Option.bind_some, Scope.find?]
  rw [List.lookup_cons]
  split
  · next heq => rw [if_pos (beq_iff_eq.1 heq).symm]
  · next hne => rw [if_neg fun heq => beq_eq_false_iff_ne.1 hne heq.symm]

/-- The name of a new symbol stands for it, and every other name for what it stood for. -/
theorem declared?_defineIn (h : t.defineIn scope symbol = .ok (id, t'))
    (hscope : scope < t.scopes.size) (name : String) :
    t'.declared? scope name = if symbol.name = name then some id else t.declared? scope name := by
  obtain ⟨-, rfl, rfl⟩ | ⟨previous, hdeclared, -, -, -, -, rfl⟩ := defineIn_cases h
  · exact declared?_append hscope symbol name
  · split
    · next heq => exact heq ▸ hdeclared
    · rfl

theorem symbol?_defineIn (h : t.defineIn scope symbol = .ok (id, t')) (i : Nat) :
    t'.symbol? i = if i = id then some { symbol with scope } else t.symbol? i := by
  obtain ⟨-, rfl, rfl⟩ | ⟨previous, -, hprevious, -, -, -, rfl⟩ := defineIn_cases h
  · exact Array.getElem?_push
  · obtain ⟨hlt, -⟩ := Array.getElem?_eq_some_iff.1 hprevious
    unfold symbol?
    dsimp only
    rw [Array.getElem?_setIfInBounds, if_pos hlt]
    split
    · next hi => rw [if_pos hi.symm]
    · next hi => rw [if_neg fun heq => hi heq.symm]

/-- What had the name of a new symbol is completed by it. -/
theorem defineIn_ok (h : t.defineIn scope symbol = .ok (id, t')) {previous : Symbol}
    (hprevious : t.declaredSymbol? scope symbol.name = some previous) :
    symbol.completes previous := by
  obtain ⟨i, hi, hsymbol⟩ := Option.bind_eq_some_iff.1 hprevious
  obtain ⟨hnone, -, -⟩ | ⟨s, hdeclared, hs, hforward, hkind, hsymbolKind, -⟩ := defineIn_cases h
  · rw [hnone] at hi
    cases hi
  · rw [hdeclared] at hi
    cases hi
    rw [hs] at hsymbol
    cases hsymbol
    unfold Symbol.completes Symbol.isHeading
    rw [hforward, hkind, hsymbolKind]
    rfl

/-- A symbol is refused only for what has its name and is not completed by it. -/
theorem Named.defineIn_error (hnamed : t.Named) {e : DuplicateName}
    (h : t.defineIn scope symbol = .error e) :
    ∃ previous, t.declaredSymbol? scope symbol.name = some previous ∧
      symbol.completes previous = false := by
  unfold SymbolTable.defineIn at h
  split at h
  · cases h
  · next existing hexisting =>
    obtain ⟨s, hdeclared, hs, -⟩ := hnamed.declaredSymbol?_isSome hexisting
    refine ⟨s, hdeclared, ?_⟩
    rw [hs] at h
    dsimp only at h
    split at h
    · cases h
    · next hno => exact Bool.not_eq_true _ ▸ hno

/-! ## The symbols of the module's own scope -/

/-- Of the symbols of some names, those of one name are what it stands for. -/
theorem filter_symbols_of_names {names : List (String × Nat)}
    (hsymbol : ∀ e ∈ names, ∃ s, t.symbol? e.2 = some s ∧ s.name = e.1)
    (hdistinct : (names.map (·.1)).Nodup) (name : String) :
    ((names.map (·.2)).filterMap t.symbol?).filter (·.name = name) =
      ((List.lookup name names).bind t.symbol?).toList := by
  induction names with
  | nil => rfl
  | cons e names ih =>
    obtain ⟨n, id⟩ := e
    obtain ⟨hnew, hdistinct⟩ := List.nodup_cons.1 hdistinct
    obtain ⟨s, hs, hname⟩ := hsymbol (n, id) List.mem_cons_self
    have hrest : ∀ e ∈ names, ∃ s, t.symbol? e.2 = some s ∧ s.name = e.1 := fun e he =>
      hsymbol e (List.mem_cons_of_mem _ he)
    have hs : t.symbol? id = some s := hs
    have hname : s.name = n := hname
    rw [List.map_cons, List.filterMap_cons_some hs, List.filter_cons, List.lookup_cons, hname]
    by_cases heq : n = name
    · subst heq
      have hnone : List.lookup n names = none :=
        List.lookup_eq_none_iff.2 fun e he => bne_iff_ne.2 fun heq =>
          hnew (List.mem_map.2 ⟨e, he, heq.symm⟩)
      rw [if_pos (decide_eq_true rfl), ih hrest hdistinct, hnone, beq_self_eq_true]
      dsimp only
      rw [Option.bind_some, hs]
      rfl
    · rw [if_neg (by rw [decide_eq_true_eq]; exact heq), ih hrest hdistinct,
        beq_eq_false_iff_ne.2 fun h => heq h.symm]

/-- The symbols of the module's own scope, each name having the one that it stands for. -/
theorem Named.rootSymbols_of_name (h : t.Named) (name : String) :
    (t.rootSymbols.map (·.2)).filter (·.name = name) = (t.declaredSymbol? root name).toList := by
  have hsymbols : t.rootSymbols.map (·.2) = (t.symbolsIn root).filterMap t.symbol? := by
    unfold rootSymbols
    rw [List.map_filterMap]
    refine List.filterMap_congr fun id _ => ?_
    cases t.symbol? id <;> rfl
  rw [hsymbols]
  unfold symbolsIn declaredSymbol? declared?
  cases hscope : t.scope? root with
  | none => rfl
  | some sc =>
    have hperm := ((sc.names.map (·.2)).mergeSort_perm (· ≤ ·)).filterMap t.symbol?
    have hperm := hperm.filter (·.name = name)
    rw [filter_symbols_of_names (h.symbol hscope) (h.distinct hscope)] at hperm
    dsimp only [Option.bind_some, Scope.find?]
    revert hperm
    cases (List.lookup name sc.names).bind t.symbol? with
    | none => exact List.Perm.eq_nil
    | some s => exact List.perm_singleton.1

end SymbolTable

/-! ## The identifiers that declare symbols -/

/-- The identifier that declares a symbol. -/
def Symbol.ident (s : Symbol) : Ident := ⟨s.name, s.span⟩

namespace SymbolTable

variable {t t' : SymbolTable} {scope id : Nat} {symbol : Symbol}

/-- The identifiers that declare the symbols. -/
def declarations (t : SymbolTable) : Multiset Ident := ↑(t.symbols.toList.map Symbol.ident)

/-- What takes the place of an element is at most one more. -/
theorem set_le_cons {α : Type} (as : List α) (i : Nat) (a : α) :
    (↑(as.set i a) : Multiset α) ≤ a ::ₘ ↑as := by
  induction as generalizing i with
  | nil => exact Multiset.zero_le _
  | cons b as ih =>
    cases i with
    | zero =>
      rw [List.set_cons_zero, ← Multiset.cons_coe, ← Multiset.cons_coe]
      exact Multiset.cons_le_cons a (Multiset.le_cons_self _ b)
    | succ i =>
      have hrest := Multiset.cons_le_cons b (ih i)
      rwa [Multiset.cons_swap] at hrest

theorem declarations_defineIn (h : t.defineIn scope symbol = .ok (id, t')) :
    t'.declarations ≤ symbol.ident ::ₘ t.declarations := by
  obtain ⟨-, -, rfl⟩ | ⟨_, -, -, -, -, -, rfl⟩ := defineIn_cases h
  · have hsymbols : (t.append scope symbol).symbols.toList =
        t.symbols.toList ++ [{ symbol with scope }] := Array.toList_push
    unfold declarations
    rw [hsymbols, List.map_append, Multiset.cons_coe]
    exact le_of_eq (Multiset.coe_eq_coe.2 List.perm_append_comm)
  · unfold declarations
    rw [Array.toList_setIfInBounds, List.map_set]
    exact set_le_cons _ _ _

theorem declarations_modifySymbol (id : Nat) {f : Symbol → Symbol}
    (hf : ∀ s, (f s).ident = s.ident) : (t.modifySymbol id f).declarations = t.declarations := by
  have hmodify : (t.modifySymbol id f).symbols.toList = t.symbols.toList.modify id f :=
    Array.toList_modify
  have hlist : ∀ (symbols : List Symbol) (id : Nat),
      (symbols.modify id f).map Symbol.ident = symbols.map Symbol.ident := by
    intro symbols
    induction symbols with
    | nil => exact fun id => congrArg _ (List.modify_nil f id)
    | cons s symbols ih =>
      intro id
      cases id with
      | zero => rw [List.modify_zero_cons, List.map_cons, List.map_cons, hf]
      | succ id => rw [List.modify_succ_cons, List.map_cons, List.map_cons, ih]
  unfold declarations
  rw [hmodify, hlist]

/-! ## Some of the declarations -/

variable {B : Ident → Prop} [DecidablePred B]

/-- The declarations that `B` does not hold of. -/
def own (B : Ident → Prop) [DecidablePred B] (t : SymbolTable) : Multiset Ident :=
  t.declarations.filter (¬ B ·)

theorem own_eq_zero (hB : ∀ i, B i) (t : SymbolTable) : t.own B = 0 :=
  Multiset.filter_eq_nil.2 fun i _ h => h (hB i)

theorem own_defineIn (h : t.defineIn scope symbol = .ok (id, t')) :
    t'.own B ≤ t.own B + ({symbol.ident} : Multiset Ident).filter (¬ B ·) := by
  have hdeclarations := Multiset.filter_le_filter (¬ B ·) (declarations_defineIn h)
  rw [← Multiset.singleton_add, Multiset.filter_add, add_comm] at hdeclarations
  exact hdeclarations

/-- If `B` holds of what is declared, there is nothing more of the others. -/
theorem own_defineIn_of (h : t.defineIn scope symbol = .ok (id, t')) (hB : B symbol.ident) :
    t'.own B ≤ t.own B := by
  have hown := own_defineIn (B := B) h
  rwa [Multiset.filter_singleton, if_neg (not_not_intro hB), Multiset.empty_eq_zero,
    add_zero] at hown

theorem mem_own {s : Symbol} (hs : t.symbol? id = some s) (hB : ¬ B s.ident) :
    s.ident ∈ t.own B := by
  refine Multiset.mem_filter.2 ⟨List.mem_map_of_mem ?_, hB⟩
  exact Array.mem_toList_iff.2 (Array.mem_of_getElem? hs)

/-- Where these declarations have spans of their own, so have their symbols. -/
theorem own_span_inj (h : ((t.own B).map Ident.span).Nodup) {id' : Nat} {s s' : Symbol}
    (hs : t.symbol? id = some s) (hs' : t.symbol? id' = some s') (hB : ¬ B s.ident)
    (hB' : ¬ B s'.ident) (hspan : s.span = s'.span) : id = id' := by
  have hdistinct : t.symbols.toList.Pairwise fun a b =>
      ¬ B a.ident → ¬ B b.ident → a.span ≠ b.span := by
    unfold own declarations at h
    rw [Multiset.filter_coe, Multiset.map_coe, Multiset.coe_nodup, List.Nodup, List.pairwise_map,
      List.pairwise_filter, List.pairwise_map] at h
    exact h.imp fun hne ha hb => hne (decide_eq_true ha) (decide_eq_true hb)
  obtain ⟨hlt, rfl⟩ := Array.getElem?_eq_some_iff.1 hs
  obtain ⟨hlt', rfl⟩ := Array.getElem?_eq_some_iff.1 hs'
  have hpairs := List.pairwise_iff_getElem.1 hdistinct
  rcases Nat.lt_trichotomy id id' with hid | hid | hid
  · exact absurd hspan (hpairs id id' hlt hlt' hid hB hB')
  · exact hid
  · exact absurd hspan.symm (hpairs id' id hlt' hlt hid hB' hB)

end SymbolTable

end SimFront
