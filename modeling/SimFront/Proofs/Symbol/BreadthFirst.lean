import SimFront.Proofs.Symbol.Reachable

/-!
# The search through the whole table

The search for a name goes through the table level by level.  The levels put one after
the other are all scopes, each once, by their depth and within a level in the order in
which they were opened (`breadthFirst`).  The search takes scopes from its queue in that
order until one of them declares the name (`visits_isPrefix`, `searchFrom_eq`), so it has
the first of them that does, and needs no more steps than there are scopes
(`lookupGlobal?_nearest`).
-/

namespace SimFront.SymbolTable

variable {t : SymbolTable} {i j p c n : Nat} {name : String}

/-! ## Levels -/

/-- How many scopes are around a scope. -/
def depth (t : SymbolTable) (scope : Nat) : Nat := (t.enclosing scope).tail.length

/-- The scopes at a depth: the children of those one level above. -/
def level (t : SymbolTable) : (depth : Nat) → List Nat
  | 0 => [root]
  | n + 1 => (level t n).flatMap t.children

/-- All scopes, level by level. -/
def breadthFirst (t : SymbolTable) : List Nat := (List.range t.scopes.size).flatMap t.level

/-- In the order of levels, and on one level in the order of opening. -/
def Nearer (t : SymbolTable) (i j : Nat) : Prop :=
  t.depth i < t.depth j ∨ t.depth i = t.depth j ∧ i < j

theorem Consistent.depth_of_parent (h : t.Consistent) (hp : t.parent? i = some p) :
    t.depth i = t.depth p + 1 := by
  unfold depth
  rw [h.enclosing_of_parent hp, List.tail_cons, enclosing_eq]
  rfl

theorem depth_of_top (hp : t.parent? i = none) : t.depth i = 0 := by
  unfold depth
  rw [enclosing_of_top hp]
  rfl

theorem Consistent.depth_root (h : t.Consistent) : t.depth root = 0 := depth_of_top (parent?_root h)

/-- There are no more scopes around a scope than were opened before it. -/
theorem Consistent.depth_le (h : t.Consistent) (i : Nat) : t.depth i ≤ i := by
  induction i using Nat.strongRecOn with
  | ind i ih =>
    cases hp : t.parent? i with
    | none =>
      rw [depth_of_top hp]
      exact Nat.zero_le i
    | some p =>
      have hlt := h.parent?_lt hp
      rw [h.depth_of_parent hp]
      exact Nat.lt_of_le_of_lt (ih p hlt) hlt

/-- What is around a scope is less deep, or the scope itself. -/
theorem Consistent.depth_lt_of_mem (h : t.Consistent) (hmem : p ∈ t.enclosing i) (hne : p ≠ i) :
    t.depth p < t.depth i := by
  induction i using Nat.strongRecOn with
  | ind i ih =>
    cases hparent : t.parent? i with
    | none =>
      rw [enclosing_of_top hparent] at hmem
      exact absurd (List.mem_singleton.1 hmem) hne
    | some q =>
      rw [h.depth_of_parent hparent]
      rcases (h.mem_enclosing_iff hparent).1 hmem with heq | hmem
      · exact absurd heq hne
      · by_cases hpq : p = q
        · rw [hpq]
          exact Nat.lt_succ_self _
        · exact Nat.lt_succ_of_lt (ih q (h.parent?_lt hparent) hmem hpq)

/-- A level has the scopes of its depth. -/
theorem mem_level (h : t.Consistent) (ht : t.Preordered) :
    i ∈ t.level n ↔ i < t.scopes.size ∧ t.depth i = n := by
  induction n generalizing i with
  | zero =>
    have hpos := h.current
    constructor
    · intro hi
      have hi : i = root := List.mem_singleton.1 hi
      rw [hi]
      exact ⟨by unfold root; omega, h.depth_root⟩
    · rintro ⟨hi, hdepth⟩
      refine List.mem_singleton.2 ((h.parent?_eq_none hi).1 ?_)
      cases hp : t.parent? i with
      | none => rfl
      | some p =>
        rw [h.depth_of_parent hp] at hdepth
        cases hdepth
  | succ n ih =>
    refine List.mem_flatMap.trans ⟨fun hi => ?_, fun ⟨hi, hdepth⟩ => ?_⟩
    · obtain ⟨p, hp, hchild⟩ := hi
      have hparent := ht.parent hchild
      exact ⟨lt_of_parent? hparent, by rw [h.depth_of_parent hparent, (ih.1 hp).2]⟩
    · cases hp : t.parent? i with
      | none =>
        rw [depth_of_top hp] at hdepth
        cases hdepth
      | some p =>
        rw [h.depth_of_parent hp] at hdepth
        have hlt := h.parent?_lt hp
        exact ⟨p, ih.2 ⟨by omega, by omega⟩, h.mem_children hp⟩

/-- Of two scopes of one depth all children of the older one are older. -/
theorem children_lt (h : t.Consistent) (ht : t.Preordered) {a b : Nat} (hlt : i < j)
    (hdepth : t.depth i = t.depth j) (ha : a ∈ t.children i) (hb : b ∈ t.children j) : a < b := by
  have hai := ht.parent ha
  have hbj := ht.parent hb
  have hj : j < b := h.parent?_lt hbj
  -- otherwise `j` was opened while `i` was open, and would be deeper
  have hle : a ≤ j := by
    by_contra hgt
    have hinside := ht.before hai j (Nat.le_of_lt hlt) (by omega)
    have := h.depth_lt_of_mem hinside (Nat.ne_of_lt hlt)
    omega
  omega

/-- A level is in the order of opening. -/
theorem level_sorted (h : t.Consistent) (ht : t.Preordered) (n : Nat) :
    (t.level n).Pairwise (· < ·) := by
  induction n with
  | zero => exact List.pairwise_singleton _ _
  | succ n ih =>
    refine List.pairwise_flatMap.2 ⟨fun p _ => ht.sorted p, ?_⟩
    refine ih.imp_of_mem fun {i j} hi hj hlt a ha b hb => ?_
    have hi := (mem_level h ht).1 hi
    have hj := (mem_level h ht).1 hj
    exact children_lt h ht hlt (hi.2.trans hj.2.symm) ha hb

theorem mem_breadthFirst (h : t.Consistent) (ht : t.Preordered) :
    i ∈ t.breadthFirst ↔ i < t.scopes.size := by
  unfold breadthFirst
  rw [List.mem_flatMap]
  constructor
  · rintro ⟨n, -, hi⟩
    exact ((mem_level h ht).1 hi).1
  · intro hi
    refine ⟨t.depth i, List.mem_range.2 ?_, (mem_level h ht).2 ⟨hi, rfl⟩⟩
    exact Nat.lt_of_le_of_lt (h.depth_le i) hi

theorem breadthFirst_sorted (h : t.Consistent) (ht : t.Preordered) :
    t.breadthFirst.Pairwise t.Nearer := by
  unfold breadthFirst
  refine List.pairwise_flatMap.2 ⟨fun n _ => ?_, ?_⟩
  · refine (level_sorted h ht n).imp_of_mem fun {i j} hi hj hlt => .inr ⟨?_, hlt⟩
    rw [((mem_level h ht).1 hi).2, ((mem_level h ht).1 hj).2]
  · refine List.pairwise_lt_range.imp fun {n m} hlt i hi j hj => .inl ?_
    rw [((mem_level h ht).1 hi).2, ((mem_level h ht).1 hj).2]
    exact hlt

/-- Every scope is there once. -/
theorem breadthFirst_perm (h : t.Consistent) (ht : t.Preordered) :
    t.breadthFirst.Perm (List.range t.scopes.size) := by
  have hnodup : t.breadthFirst.Nodup := (breadthFirst_sorted h ht).imp fun {i j} hnearer heq => by
    subst heq
    rcases hnearer with hlt | ⟨-, hlt⟩ <;> exact Nat.lt_irrefl _ hlt
  refine (List.perm_ext_iff_of_nodup hnodup List.nodup_range).2 fun i => ?_
  rw [mem_breadthFirst h ht, List.mem_range]

/-! ## The queue -/

/-- The scopes that go through the queue if none of them ends the search. -/
def walk (t : SymbolTable) : (fuel : Nat) → List Nat → List Nat
  | 0, _ => []
  | _, [] => []
  | fuel + 1, s :: queue => s :: walk t fuel (queue ++ t.children s)

/-- The scopes that the search for a name takes from its queue. -/
def visits (t : SymbolTable) (name : String) : (fuel : Nat) → List Nat → List Nat
  | 0, _ => []
  | _, [] => []
  | fuel + 1, s :: queue =>
    s :: match t.declared? s name with
      | some _ => []
      | none => visits t name fuel (queue ++ t.children s)

/-- The search finds what is declared in the scopes that go through the queue. -/
theorem searchFrom_eq (t : SymbolTable) (name : String) (fuel : Nat) (queue : List Nat) :
    t.searchFrom name fuel queue = (t.walk fuel queue).findSome? (t.declared? · name) := by
  induction fuel generalizing queue with
  | zero => rfl
  | succ fuel ih =>
    cases queue with
    | nil => rfl
    | cons s queue =>
      unfold searchFrom walk
      rw [List.findSome?_cons]
      cases t.declared? s name with
      | some id => rfl
      | none => exact ih (queue ++ t.children s)

/-- It has seen no more scopes than those it took. -/
theorem searchFrom_eq_visits (t : SymbolTable) (name : String) (fuel : Nat) (queue : List Nat) :
    t.searchFrom name fuel queue = (t.visits name fuel queue).findSome? (t.declared? · name) := by
  induction fuel generalizing queue with
  | zero => rfl
  | succ fuel ih =>
    cases queue with
    | nil => rfl
    | cons s queue =>
      unfold searchFrom visits
      rw [List.findSome?_cons]
      cases t.declared? s name with
      | some id => rfl
      | none => exact ih (queue ++ t.children s)

theorem visits_isPrefix (t : SymbolTable) (name : String) (fuel : Nat) (queue : List Nat) :
    t.visits name fuel queue <+: t.walk fuel queue := by
  induction fuel generalizing queue with
  | zero => exact List.prefix_rfl
  | succ fuel ih =>
    cases queue with
    | nil => exact List.prefix_rfl
    | cons s queue =>
      unfold visits walk
      refine List.cons_prefix_cons.2 ⟨rfl, ?_⟩
      cases t.declared? s name with
      | some id => exact List.nil_prefix
      | none => exact ih (queue ++ t.children s)

theorem walk_nil (t : SymbolTable) (fuel : Nat) : t.walk fuel [] = [] := by
  cases fuel <;> rfl

/-- What is in the queue goes through it, and leaves all its children there. -/
theorem walk_append (t : SymbolTable) (fuel : Nat) (queue later : List Nat) :
    t.walk (queue.length + fuel) (queue ++ later) =
      queue ++ t.walk fuel (later ++ queue.flatMap t.children) := by
  induction queue generalizing later with
  | nil => simp
  | cons s queue ih =>
    rw [List.length_cons, Nat.add_right_comm]
    show s :: t.walk (queue.length + fuel) (queue ++ later ++ t.children s) = _
    rw [List.append_assoc, ih, List.flatMap_cons, List.append_assoc, List.cons_append]

/-- Level after level goes through the queue. -/
theorem walk_levels (t : SymbolTable) (fuel n : Nat) :
    t.walk (((List.range n).flatMap t.level).length + fuel) [root] =
      (List.range n).flatMap t.level ++ t.walk fuel (t.level n) := by
  induction n generalizing fuel with
  | zero => rw [List.range_zero, List.flatMap_nil, List.length_nil, Nat.zero_add]; rfl
  | succ n ih =>
    have hlevel := t.walk_append fuel (t.level n) []
    rw [List.append_nil, List.nil_append] at hlevel
    rw [List.range_succ, List.flatMap_append, List.flatMap_singleton, List.length_append,
      Nat.add_assoc, ih, hlevel, List.append_assoc]
    rfl

/-- With a step for each scope all of them go through the queue, and then it is empty. -/
theorem walk_eq (h : t.Consistent) (ht : t.Preordered) {fuel : Nat}
    (hfuel : t.scopes.size ≤ fuel) : t.walk fuel [root] = t.breadthFirst := by
  have hlast : t.level t.scopes.size = [] := by
    refine List.eq_nil_iff_forall_not_mem.2 fun i hi => ?_
    obtain ⟨hlt, hdepth⟩ := (mem_level h ht).1 hi
    have := h.depth_le i
    omega
  have hlength : t.breadthFirst.length = t.scopes.size := by
    rw [(breadthFirst_perm h ht).length_eq, List.length_range]
  have hlevels := t.walk_levels (fuel - t.scopes.size) t.scopes.size
  rw [hlast, walk_nil, List.append_nil] at hlevels
  have hfuel : fuel = t.breadthFirst.length + (fuel - t.scopes.size) := by omega
  rw [hfuel]
  exact hlevels

/-! ## The search -/

theorem lookupGlobalId?_eq (h : t.Consistent) (ht : t.Preordered) (name : String) :
    t.lookupGlobalId? name = t.breadthFirst.findSome? (t.declared? · name) := by
  unfold lookupGlobalId?
  rw [searchFrom_eq, walk_eq h ht (Nat.le_succ _)]

theorem lt_of_declared? {id : Nat} (h : t.declared? i name = some id) : i < t.scopes.size := by
  obtain ⟨sc, hsc, -⟩ := mem_names_of_declared? h
  exact lt_of_scope? hsc

/-- What the search has is declared in the first scope that declares the name. -/
theorem lookupGlobalId?_nearest (h : t.Consistent) (ht : t.Preordered) {id : Nat}
    (hid : t.lookupGlobalId? name = some id) :
    ∃ i before after, t.breadthFirst = before ++ i :: after ∧ t.declared? i name = some id ∧
      (∀ j ∈ before, t.declared? j name = none) ∧
      ∀ j, (t.declared? j name).isSome → j ≠ i → t.Nearer i j := by
  rw [lookupGlobalId?_eq h ht] at hid
  obtain ⟨before, i, after, hsplit, hi, hbefore⟩ := List.findSome?_eq_some_iff.1 hid
  refine ⟨i, before, after, hsplit, hi, hbefore, fun j hj hne => ?_⟩
  obtain ⟨other, hother⟩ := Option.isSome_iff_exists.1 hj
  have hmem := (mem_breadthFirst h ht).2 (lt_of_declared? hother)
  have hsorted := breadthFirst_sorted h ht
  rw [hsplit] at hmem hsorted
  rcases List.mem_append.1 hmem with hj | hj
  · rw [hbefore j hj] at hother
    cases hother
  · rcases List.mem_cons.1 hj with rfl | hj
    · exact absurd rfl hne
    · exact (List.pairwise_cons.1 (List.pairwise_append.1 hsorted).2.1).1 j hj

/-- **The nearest declaration.**  In every table that can be built the search for a name in the
whole table has nothing just if no scope declares the name.  What it has else is declared
in the first scope, level by level and in the order of children, that declares it: no
other one is less deep, nor as deep and opened earlier.  The search takes no scope from
its queue twice, and more steps than there are scopes change nothing. -/
theorem lookupGlobal?_nearest (hreachable : t.Reachable) (name : String) :
    (t.lookupGlobal? name = none ↔ ∀ i < t.scopes.size, t.declared? i name = none) ∧
    (∀ s, t.lookupGlobal? name = some s → ∃ i id before after,
      t.declared? i name = some id ∧ t.symbol? id = some s ∧ s.name = name ∧ s.scope = i ∧
      t.breadthFirst = before ++ i :: after ∧ (∀ j ∈ before, t.declared? j name = none) ∧
      ∀ j, (t.declared? j name).isSome → j ≠ i →
        t.depth i < t.depth j ∨ t.depth i = t.depth j ∧ i < j) ∧
    ∀ fuel, t.scopes.size ≤ fuel →
      t.searchFrom name fuel [root] = t.lookupGlobalId? name ∧
      (t.visits name fuel [root]).findSome? (t.declared? · name) = t.lookupGlobalId? name ∧
      t.visits name fuel [root] <+: t.breadthFirst ∧
      (t.visits name fuel [root]).Nodup ∧
      (t.visits name fuel [root]).length ≤ t.scopes.size := by
  have h := hreachable.consistent
  have ht := hreachable.preordered
  have hperm := breadthFirst_perm h ht
  have hsymbol (id : Nat) (hid : t.lookupGlobalId? name = some id) : ∃ i before after,
      t.breadthFirst = before ++ i :: after ∧ t.declared? i name = some id ∧
      (∃ s, t.symbol? id = some s ∧ s.name = name ∧ s.scope = i) ∧
      (∀ j ∈ before, t.declared? j name = none) ∧
      ∀ j, (t.declared? j name).isSome → j ≠ i → t.Nearer i j := by
    obtain ⟨i, before, after, hsplit, hi, hrest⟩ := lookupGlobalId?_nearest h ht hid
    obtain ⟨sc, hsc, hmem⟩ := mem_names_of_declared? hi
    exact ⟨i, before, after, hsplit, hi, h.named hsc _ hmem, hrest⟩
  refine ⟨?_, fun s hs => ?_, fun fuel hfuel => ?_⟩
  · have hid : t.lookupGlobal? name = none ↔ t.lookupGlobalId? name = none := by
      unfold lookupGlobal?
      cases hfound : t.lookupGlobalId? name with
      | none => simp
      | some id =>
        obtain ⟨-, -, -, -, -, ⟨s, hs, -⟩, -⟩ := hsymbol id hfound
        simp [hs]
    rw [hid, lookupGlobalId?_eq h ht, List.findSome?_eq_none_iff]
    exact ⟨fun hnone i hi => hnone i ((mem_breadthFirst h ht).2 hi),
      fun hnone i hi => hnone i ((mem_breadthFirst h ht).1 hi)⟩
  · obtain ⟨id, hid, hs⟩ := Option.bind_eq_some_iff.1 hs
    obtain ⟨i, before, after, hsplit, hi, ⟨s', hs', hname, hscope⟩, hbefore, hnearest⟩ :=
      hsymbol id hid
    rw [hs] at hs'
    cases hs'
    exact ⟨i, id, before, after, hi, hs, hname, hscope, hsplit, hbefore, hnearest⟩
  · have hwalk := walk_eq h ht hfuel
    have hvisits := hwalk ▸ t.visits_isPrefix name fuel [root]
    have hfound : t.searchFrom name fuel [root] = t.lookupGlobalId? name := by
      rw [searchFrom_eq, hwalk, lookupGlobalId?_eq h ht]
    refine ⟨hfound, ?_, hvisits, hvisits.sublist.nodup (hperm.nodup_iff.2 List.nodup_range), ?_⟩
    · rw [← searchFrom_eq_visits]
      exact hfound
    · rw [← List.length_range (n := t.scopes.size), ← hperm.length_eq]
      exact hvisits.length_le

/-- A name that is declared in a record of the first procedure, in the second procedure and in
an object after it: the search has the declaration in the second procedure. -/
theorem lookupGlobal?_nearest_of_three :
    let x : Symbol := { name := "X", kind := .var, span := {} }
    let t := (new "M" {}).edited [.enter .procedure {}, .enter .record {}, .define x, .leave,
      .leave, .enter .procedure {}, .define x, .leave, .enter .object {}, .define x]
    t.Reachable ∧ t.declared? 3 "X" = some 1 ∧ (t.lookupGlobal? "X").map (·.scope) = some 3 ∧
      ∀ j, (t.declared? j "X").isSome → j ≠ 3 →
        t.depth 3 < t.depth j ∨ t.depth 3 = t.depth j ∧ 3 < j := by
  intro x t
  have ht : t.Reachable := (Reachable.new "M" {}).edited (by decide)
  have hscope : (t.lookupGlobal? "X").map (·.scope) = some 3 := by decide
  obtain ⟨s, hs, hthree⟩ := Option.map_eq_some_iff.1 hscope
  obtain ⟨-, hnearest, -⟩ := lookupGlobal?_nearest ht "X"
  obtain ⟨i, id, -, -, hi, -, -, hin, -, -, hnearer⟩ := hnearest s hs
  have hi3 : i = 3 := hin.symm.trans hthree
  subst hi3
  exact ⟨ht, by decide, hscope, hnearer⟩

end SimFront.SymbolTable
