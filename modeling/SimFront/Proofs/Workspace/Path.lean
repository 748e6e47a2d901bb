import SimFront.Workspace.Path

/-!
# The order of paths

Components are in a lawful order, and paths are in the order of their lists of
components.  Two paths compare equal exactly when they are `==`, which asks for the
same components but not for the same text.  A set of paths is read through
`PathSet.contains`; what the operations on sets do is stated through it
(`contains_insert`, `contains_erase`, `contains_ofList`, `mem_diff`), and two sets in
order with the same paths are `==` (`Sorted.beq_of_contains`).
-/

namespace SimFront

open Std (OrientedCmp TransCmp TransOrd LawfulEqOrd LawfulBEqOrd)

/-! ## Components -/

namespace Component

/-- The place of a component among those of other kinds. -/
def rank : Component → Nat
  | root => 0
  | current => 1
  | parent => 2
  | name _ => 3

/-- What tells components of one kind apart. -/
def label : Component → String
  | name text => text
  | _ => ""

theorem compare_eq_lex :
    (compare : Component → Component → Ordering) =
      compareLex (compareOn rank) (compareOn label) := by
  funext a b
  have same : Ordering.eq = compare "" "" := Std.ReflOrd.compare_self.symm
  cases a <;> cases b <;> first | rfl | exact same | skip
  · next s t =>
      show (compare s t).then .eq = (compare 3 3).then (compare s t)
      cases compare s t <;> rfl

theorem eq_of_rank_of_label {a b : Component} (hr : a.rank = b.rank) (hl : a.label = b.label) :
    a = b := by
  cases a <;> cases b <;> simp_all [rank, label]

instance : TransOrd Component := by
  show Std.TransCmp compare
  rw [compare_eq_lex]
  infer_instance

instance : LawfulEqOrd Component where
  eq_of_compare {a b} h := by
    rw [compare_eq_lex, compareLex_eq_eq] at h
    exact eq_of_rank_of_label (LawfulEqOrd.eq_of_compare h.1) (LawfulEqOrd.eq_of_compare h.2)

end Component

/-! ## Paths -/

namespace Path

theorem beq_iff {p q : Path} : p == q ↔ p.components = q.components := by
  show decide (p.components = q.components) = true ↔ _
  exact decide_eq_true_iff

instance : TransOrd Path := inferInstanceAs (TransCmp (compareOn components))

instance : LawfulBEqOrd Path where
  compare_eq_iff_beq {p q} := by
    rw [beq_iff]
    show compare p.components q.components = .eq ↔ _
    exact Std.LawfulEqOrd.compare_eq_iff_eq

theorem not_beq_of_lt {p q : Path} (h : compare p q = .lt) : (p == q) = false := by
  rw [← Std.LawfulBEqOrd.not_compare_eq_iff_beq_eq_false, h]
  decide

theorem not_beq_of_gt {p q : Path} (h : compare p q = .gt) : (p == q) = false := by
  rw [← Std.LawfulBEqOrd.not_compare_eq_iff_beq_eq_false, h]
  decide

/-- Lists of paths are `==` when the paths have the same components one by one. -/
theorem list_beq_of_map_components {ps qs : List Path}
    (h : ps.map components = qs.map components) : ps == qs := by
  induction ps generalizing qs with
  | nil =>
    cases qs with
    | nil => rfl
    | cons q qs => simp at h
  | cons p ps ih =>
    cases qs with
    | nil => simp at h
    | cons q qs =>
      simp only [List.map_cons, List.cons.injEq] at h
      rw [List.cons_beq_cons, beq_iff.2 h.1, ih h.2]
      rfl

end Path

/-! ## Sets of paths -/

namespace PathSet

theorem contains_eq_true {s : PathSet} {p : Path} : s.contains p ↔ ∃ q ∈ s.toList, q == p := by
  unfold contains
  exact List.any_eq_true

/-- Which of some `==` paths is asked for makes no difference. -/
theorem contains_congr {s : PathSet} {p q : Path} (h : p == q) : s.contains p = s.contains q := by
  unfold contains
  congr 1
  funext r
  exact BEq.congr_right h

theorem any_insertIn (p q : Path) (ps : List Path) :
    (insertIn p ps).any (· == q) = (p == q || ps.any (· == q)) := by
  induction ps with
  | nil => simp [insertIn]
  | cons r rest ih =>
    unfold insertIn
    cases h : compare p r with
    | lt => simp
    | eq =>
      have hr : p == r := Std.LawfulBEqOrd.compare_eq_iff_beq.1 h
      simp [BEq.congr_left hr]
    | gt =>
      simp only [List.any_cons, ih]
      cases r == q <;> simp

@[simp] theorem contains_empty (p : Path) : contains {} p = false := rfl

@[simp] theorem contains_insert (s : PathSet) (p q : Path) :
    (s.insert p).contains q = (p == q || s.contains q) :=
  any_insertIn p q s.toList

@[simp] theorem contains_erase (s : PathSet) (p q : Path) :
    (s.erase p).contains q = (!(p == q) && s.contains q) := by
  unfold contains erase
  rw [Bool.eq_iff_iff]
  simp only [List.any_eq_true, List.mem_filter, Bool.and_eq_true, Bool.not_eq_true']
  constructor
  · rintro ⟨r, ⟨hr, hp⟩, hq⟩
    refine ⟨?_, r, hr, hq⟩
    rw [BEq.comm, ← BEq.congr_left hq]
    exact hp
  · rintro ⟨hp, r, hr, hq⟩
    refine ⟨r, ⟨hr, ?_⟩, hq⟩
    rw [BEq.congr_left hq, BEq.comm]
    exact hp

theorem contains_foldl_insert (ps : List Path) (s : PathSet) (q : Path) :
    (ps.foldl insert s).contains q = (s.contains q || ps.any (· == q)) := by
  induction ps generalizing s with
  | nil => simp
  | cons p ps ih =>
    rw [List.foldl_cons, ih, contains_insert, List.any_cons]
    cases p == q <;> simp

@[simp] theorem contains_ofList (ps : List Path) (q : Path) :
    (ofList ps).contains q = ps.any (· == q) := by
  rw [ofList, contains_foldl_insert]
  rfl

theorem mem_diff {s t : PathSet} {p : Path} :
    p ∈ s.diff t ↔ p ∈ s.toList ∧ t.contains p = false := by
  unfold diff
  rw [List.mem_filter, Bool.not_eq_true']

/-- What is not in a set, `==` paths included, can be taken out of it without a change. -/
theorem erase_of_not_contains {s : PathSet} {p : Path} (h : s.contains p = false) :
    s.erase p = s := by
  unfold erase
  rw [List.filter_eq_self.2]
  intro q hq
  rw [Bool.not_eq_true']
  unfold contains at h
  exact Bool.not_eq_true _ ▸ List.any_eq_false.1 h q hq

/-! ## Order -/

/-- The paths of a set are listed in order, each once. -/
def Sorted (s : PathSet) : Prop := s.toList.Pairwise fun p q => compare p q = .lt

theorem sorted_empty : Sorted {} := List.Pairwise.nil

theorem mem_insertIn {p q : Path} {ps : List Path} (h : q ∈ insertIn p ps) : q = p ∨ q ∈ ps := by
  induction ps with
  | nil => exact Or.inl (List.mem_singleton.1 h)
  | cons r rest ih =>
    unfold insertIn at h
    split at h
    · exact List.mem_cons.1 h
    · exact Or.inr h
    · rcases List.mem_cons.1 h with rfl | h
      · exact Or.inr List.mem_cons_self
      · exact (ih h).imp_right (List.mem_cons_of_mem _)

theorem sorted_insertIn (p : Path) {ps : List Path}
    (h : ps.Pairwise fun p q => compare p q = .lt) :
    (insertIn p ps).Pairwise fun p q => compare p q = .lt := by
  induction ps with
  | nil => exact List.pairwise_singleton _ p
  | cons r rest ih =>
    obtain ⟨hr, hrest⟩ := List.pairwise_cons.1 h
    unfold insertIn
    split
    · next hlt =>
      refine List.pairwise_cons.2 ⟨fun q hq => ?_, h⟩
      rcases List.mem_cons.1 hq with rfl | hq
      · exact hlt
      · exact TransCmp.lt_trans hlt (hr q hq)
    · exact h
    · next hgt =>
      refine List.pairwise_cons.2 ⟨fun q hq => ?_, ih hrest⟩
      rcases mem_insertIn hq with rfl | hq
      · exact OrientedCmp.gt_iff_lt.1 hgt
      · exact hr q hq

theorem Sorted.insert {s : PathSet} (h : s.Sorted) (p : Path) : (s.insert p).Sorted :=
  sorted_insertIn p h

theorem Sorted.erase {s : PathSet} (h : s.Sorted) (p : Path) : (s.erase p).Sorted :=
  List.Pairwise.filter _ h

theorem sorted_ofList (ps : List Path) : (ofList ps).Sorted := by
  have fold (ps : List Path) : ∀ s : PathSet, s.Sorted → (ps.foldl insert s).Sorted := by
    induction ps with
    | nil => exact fun _ hs => hs
    | cons p ps ih => exact fun s hs => ih _ (hs.insert p)
  exact fold ps {} sorted_empty

/-- Lists in order of a key, each key once, are equal when they have the same members. -/
theorem eq_of_sorted_of_mem {α β : Type} [Ord β] [TransOrd β] (key : α → β) {as bs : List α}
    (has : as.Pairwise fun a b => compare (key a) (key b) = .lt)
    (hbs : bs.Pairwise fun a b => compare (key a) (key b) = .lt)
    (h : ∀ a, a ∈ as ↔ a ∈ bs) : as = bs := by
  have nodup {cs : List α} (hcs : cs.Pairwise fun a b => compare (key a) (key b) = .lt) :
      cs.Nodup := by
    refine hcs.imp fun {a b} hab heq => ?_
    have hself : compare (key b) (key b) = .eq := Std.ReflOrd.compare_self
    rw [heq, hself] at hab
    exact Ordering.noConfusion hab
  have perm : as.Perm bs := (List.perm_ext_iff_of_nodup (nodup has) (nodup hbs)).2 h
  refine perm.eq_of_pairwise (fun a b _ _ hab hba => ?_) has hbs
  rw [← OrientedCmp.gt_iff_lt, hab] at hba
  exact Ordering.noConfusion hba

/-- Two sets in order with the same paths list the same components. -/
theorem Sorted.components_of_contains {s t : PathSet} (hs : s.Sorted) (ht : t.Sorted)
    (h : ∀ p, s.contains p = t.contains p) :
    s.toList.map Path.components = t.toList.map Path.components := by
  have sub {u v : PathSet} (huv : ∀ p, u.contains p = v.contains p) (c : List Component)
      (hc : c ∈ u.toList.map Path.components) : c ∈ v.toList.map Path.components := by
    obtain ⟨p, hp, rfl⟩ := List.mem_map.1 hc
    have hv : v.contains p := huv p ▸ contains_eq_true.2 ⟨p, hp, BEq.rfl⟩
    obtain ⟨q, hq, hqp⟩ := contains_eq_true.1 hv
    exact List.mem_map.2 ⟨q, hq, Path.beq_iff.1 hqp⟩
  exact eq_of_sorted_of_mem id (List.pairwise_map.2 hs) (List.pairwise_map.2 ht) fun c =>
    ⟨sub h c, sub (fun p => (h p).symm) c⟩

/-- Two sets in order with the same paths list them the same, but for how they are written. -/
theorem Sorted.beq_of_contains {s t : PathSet} (hs : s.Sorted) (ht : t.Sorted)
    (h : ∀ p, s.contains p = t.contains p) : s.toList == t.toList :=
  Path.list_beq_of_map_components (hs.components_of_contains ht h)

end PathSet

end SimFront
