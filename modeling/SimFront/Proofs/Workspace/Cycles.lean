import Mathlib.Data.List.Chain
import Mathlib.Data.List.Perm.Subperm
import Mathlib.Data.List.Rotate
import Mathlib.Data.List.TakeWhile
import Mathlib.Logic.Relation
import SimFront.Proofs.Workspace.Run
import SimFront.Proofs.Workspace.Search

/-!
# The cycles that a search finds

A search keeps a trail of documents, each of which depends on the next (`Trail`), and
what it has found so far fits to it (`Found`).  Every list that it records is a cycle; a
document that it has left lies on none, unless one was recorded among the documents that
depend on each other with it; and a recorded cycle either has a document that the search
has left, or still stands on the trail, so that no cycle is recorded twice.  Visiting a
document keeps all this (`visit_found`), and the search visits every document
(`cycles_exact`).
-/

namespace SimFront

open Relation (TransGen ReflTransGen)

/-! ## Dependencies and cycles -/

namespace Documents

/-- The document with a path depends on another path. -/
def Depends (ds : Documents) (p q : Path) : Prop :=
  ∃ d ∈ ds.toList, d.id == p ∧ d.dependencies.contains q

/-- Different documents, each of which depends on the next one, and the last on the first. -/
structure IsCycle (ds : Documents) (c : List Path) : Prop where
  distinct : c.Pairwise fun p q => (p == q) = false
  documents : ∀ p ∈ c, ds.contains p
  closed : ∃ first rest, c = first :: rest ∧ (c ++ [first]).IsChain ds.Depends

variable {ds : Documents} {p q r : Path}

theorem Depends.congr (h : ds.Depends p q) {p' q' : Path} (hp : p == p') (hq : q == q') :
    ds.Depends p' q' := by
  obtain ⟨d, hd, hid, hdep⟩ := h
  exact ⟨d, hd, BEq.trans hid hp, PathSet.contains_congr hq ▸ hdep⟩

theorem Depends.contains (h : ds.Depends p q) : ds.contains p := by
  obtain ⟨d, hd, hid, -⟩ := h
  exact contains_eq_true.2 ⟨d, hd, hid⟩

theorem leads_congr_left (h : TransGen ds.Depends p r) (hp : p == q) :
    TransGen ds.Depends q r := by
  obtain ⟨next, hstep, hrest⟩ := TransGen.head'_iff.1 h
  exact TransGen.head'_iff.2 ⟨next, hstep.congr hp BEq.rfl, hrest⟩

theorem leads_congr_right (h : TransGen ds.Depends r p) (hp : p == q) :
    TransGen ds.Depends r q := by
  obtain ⟨last, hrest, hstep⟩ := TransGen.tail'_iff.1 h
  exact TransGen.tail'_iff.2 ⟨last, hrest, hstep.congr BEq.rfl hp⟩

/-- Everything on a chain leads to the end of it. -/
theorem leads_to_end {c : List Path} {last : Path} (h : (c ++ [last]).IsChain ds.Depends)
    (hr : r ∈ c) : TransGen ds.Depends r last :=
  (List.pairwise_append.1 (List.isChain_iff_pairwise.1 (h.imp fun _ _ => TransGen.single))).2.2
    r hr last List.mem_cons_self

/-- Everything on a cycle leads to everything on it. -/
theorem IsCycle.leads {c : List Path} (h : ds.IsCycle c) (hp : p ∈ c) (hq : q ∈ c) :
    TransGen ds.Depends p q := by
  obtain ⟨first, rest, rfl, hchain⟩ := h.closed
  have pairs : (first :: rest ++ [first]).Pairwise (TransGen ds.Depends) :=
    List.isChain_iff_pairwise.1 (hchain.imp fun _ _ => TransGen.single)
  have fromFirst : TransGen ds.Depends first q := by
    rcases List.mem_cons.1 hq with rfl | hq
    · exact leads_to_end hchain List.mem_cons_self
    · exact (List.pairwise_cons.1 pairs).1 q (List.mem_append_left _ hq)
  exact (leads_to_end hchain hp).trans fromFirst

/-! ## What the search follows -/

theorem depends_of_mem_targets (h : q ∈ ds.targets p) : ds.Depends p q := by
  unfold targets at h
  split at h
  · next d hd =>
    obtain ⟨hmem, hid⟩ := mem_of_find? hd
    exact ⟨d, hmem, hid, PathSet.contains_eq_true.2 ⟨q, h, BEq.rfl⟩⟩
  · cases h

theorem Sorted.exists_mem_targets (hsorted : ds.Sorted) (h : ds.Depends p q) :
    ∃ t ∈ ds.targets p, t == q := by
  obtain ⟨d, hd, hid, hdep⟩ := h
  unfold targets
  rw [hsorted.find?_eq_some.2 ⟨hd, hid⟩]
  exact PathSet.contains_eq_true.1 hdep

theorem targets_distinct (hdeps : ∀ d ∈ ds.toList, d.dependencies.Sorted) (p : Path) :
    (ds.targets p).Pairwise fun q r => (q == r) = false := by
  unfold targets
  split
  · next d hd => exact (hdeps d (mem_of_find? hd).1).imp Path.not_beq_of_lt
  · exact List.Pairwise.nil

/-- All paths that a search can come to. -/
def places (ds : Documents) : List Path :=
  ds.ids ++ ds.toList.flatMap (·.dependencies.toList)

theorem trailBound_eq_places (ds : Documents) : ds.trailBound = 1 + ds.places.length := by
  unfold trailBound places ids size
  rw [List.length_append, List.length_map, Nat.add_assoc]

theorem mem_places_of_mem_targets (h : q ∈ ds.targets p) : q ∈ ds.places := by
  unfold targets at h
  split at h
  · next d hd =>
    exact List.mem_append_right _ (List.mem_flatMap.2 ⟨d, (mem_of_find? hd).1, h⟩)
  · cases h

end Documents

namespace CycleSearch

open Documents

variable {ds : Documents} {trail front : List Path} {p q x y : Path} {s s' s'' : CycleSearch}

/-! ## Trails -/

/-- The documents that a search is in: each depends on the next, and none is there twice. -/
structure Trail (ds : Documents) (trail : List Path) : Prop where
  chain : trail.IsChain ds.Depends
  distinct : trail.Pairwise fun p q => (p == q) = false
  known : ∀ p ∈ trail, p ∈ ds.places

theorem Trail.singleton (hp : p ∈ ds.places) : Trail ds [p] where
  chain := List.isChain_singleton p
  distinct := List.pairwise_singleton _ p
  known _ hq := List.mem_singleton.1 hq ▸ hp

theorem Trail.extend (h : Trail ds (front ++ [x])) (hy : y ∈ ds.targets x)
    (hnew : ∀ q ∈ front ++ [x], (q == y) = false) : Trail ds (front ++ [x] ++ [y]) where
  chain := by
    refine List.isChain_append.2 ⟨h.chain, List.isChain_singleton y, ?_⟩
    intro a ha b hb
    rw [List.getLast?_concat, Option.mem_some_iff] at ha
    rw [List.head?_cons, Option.mem_some_iff] at hb
    subst ha hb
    exact depends_of_mem_targets hy
  distinct := by
    refine List.pairwise_append.2 ⟨h.distinct, List.pairwise_singleton _ y, fun q hq b hb => ?_⟩
    rw [List.mem_singleton.1 hb]
    exact hnew q hq
  known := by
    intro q hq
    rcases List.mem_append.1 hq with hq | hq
    · exact h.known q hq
    · rw [List.mem_singleton.1 hq]
      exact mem_places_of_mem_targets hy

/-- A trail is shorter than the bound. -/
theorem Trail.length_lt (h : Trail ds trail) : trail.length < ds.trailBound := by
  have nodup : (trail.map Path.components).Nodup := by
    refine List.pairwise_map.2 (h.distinct.imp fun {p q} hpq heq => ?_)
    rw [Path.beq_iff.2 heq] at hpq
    cases hpq
  have sub : trail.map Path.components ⊆ ds.places.map Path.components :=
    List.map_subset _ fun p hp => h.known p hp
  have hle := (List.subperm_of_subset nodup sub).length_le
  rw [List.length_map, List.length_map] at hle
  rw [trailBound_eq_places]
  omega

theorem cycleFrom?_eq_none (h : cycleFrom? trail p = none) : ∀ q ∈ trail, (q == p) = false := by
  unfold cycleFrom? at h
  split at h
  · next hdrop =>
    intro q hq
    have hall := List.dropWhile_eq_nil_iff.1 hdrop q hq
    exact Bool.not_eq_true' _ ▸ hall
  · cases h

/-- A cycle of the trail starts at the path that the search came back to. -/
theorem cycleFrom?_eq_some {c : List Path} (h : cycleFrom? trail p = some c) :
    c <:+ trail ∧ ∃ first rest, c = first :: rest ∧ first == p := by
  unfold cycleFrom? at h
  split at h
  · cases h
  · next cycle hne =>
    obtain rfl := Option.some.inj h
    refine ⟨List.dropWhile_suffix _, ?_⟩
    cases hdrop : trail.dropWhile fun q => !(q == p) with
    | nil => exact absurd hdrop hne
    | cons first rest =>
      refine ⟨first, rest, rfl, ?_⟩
      have hfirst := List.head_dropWhile_not (fun q => !(q == p)) (l := trail)
        (by rw [hdrop]; exact List.cons_ne_nil first rest)
      simpa [hdrop] using hfirst

/-! ## Recorded cycles -/

/-- A part of a trail that ends with it ends in the document that the search is at. -/
theorem mem_of_suffix {c : List Path} (h : c <:+ front ++ [x]) (hne : c ≠ []) : x ∈ c := by
  rcases List.suffix_concat_iff.1 h with rfl | ⟨t, rfl, -⟩
  · exact absurd rfl hne
  · exact List.mem_append_right t List.mem_cons_self

/-- Where the search comes back to a document that it is in, it has found a cycle. -/
theorem Trail.isCycle (h : Trail ds (front ++ [x])) (hxy : ds.Depends x y) {c : List Path}
    (hc : cycleFrom? (front ++ [x]) y = some c) : ds.IsCycle c ∧ x ∈ c := by
  obtain ⟨hsuffix, first, rest, rfl, hfirst⟩ := cycleFrom?_eq_some hc
  have hx : x ∈ first :: rest := mem_of_suffix hsuffix (List.cons_ne_nil first rest)
  have hchain : (first :: rest ++ [first]).IsChain ds.Depends := by
    refine List.isChain_append.2 ⟨h.chain.suffix hsuffix, List.isChain_singleton first, ?_⟩
    intro a ha b hb
    rcases List.suffix_concat_iff.1 hsuffix with hnil | ⟨t, ht, -⟩
    · cases hnil
    · rw [ht, List.getLast?_concat, Option.mem_some_iff] at ha
      rw [List.head?_cons, Option.mem_some_iff] at hb
      subst ha hb
      exact hxy.congr BEq.rfl (BEq.symm hfirst)
  refine ⟨⟨h.distinct.sublist hsuffix.sublist, fun r hr => ?_, first, rest, rfl, hchain⟩, hx⟩
  obtain ⟨next, hstep, -⟩ := TransGen.head'_iff.1 (leads_to_end hchain hr)
  exact hstep.contains

/-- A search has recorded a cycle among the documents that a document leads to and that lead
back to it. -/
def Recorded (ds : Documents) (cycles : List (List Path)) (p : Path) : Prop :=
  ∃ c ∈ cycles, ∀ r ∈ c, TransGen ds.Depends p r ∧ TransGen ds.Depends r p

/-- The dependencies of a document that lead back to it. -/
def Inner (ds : Documents) (y x : Path) : Prop :=
  ds.Depends x y ∧ TransGen ds.Depends y x

theorem Recorded.mono {cycles cycles' : List (List Path)} (h : Recorded ds cycles p)
    (hsub : cycles ⊆ cycles') : Recorded ds cycles' p := by
  obtain ⟨c, hc, hmutual⟩ := h
  exact ⟨c, hsub hc, hmutual⟩

theorem Recorded.congr {cycles : List (List Path)} (h : Recorded ds cycles p) (hpq : p == q) :
    Recorded ds cycles q := by
  obtain ⟨c, hc, hmutual⟩ := h
  exact ⟨c, hc, fun r hr => ⟨leads_congr_left (hmutual r hr).1 hpq,
    leads_congr_right (hmutual r hr).2 hpq⟩⟩

/-- Documents that lead to each other have the same cycles. -/
theorem Recorded.trans {cycles : List (List Path)} (h : Recorded ds cycles q)
    (hpq : TransGen ds.Depends p q) (hqp : TransGen ds.Depends q p) : Recorded ds cycles p := by
  obtain ⟨c, hc, hmutual⟩ := h
  exact ⟨c, hc, fun r hr => ⟨hpq.trans (hmutual r hr).1, (hmutual r hr).2.trans hqp⟩⟩

theorem acc_congr (h : Acc (Inner ds) p) (hpq : p == q) : Acc (Inner ds) q := by
  refine Acc.intro q fun y hy => h.inv ⟨hy.1.congr (BEq.symm hpq) BEq.rfl, ?_⟩
  exact leads_congr_right hy.2 (BEq.symm hpq)

/-- A document that leads to itself is not accessible along the dependencies that lead back. -/
theorem not_leads_of_acc (h : Acc (Inner ds) p) : ¬ TransGen ds.Depends p p := by
  induction h with
  | intro p _ ih =>
    intro hpp
    obtain ⟨next, hstep, hrest⟩ := TransGen.head'_iff.1 hpp
    rcases Relation.reflTransGen_iff_eq_or_transGen.1 hrest with rfl | hrest
    · exact ih p ⟨hstep, hpp⟩ hpp
    · exact ih next ⟨hstep, hrest⟩ (hrest.tail hstep)

/-! ## What a search has found -/

/-- What a search that is on a trail has found so far. -/
structure Found (ds : Documents) (trail : List Path) (s : CycleSearch) : Prop where
  /-- The search has left no document of the trail. -/
  apart : ∀ p ∈ trail, s.done.contains p = false
  sound : ∀ c ∈ s.cycles, ds.IsCycle c
  /-- A document that the search has left lies on no cycle, unless one was recorded. -/
  settled : ∀ p, s.done.contains p → Recorded ds s.cycles p ∨ Acc (Inner ds) p
  /-- The search has left a document of each cycle, or all of them are still on the trail. -/
  located : ∀ c ∈ s.cycles, (∃ r ∈ c, s.done.contains r) ∨ c <:+: trail
  unrepeated : s.cycles.Pairwise fun c c' =>
    ¬ (c.map Path.components).IsRotated (c'.map Path.components)

theorem found_start : Found ds [] {} where
  apart _ hp := nomatch hp
  sound _ hc := nomatch hc
  settled _ hp := nomatch hp
  located _ hc := nomatch hc
  unrepeated := List.Pairwise.nil

theorem Found.enter (h : Found ds front s) (hp : s.done.contains p = false) :
    Found ds (front ++ [p]) s where
  apart := by
    intro q hq
    rcases List.mem_append.1 hq with hq | hq
    · exact h.apart q hq
    · rw [List.mem_singleton.1 hq]
      exact hp
  sound := h.sound
  settled := h.settled
  located c hc := (h.located c hc).imp_right List.infix_append_of_infix_left
  unrepeated := h.unrepeated

/-- A cycle of which the search has left a document is none of the trail. -/
theorem Found.not_isRotated_of_done (h : Found ds trail s) {c c' : List Path} (hc : c <:+ trail)
    {r : Path} (hr : r ∈ c') (hdone : s.done.contains r) :
    ¬ (c'.map Path.components).IsRotated (c.map Path.components) := by
  intro hrotated
  obtain ⟨q, hq, hqr⟩ := List.mem_map.1 (hrotated.mem_iff.1 (List.mem_map_of_mem hr))
  have hsame : q == r := Path.beq_iff.2 hqr
  have hapart := h.apart q (hc.subset hq)
  rw [PathSet.contains_congr hsame, hdone] at hapart
  cases hapart

/-- A cycle that starts at a dependency which none of the trail starts at is a new one. -/
theorem Found.not_isRotated (h : Found ds (front ++ [x]) s) (ht : Trail ds (front ++ [x]))
    {first : Path} {rest : List Path} (hc : first :: rest <:+ front ++ [x]) {c' : List Path}
    (hc' : c' ∈ s.cycles)
    (hnew : c' <:+ front ++ [x] → ∀ q ∈ c'.head?, (q == first) = false) :
    ¬ (c'.map Path.components).IsRotated ((first :: rest).map Path.components) := by
  rcases h.located c' hc' with ⟨r, hr, hdone⟩ | hpart
  · exact h.not_isRotated_of_done hc hr hdone
  · intro hrotated
    rcases List.infix_concat_iff.1 hpart with hsuffix | hpart
    · -- both end with the trail and are equally long, so that they are one
      have hlength : c'.length = (first :: rest).length := by
        simpa only [List.length_map] using hrotated.perm.length_eq
      have hsame : c' = first :: rest :=
        (List.suffix_of_suffix_length_le hsuffix hc hlength.le).eq_of_length hlength
      subst hsame
      have hself := hnew hsuffix first rfl
      rw [BEq.rfl] at hself
      cases hself
    · -- the document that the search is at is only on one of them
      have hx := List.mem_map_of_mem (f := Path.components)
        (mem_of_suffix hc (List.cons_ne_nil first rest))
      obtain ⟨q, hq, hqx⟩ := List.mem_map.1 (hrotated.mem_iff.2 hx)
      have hapart := (List.pairwise_append.1 ht.distinct).2.2 q (hpart.mem hq) x
        List.mem_cons_self
      rw [Path.beq_iff.2 hqx] at hapart
      cases hapart

theorem Found.record (h : Found ds (front ++ [x]) s) (ht : Trail ds (front ++ [x]))
    (hxy : ds.Depends x y) {c : List Path} (hc : cycleFrom? (front ++ [x]) y = some c)
    (hnew : ∀ c' ∈ s.cycles, c' <:+ front ++ [x] → ∀ q ∈ c'.head?, (q == y) = false) :
    Found ds (front ++ [x]) { s with cycles := s.cycles ++ [c] } where
  apart := h.apart
  sound := by
    intro c' hc'
    rcases List.mem_append.1 hc' with hc' | hc'
    · exact h.sound c' hc'
    · rw [List.mem_singleton.1 hc']
      exact (ht.isCycle hxy hc).1
  settled p hp := (h.settled p hp).imp_left (·.mono (List.subset_append_left _ _))
  located := by
    intro c' hc'
    rcases List.mem_append.1 hc' with hc' | hc'
    · exact h.located c' hc'
    · rw [List.mem_singleton.1 hc']
      exact Or.inr (cycleFrom?_eq_some hc).1.isInfix
  unrepeated := by
    obtain ⟨hsuffix, first, rest, rfl, hfirst⟩ := cycleFrom?_eq_some hc
    refine List.pairwise_append.2 ⟨h.unrepeated, List.pairwise_singleton _ _, ?_⟩
    intro c' hc' b hb
    rw [List.mem_singleton.1 hb]
    refine h.not_isRotated ht hsuffix hc' fun hc'suffix q hq => ?_
    rw [BEq.congr_right hfirst]
    exact hnew c' hc' hc'suffix q hq

/-- When the search leaves a document, it has left the dependencies of it, or has recorded a
cycle that the document is on. -/
theorem Found.leave (hsorted : ds.Sorted) (h : Found ds (front ++ [x]) s)
    (ht : Trail ds (front ++ [x]))
    (hreached : ∀ y ∈ ds.targets x, s.done.contains y ∨ Recorded ds s.cycles x) :
    Found ds front { s with done := s.done.insert x } where
  apart := by
    intro q hq
    have hxq : (x == q) = false := by
      rw [BEq.comm]
      exact (List.pairwise_append.1 ht.distinct).2.2 q hq x List.mem_cons_self
    rw [PathSet.contains_insert, hxq, Bool.false_or]
    exact h.apart q (List.mem_append_left _ hq)
  sound := h.sound
  settled := by
    have self : Recorded ds s.cycles x ∨ Acc (Inner ds) x := by
      by_cases hrecorded : Recorded ds s.cycles x
      · exact Or.inl hrecorded
      · refine Or.inr (Acc.intro x fun y ⟨hxy, hyx⟩ => ?_)
        obtain ⟨t, ht, hty⟩ := hsorted.exists_mem_targets hxy
        have hdone : s.done.contains y := by
          rw [← PathSet.contains_congr hty]
          exact (hreached t ht).resolve_right hrecorded
        refine (h.settled y hdone).resolve_left fun hy => hrecorded ?_
        exact hy.trans (TransGen.single hxy) hyx
    intro p hp
    rw [PathSet.contains_insert, Bool.or_eq_true] at hp
    rcases hp with hxp | hp
    · exact self.imp (·.congr hxp) (acc_congr · hxp)
    · exact h.settled p hp
  located := by
    intro c hc
    have left {r : Path} (hr : r ∈ c) (hdone : s.done.contains r ∨ x == r) :
        ∃ r ∈ c, (s.done.insert x).contains r :=
      ⟨r, hr, by rw [PathSet.contains_insert, Bool.or_eq_true]; exact hdone.symm⟩
    rcases h.located c hc with ⟨r, hr, hdone⟩ | hpart
    · exact Or.inl (left hr (Or.inl hdone))
    · rcases List.infix_concat_iff.1 hpart with hsuffix | hpart
      · obtain ⟨first, rest, hcons, -⟩ := (h.sound c hc).closed
        have hne : c ≠ [] := hcons ▸ List.cons_ne_nil first rest
        exact Or.inl (left (mem_of_suffix hsuffix hne) (Or.inr BEq.rfl))
      · exact Or.inr hpart
  unrepeated := h.unrepeated

/-! ## Visits -/

/-- What a part of a search adds to what was found before: documents that it has left, and
cycles each with a document that it has left or that is one of its own. -/
structure Extends (s s' : CycleSearch) (own : List Path) : Prop where
  done : ∀ p, s.done.contains p → s'.done.contains p
  kept : s.cycles ⊆ s'.cycles
  fresh : ∀ c ∈ s'.cycles, c ∈ s.cycles ∨ ∃ r ∈ c, s'.done.contains r ∨ r ∈ own

theorem Extends.refl (s : CycleSearch) (own : List Path) : Extends s s own :=
  ⟨fun _ hp => hp, fun _ hc => hc, fun _ hc => Or.inl hc⟩

theorem Extends.trans {own : List Path} (h : Extends s s' own) (h' : Extends s' s'' own) :
    Extends s s'' own where
  done p hp := h'.done p (h.done p hp)
  kept _ hc := h'.kept (h.kept hc)
  fresh := by
    intro c hc
    rcases h'.fresh c hc with hc | hc
    · refine (h.fresh c hc).imp_right fun ⟨r, hr, hown⟩ => ⟨r, hr, hown.imp_left (h'.done r)⟩
    · exact Or.inr hc

/-- A visit of a path, on a trail that it is not on, leaves it and keeps to what the search
should have found. -/
def Visits (ds : Documents) (trail : List Path) (visit : Path → CycleSearch → CycleSearch) :
    Prop :=
  ∀ {p s}, Trail ds (trail ++ [p]) → Found ds trail s → s.done.contains p = false →
    Found ds trail (visit p s) ∧ (visit p s).done.contains p ∧ Extends s (visit p s) []

/-- What is known at a document after some of its dependencies. -/
structure Along (ds : Documents) (front : List Path) (x : Path) (seen : List Path)
    (s s' : CycleSearch) : Prop where
  found : Found ds (front ++ [x]) s'
  reached : ∀ y ∈ seen, s'.done.contains y ∨ Recorded ds s'.cycles x
  /-- A cycle that ends with the trail starts at a dependency that was seen. -/
  started : ∀ c ∈ s'.cycles, c <:+ front ++ [x] → ∃ q ∈ c.head?, ∃ y ∈ seen, q == y
  grown : Extends s s' [x]

theorem Along.start (h : Found ds (front ++ [x]) s)
    (hfresh : ∀ c ∈ s.cycles, ¬ c <:+ front ++ [x]) : Along ds front x [] s s where
  found := h
  reached _ hy := nomatch hy
  started c hc hsuffix := absurd hsuffix (hfresh c hc)
  grown := Extends.refl s [x]

theorem Along.later {seen : List Path} (h : Along ds front x seen s s')
    (hfound : Found ds (front ++ [x]) s'') (hgrown : Extends s' s'' [x])
    (hy : s''.done.contains y ∨ Recorded ds s''.cycles x)
    (hstarted : ∀ c ∈ s''.cycles, c <:+ front ++ [x] →
      c ∈ s'.cycles ∨ ∃ q ∈ c.head?, q == y) :
    Along ds front x (seen ++ [y]) s s'' where
  found := hfound
  reached := by
    intro z hz
    rcases List.mem_append.1 hz with hz | hz
    · exact (h.reached z hz).imp (hgrown.done z) (·.mono hgrown.kept)
    · rw [List.mem_singleton.1 hz]
      exact hy
  started := by
    intro c hc hsuffix
    rcases hstarted c hc hsuffix with hc | ⟨q, hq, hqy⟩
    · obtain ⟨q, hq, z, hz, hqz⟩ := h.started c hc hsuffix
      exact ⟨q, hq, z, List.mem_append_left _ hz, hqz⟩
    · exact ⟨q, hq, y, List.mem_append_right _ List.mem_cons_self, hqy⟩
  grown := h.grown.trans hgrown

theorem Along.step {seen : List Path} (h : Along ds front x seen s s')
    (ht : Trail ds (front ++ [x])) {visit : Path → CycleSearch → CycleSearch}
    (hvisit : Visits ds (front ++ [x]) visit) (hy : y ∈ ds.targets x)
    (hnew : ∀ z ∈ seen, (z == y) = false) :
    Along ds front x (seen ++ [y]) s (CycleSearch.step visit (front ++ [x]) s' y) := by
  unfold CycleSearch.step
  split
  · next c hc =>
    -- the search is in the dependency
    have hxy := depends_of_mem_targets hy
    obtain ⟨hcycle, hx⟩ := ht.isCycle hxy hc
    have hmem : c ∈ s'.cycles ++ [c] := List.mem_append_right _ List.mem_cons_self
    refine h.later (h.found.record ht hxy hc fun c' hc' hsuffix q hq => ?_) ?_
      (Or.inr ⟨c, hmem, fun r hr => ⟨hcycle.leads hx hr, hcycle.leads hr hx⟩⟩) ?_
    · obtain ⟨q', hq', z, hz, hqz⟩ := h.started c' hc' hsuffix
      obtain rfl := Option.mem_unique hq hq'
      rw [BEq.congr_left hqz]
      exact hnew z hz
    · refine ⟨fun _ hp => hp, List.subset_append_left _ _, fun c' hc' => ?_⟩
      refine (List.mem_append.1 hc').imp_right fun hc' => ⟨x, ?_, Or.inr List.mem_cons_self⟩
      rw [List.mem_singleton.1 hc']
      exact hx
    · intro c' hc' _
      refine (List.mem_append.1 hc').imp_right fun hc' => ?_
      obtain ⟨-, first, rest, hcons, hfirst⟩ := cycleFrom?_eq_some hc
      exact ⟨first, by rw [List.mem_singleton.1 hc', hcons]; rfl, hfirst⟩
  · next hc =>
    split
    · next hdone =>
      -- the search has left the dependency
      exact h.later h.found (Extends.refl s' [x]) (Or.inl hdone) fun _ hc _ => Or.inl hc
    · next hdone =>
      rw [Bool.not_eq_true] at hdone
      obtain ⟨hfound, hleft, hgrown⟩ :=
        hvisit (ht.extend hy (cycleFrom?_eq_none hc)) h.found hdone
      refine h.later hfound ⟨hgrown.done, hgrown.kept, fun c hc => ?_⟩ (Or.inl hleft)
        fun c hc hsuffix => ?_
      · refine (hgrown.fresh c hc).imp_right fun ⟨r, hr, hown⟩ => ⟨r, hr, Or.inl ?_⟩
        exact hown.resolve_right List.not_mem_nil
      · -- the cycles of the visit have documents that it has left
        refine (hgrown.fresh c hc).imp_right fun ⟨r, hr, hown⟩ => ?_
        have hapart := hfound.apart r (hsuffix.subset hr)
        rw [hown.resolve_right List.not_mem_nil] at hapart
        cases hapart

/-- All dependencies of a document are seen one after the other. -/
theorem Along.foldl {seen ys : List Path} (h : Along ds front x seen s s')
    (ht : Trail ds (front ++ [x])) {visit : Path → CycleSearch → CycleSearch}
    (hvisit : Visits ds (front ++ [x]) visit) (hys : ∀ y ∈ ys, y ∈ ds.targets x)
    (hdistinct : (seen ++ ys).Pairwise fun y z => (y == z) = false) :
    Along ds front x (seen ++ ys) s
      (ys.foldl (CycleSearch.step visit (front ++ [x])) s') := by
  induction ys generalizing seen s' with
  | nil =>
    rw [List.append_nil]
    exact h
  | cons y ys ih =>
    have hnew (z : Path) (hz : z ∈ seen) : (z == y) = false :=
      (List.pairwise_append.1 hdistinct).2.2 z hz y List.mem_cons_self
    have hstep := h.step ht hvisit (hys y List.mem_cons_self) hnew
    have hlist : seen ++ y :: ys = seen ++ [y] ++ ys := by simp
    rw [hlist] at hdistinct ⊢
    exact ih hstep (fun z hz => hys z (List.mem_cons_of_mem y hz)) hdistinct

/-- No recorded cycle ends with a trail that the search has just extended. -/
theorem Found.not_suffix (h : Found ds front s) (ht : Trail ds (front ++ [x]))
    (hx : s.done.contains x = false) {c : List Path} (hc : c ∈ s.cycles) :
    ¬ c <:+ front ++ [x] := by
  intro hsuffix
  obtain ⟨first, rest, hcons, -⟩ := (h.sound c hc).closed
  rcases h.located c hc with ⟨r, hr, hdone⟩ | hpart
  · have hapart := (h.enter hx).apart r (hsuffix.subset hr)
    rw [hdone] at hapart
    cases hapart
  · have hmem := mem_of_suffix hsuffix (hcons ▸ List.cons_ne_nil first rest)
    have hself := (List.pairwise_append.1 ht.distinct).2.2 x (hpart.mem hmem) x
      List.mem_cons_self
    rw [BEq.rfl] at hself
    cases hself

/-- A visit that can go deep enough leaves its document, and finds what it should. -/
theorem visit_found (hsorted : ds.Sorted) (hdeps : ∀ d ∈ ds.toList, d.dependencies.Sorted)
    (depth : Nat) {trail : List Path} (hdepth : ds.trailBound ≤ depth + trail.length) :
    Visits ds trail (visit ds depth trail) := by
  induction depth generalizing trail with
  | zero =>
    -- the trail would be longer than it can get
    intro p s ht
    have hlength := ht.length_lt
    rw [List.length_append] at hlength
    omega
  | succ depth ih =>
    intro p s ht hfound hp
    rw [visit_succ]
    have hlength : ds.trailBound ≤ depth + (trail ++ [p]).length := by
      rw [List.length_append, List.length_singleton]
      omega
    have start := Along.start (hfound.enter hp) fun c hc => hfound.not_suffix ht hp hc
    have along := start.foldl ht (ih hlength) (fun _ hy => hy) (targets_distinct hdeps p)
    refine ⟨along.found.leave hsorted ht along.reached, ?_, ?_, along.grown.kept, ?_⟩
    · rw [PathSet.contains_insert, BEq.rfl, Bool.true_or]
    · intro q hq
      rw [PathSet.contains_insert, along.grown.done q hq, Bool.or_true]
    · intro c hc
      refine (along.grown.fresh c hc).imp_right fun ⟨r, hr, hown⟩ => ⟨r, hr, Or.inl ?_⟩
      rw [PathSet.contains_insert, Bool.or_eq_true]
      rcases hown with hdone | hown
      · exact Or.inr hdone
      · rw [List.mem_singleton.1 hown]
        exact Or.inl BEq.rfl

/-! ## The whole search -/

/-- A search from several paths in a row leaves all of them. -/
theorem foldl_found {visit : Path → CycleSearch → CycleSearch} (hvisit : Visits ds [] visit)
    {ids : List Path} (hids : ∀ id ∈ ids, id ∈ ds.places) (h : Found ds [] s) :
    Found ds [] (ids.foldl (step visit []) s) ∧
      (∀ p, s.done.contains p → (ids.foldl (step visit []) s).done.contains p) ∧
      ∀ id ∈ ids, (ids.foldl (step visit []) s).done.contains id := by
  induction ids generalizing s with
  | nil => exact ⟨h, fun _ hp => hp, fun _ hid => nomatch hid⟩
  | cons id ids ih =>
    have hrest (q : Path) (hq : q ∈ ids) : q ∈ ds.places := hids q (List.mem_cons_of_mem id hq)
    have hfirst : Found ds [] (step visit [] s id) ∧
        (step visit [] s id).done.contains id ∧
        ∀ p, s.done.contains p → (step visit [] s id).done.contains p := by
      unfold step cycleFrom?
      dsimp only [List.dropWhile_nil]
      split
      · next hdone => exact ⟨h, hdone, fun _ hp => hp⟩
      · next hdone =>
        rw [Bool.not_eq_true] at hdone
        obtain ⟨hfound, hleft, hgrown⟩ :=
          hvisit (Trail.singleton (hids id List.mem_cons_self)) h hdone
        exact ⟨hfound, hleft, hgrown.done⟩
    obtain ⟨hfound, hleft, hkept⟩ := hfirst
    obtain ⟨hall, hkept', hleft'⟩ := ih hrest hfound
    refine ⟨hall, fun p hp => hkept' p (hkept p hp), fun q hq => ?_⟩
    rcases List.mem_cons.1 hq with rfl | hq
    · exact hkept' q hleft
    · exact hleft' q hq

end CycleSearch

namespace Documents

open CycleSearch (Found Visits)

variable {ds : Documents}

theorem searchCycles_found (hsorted : ds.Sorted)
    (hdeps : ∀ d ∈ ds.toList, d.dependencies.Sorted) :
    Found ds [] ds.searchCycles ∧ ∀ id ∈ ds.ids, ds.searchCycles.done.contains id := by
  have hvisit : Visits ds [] (CycleSearch.visit ds ds.trailBound []) :=
    CycleSearch.visit_found hsorted hdeps ds.trailBound le_rfl
  have hids : ∀ id ∈ ds.ids, id ∈ ds.places := fun _ hid => List.mem_append_left _ hid
  obtain ⟨hfound, -, hleft⟩ := CycleSearch.foldl_found hvisit hids CycleSearch.found_start
  exact ⟨hfound, hleft⟩

/-- A cycle is found among the documents that lead to each other with one that leads to
itself. -/
theorem exists_cycle (hsorted : ds.Sorted) (hdeps : ∀ d ∈ ds.toList, d.dependencies.Sorted)
    {p : Path} (hp : TransGen ds.Depends p p) :
    ∃ c ∈ ds.findCycles, ∀ r ∈ c, TransGen ds.Depends p r ∧ TransGen ds.Depends r p := by
  obtain ⟨hfound, hleft⟩ := searchCycles_found hsorted hdeps
  obtain ⟨next, ⟨d, hd, hid, -⟩, -⟩ := TransGen.head'_iff.1 hp
  have hdone : ds.searchCycles.done.contains p := by
    rw [← PathSet.contains_congr hid]
    exact hleft d.id (List.mem_map_of_mem hd)
  exact (hfound.settled p hdone).resolve_right fun hacc => CycleSearch.not_leads_of_acc hacc hp

/-- **Cycles.**  In any collection of documents, every list that the search gives is a cycle of
different documents.  It gives none exactly when no document leads to itself along the
dependencies; wherever two documents lead to each other, one of the cycles lies among the
documents that lead to each other with them.  No two of the lists are equal or rotations of one
another. -/
theorem cycles_exact (hsorted : ds.Sorted)
    (hdeps : ∀ d ∈ ds.toList, d.dependencies.Sorted) :
    (∀ c ∈ ds.findCycles, ds.IsCycle c) ∧
      (ds.findCycles = [] ↔ ∀ p, ¬ TransGen ds.Depends p p) ∧
      (∀ p q, TransGen ds.Depends p q → TransGen ds.Depends q p →
        ∃ c ∈ ds.findCycles, ∀ r ∈ c, TransGen ds.Depends p r ∧ TransGen ds.Depends r p) ∧
      ds.findCycles.Pairwise fun c c' =>
        ¬ (c.map Path.components).IsRotated (c'.map Path.components) := by
  obtain ⟨hfound, -⟩ := searchCycles_found hsorted hdeps
  refine ⟨hfound.sound, ⟨fun hnone p hp => ?_, fun hacyclic => ?_⟩, fun p q hpq hqp => ?_,
    hfound.unrepeated⟩
  · obtain ⟨c, hc, -⟩ := exists_cycle hsorted hdeps hp
    rw [hnone] at hc
    cases hc
  · refine List.eq_nil_iff_forall_not_mem.2 fun c hc => ?_
    obtain ⟨first, rest, hcons, -⟩ := (hfound.sound c hc).closed
    have hfirst : first ∈ c := hcons ▸ List.mem_cons_self
    exact hacyclic first ((hfound.sound c hc).leads hfirst hfirst)
  · exact exists_cycle hsorted hdeps (hpq.trans hqp)

/-- Two cycles through the same edge, and a document that leads to both and is on none. -/
theorem cycles_exact_overlapping :
    let a : Path := ⟨"a.mod"⟩
    let b : Path := ⟨"b.mod"⟩
    let c : Path := ⟨"c.mod"⟩
    let ds : Documents := ⟨[{ id := a, dependencies := ⟨[b]⟩ },
      { id := b, dependencies := ⟨[a, c]⟩ }, { id := c, dependencies := ⟨[a]⟩ },
      { id := ⟨"d.mod"⟩, dependencies := ⟨[a, c]⟩ }]⟩
    ds.Sorted ∧ (∀ d ∈ ds.toList, d.dependencies.Sorted) ∧
      ds.findCycles.map (List.map Path.text) = [["a.mod", "b.mod"], ["a.mod", "b.mod", "c.mod"]] ∧
      (∀ cycle ∈ ds.findCycles, ds.IsCycle cycle) ∧
      ds.findCycles.Pairwise fun c c' =>
        ¬ (c.map Path.components).IsRotated (c'.map Path.components) := by
  intro a b c ds
  have hsorted : ds.Sorted := by
    unfold Sorted
    decide +kernel
  have hdeps : ∀ d ∈ ds.toList, d.dependencies.Sorted := by
    unfold PathSet.Sorted
    decide +kernel
  obtain ⟨hcycles, -, -, hunrepeated⟩ := cycles_exact hsorted hdeps
  exact ⟨hsorted, hdeps, by decide +kernel, hcycles, hunrepeated⟩

end Documents

end SimFront
