import Mathlib.Data.List.Basic
import SimFront.Proofs.Workspace.Documents

/-!
# The edges between documents

Linking a document changes all documents by one function of its old and its new
dependencies (`link_documents`), and nothing else in the workspace.  So it keeps both
ends of every edge in step (`Edged.link`), gives the document the dependencies that
the current names of modules ask for (`linkedAt_link`), and leaves those of the other
documents as they are (`LinkedAt.link`).  Edges kept so are settled by the rest of the
workspace (`edges_determined`).
-/

namespace SimFront

/-! ## What edges change in a document -/

namespace Document

/-- A document without its place in the graph of imports. -/
def withoutEdges (d : Document) : Document := { d with dependencies := {}, dependents := {} }

/-- A document after the dependencies of the one with path `id` changed. -/
def relinked (id : Path) (old new : PathSet) (d : Document) : Document :=
  { d with
    dependencies := if d.id == id then new else d.dependencies,
    dependents :=
      if new.contains d.id then
        if old.contains d.id then d.dependents else d.dependents.insert id
      else if old.contains d.id then d.dependents.erase id
      else d.dependents }

/-- A document after another one, and with it its edges, was taken out. -/
def detached (gone : Document) (d : Document) : Document :=
  { d with
    dependencies := if gone.dependents.contains d.id then d.dependencies.erase gone.id
      else d.dependencies,
    dependents := if gone.dependencies.contains d.id then d.dependents.erase gone.id
      else d.dependents }

variable (id : Path) (old new : PathSet) (d : Document)

@[simp] theorem withoutEdges_id : d.withoutEdges.id = d.id := rfl

@[simp] theorem relinked_withoutEdges :
    (relinked id old new d).withoutEdges = d.withoutEdges := rfl

theorem relinked_dependents_of_ne {p : Path} (h : (id == p) = false) :
    (relinked id old new d).dependents.contains p = d.dependents.contains p := by
  unfold relinked
  dsimp only
  split
  · split
    · rfl
    · rw [PathSet.contains_insert, h, Bool.false_or]
  · split
    · rw [PathSet.contains_erase, h, Bool.not_false, Bool.true_and]
    · rfl

/-- When the edge from the changed document was there at this end before, it is there
afterwards if the changed document still depends on this one. -/
theorem relinked_dependents_self (h : d.dependents.contains id = old.contains d.id) :
    (relinked id old new d).dependents.contains id = new.contains d.id := by
  unfold relinked
  dsimp only
  split
  · next hnew =>
    split
    · next hold => rw [h, hold, hnew]
    · rw [PathSet.contains_insert, BEq.rfl, Bool.true_or, hnew]
  · next hnew =>
    rw [Bool.not_eq_true] at hnew
    split
    · rw [PathSet.contains_erase, BEq.rfl, Bool.not_true, Bool.false_and, hnew]
    · next hold =>
      rw [Bool.not_eq_true] at hold
      rw [h, hold, hnew]

theorem relinked_dependents_sorted (h : d.dependents.Sorted) :
    (relinked id old new d).dependents.Sorted := by
  unfold relinked
  dsimp only
  split <;> split
  · exact h
  · exact h.insert id
  · exact h.erase id
  · exact h

end Document

/-! ## Changes of many documents in a row -/

namespace PathSet

theorem insertIn_insertIn (p : Path) (ps : List Path) :
    insertIn p (insertIn p ps) = insertIn p ps := by
  induction ps with
  | nil =>
    have hself : compare p p = .eq := Std.ReflOrd.compare_self
    simp only [insertIn, hself]
  | cons q rest ih =>
    have hself : compare p p = .eq := Std.ReflOrd.compare_self
    cases h : compare p q with
    | lt => simp only [insertIn, h, hself]
    | eq => simp only [insertIn, h]
    | gt => simp only [insertIn, h, ih]

theorem insert_insert (s : PathSet) (p : Path) : (s.insert p).insert p = s.insert p :=
  congrArg PathSet.mk (insertIn_insertIn p s.toList)

theorem erase_erase (s : PathSet) (p : Path) : (s.erase p).erase p = s.erase p := by
  unfold erase
  simp only [List.filter_filter, Bool.and_self]

theorem any_diff (s t : PathSet) (p : Path) :
    (s.diff t).any (p == ·) = (s.contains p && !t.contains p) := by
  rw [Bool.eq_iff_iff, List.any_eq_true, Bool.and_eq_true, Bool.not_eq_true', contains_eq_true]
  constructor
  · rintro ⟨q, hq, hpq⟩
    obtain ⟨hs, ht⟩ := mem_diff.1 hq
    exact ⟨⟨q, hs, BEq.symm hpq⟩, contains_congr hpq ▸ ht⟩
  · rintro ⟨⟨q, hs, hqp⟩, ht⟩
    exact ⟨q, mem_diff.2 ⟨hs, contains_congr hqp ▸ ht⟩, BEq.symm hqp⟩

theorem any_toList (s : PathSet) (p : Path) : s.toList.any (p == ·) = s.contains p := by
  unfold contains
  congr 1
  funext q
  exact BEq.comm

end PathSet

namespace Documents

/-- Changing the documents of some paths, where a second change to one makes no difference,
is changing all documents by whether their path is one of them. -/
theorem foldl_modify (ps : List Path) (ds : Documents) {f : Document → Document}
    (hid : ∀ d, (f d).id = d.id) (hf : ∀ d, f (f d) = f d) :
    ps.foldl (fun ds p => ds.modify p f) ds =
      ds.map fun d => if ps.any (d.id == ·) then f d else d := by
  induction ps generalizing ds with
  | nil => exact (map_id ds).symm
  | cons p ps ih =>
    rw [List.foldl_cons, ih, modify_eq_map, map_map]
    congr 1
    funext d
    rw [List.any_cons]
    by_cases hp : d.id == p
    · simp only [hp, if_true, Bool.true_or, hid, hf, ite_self]
    · simp only [hp, Bool.false_or, Bool.false_eq_true, if_false]

end Documents

/-! ## Both ends of the edges -/

namespace Documents

/-- Documents in order, each edge of which is known at both of its ends. -/
structure Edged (ds : Documents) : Prop where
  sorted : ds.Sorted
  /-- A path is among the dependents of a document exactly when it is that of a document
  which depends on it. -/
  symmetric : ∀ b ∈ ds.toList, ∀ p, b.dependents.contains p ↔
    ∃ a ∈ ds.toList, a.id == p ∧ a.dependencies.contains b.id
  dependentsSorted : ∀ d ∈ ds.toList, d.dependents.Sorted

theorem Edged.dependents_contains {ds : Documents} (h : ds.Edged) {a b : Document}
    (ha : a ∈ ds.toList) (hb : b ∈ ds.toList) {p : Path} (hp : a.id == p) :
    b.dependents.contains p = a.dependencies.contains b.id := by
  rw [Bool.eq_iff_iff, h.symmetric b hb p]
  constructor
  · rintro ⟨c, hc, hcp, hcb⟩
    rw [h.sorted.eq_of_beq ha hc (BEq.trans hp (BEq.symm hcp))]
    exact hcb
  · exact fun hab => ⟨a, ha, hp, hab⟩

/-- Both ends are still known after a document got other dependencies. -/
theorem Edged.map_relinked {ds : Documents} (h : ds.Edged) {d : Document} {id : Path}
    (hd : ds.find? id = some d) (new : PathSet) :
    (ds.map (Document.relinked id d.dependencies new)).Edged := by
  obtain ⟨hmem, hid⟩ := mem_of_find? hd
  refine ⟨h.sorted.map fun _ => rfl, fun b' hb' p => ?_, fun b' hb' => ?_⟩
  · obtain ⟨b, hb, rfl⟩ := mem_map.1 hb'
    cases hp : id == p with
    | true =>
      have hself : b.dependents.contains id = d.dependencies.contains b.id :=
        h.dependents_contains hmem hb hid
      rw [← PathSet.contains_congr hp, Document.relinked_dependents_self _ _ _ _ hself]
      constructor
      · intro hnew
        refine ⟨_, mem_map.2 ⟨d, hmem, rfl⟩, BEq.trans hid hp, ?_⟩
        show (if d.id == id then new else d.dependencies).contains b.id = true
        rw [if_pos hid]
        exact hnew
      · rintro ⟨a', ha', hap, hab⟩
        obtain ⟨a, ha, rfl⟩ := mem_map.1 ha'
        have haid : a.id == id := BEq.trans hap (BEq.symm hp)
        change (if a.id == id then new else a.dependencies).contains b.id = true at hab
        rw [if_pos haid] at hab
        exact hab
    | false =>
      rw [Document.relinked_dependents_of_ne _ _ _ _ hp, h.symmetric b hb p]
      have other {a : Document} (hap : a.id == p) :
          (Document.relinked id d.dependencies new a).dependencies = a.dependencies := by
        have hne : ¬ a.id == id := by
          rw [BEq.congr_left hap, BEq.comm, hp]
          exact Bool.false_ne_true
        exact if_neg hne
      constructor
      · rintro ⟨a, ha, hap, hab⟩
        refine ⟨_, mem_map.2 ⟨a, ha, rfl⟩, hap, ?_⟩
        rw [other hap]
        exact hab
      · rintro ⟨a', ha', hap, hab⟩
        obtain ⟨a, ha, rfl⟩ := mem_map.1 ha'
        have hap : a.id == p := hap
        rw [other hap] at hab
        exact ⟨a, ha, hap, hab⟩
  · obtain ⟨b, hb, rfl⟩ := mem_map.1 hb'
    exact Document.relinked_dependents_sorted _ _ _ _ (h.dependentsSorted b hb)

end Documents

/-! ## Linking -/

namespace Workspace

/-- Linking a document brings all ends of its edges from what they were to what they
should be. -/
theorem link_documents {w : Workspace} {id : Path} {d : Document}
    (h : w.document? id = some d) :
    (w.link id).documents =
      w.documents.map (Document.relinked id d.dependencies (w.resolveDependencies d)) := by
  unfold link
  rw [h]
  dsimp only
  have erased := Documents.foldl_modify (d.dependencies.diff (w.resolveDependencies d)) w.documents
    (f := fun t => { t with dependents := t.dependents.erase id })
    (fun _ => rfl) fun t => by simp only [PathSet.erase_erase]
  rw [erased]
  have inserted := Documents.foldl_modify ((w.resolveDependencies d).diff d.dependencies)
    (w.documents.map fun t => if (d.dependencies.diff (w.resolveDependencies d)).any (t.id == ·)
      then { t with dependents := t.dependents.erase id } else t)
    (f := fun t => { t with dependents := t.dependents.insert id })
    (fun _ => rfl) fun t => by simp only [PathSet.insert_insert]
  rw [inserted, Documents.modify_eq_map, Documents.map_map, Documents.map_map]
  congr 1
  funext t
  simp only [PathSet.any_diff]
  cases hold : d.dependencies.contains t.id <;>
    cases hnew : (w.resolveDependencies d).contains t.id <;> cases hid : t.id == id <;>
    simp [Document.relinked, hold, hnew, hid]

theorem link_of_none {w : Workspace} {id : Path} (h : w.document? id = none) : w.link id = w := by
  unfold link
  rw [h]

section Frame

variable (w : Workspace) (id : Path)

/-- Linking changes documents alone. -/
theorem link_eq : w.link id = { w with documents := (w.link id).documents } := by
  unfold link
  split <;> rfl

@[simp] theorem link_modules : (w.link id).modules = w.modules := by rw [link_eq]

/-- Linking changes nothing in a document but its edges. -/
theorem link_withoutEdges :
    (w.link id).documents.map Document.withoutEdges =
      w.documents.map Document.withoutEdges := by
  cases h : w.document? id with
  | none => rw [link_of_none h]
  | some d =>
    rw [link_documents h, Documents.map_map]
    rfl

end Frame

theorem edged_link {w : Workspace} (h : w.documents.Edged) (id : Path) :
    (w.link id).documents.Edged := by
  cases hd : w.document? id with
  | none =>
    rw [link_of_none hd]
    exact h
  | some d =>
    rw [link_documents hd]
    exact h.map_relinked hd _

/-- The document of a path, if there is one, has the dependencies that the modules of the
workspace give it. -/
def LinkedAt (w : Workspace) (id : Path) : Prop :=
  ∀ d ∈ w.documents.toList, d.id == id → d.dependencies = w.resolveDependencies d

/-- What a document should depend on hangs neither on edges nor on other documents. -/
theorem resolveDependencies_eq {w v : Workspace} {d e : Document} (hw : v.modules = w.modules)
    (hd : e.withoutEdges = d.withoutEdges) :
    v.resolveDependencies e = w.resolveDependencies d := by
  have congr (x : Document) : w.resolveDependencies x = w.resolveDependencies x.withoutEdges := rfl
  have same : v.resolveDependencies e = w.resolveDependencies e := by
    unfold resolveDependencies
    rw [hw]
  rw [same, congr e, congr d, hd]

theorem linkedAt_link {w : Workspace} (h : w.documents.Sorted) (id : Path) :
    LinkedAt (w.link id) id := by
  intro d' hd' hid
  cases hd : w.document? id with
  | none =>
    rw [link_of_none hd] at hd'
    have hne := Documents.find?_eq_none.1 hd d' hd'
    rw [hne] at hid
    cases hid
  | some d =>
    rw [link_documents hd] at hd'
    obtain ⟨c, hc, rfl⟩ := Documents.mem_map.1 hd'
    obtain ⟨hmem, hdid⟩ := Documents.mem_of_find? hd
    have hcid : c.id == id := hid
    obtain rfl : c = d := h.eq_of_beq hc hmem (BEq.trans hcid (BEq.symm hdid))
    rw [resolveDependencies_eq (link_modules w id) (Document.relinked_withoutEdges _ _ _ c)]
    exact if_pos hid

theorem LinkedAt.link {w : Workspace} {p : Path} (h : LinkedAt w p)
    (hsorted : w.documents.Sorted) (id : Path) : LinkedAt (w.link id) p := by
  intro d' hd' hp
  cases hid : d'.id == id with
  | true => exact linkedAt_link hsorted id d' hd' hid
  | false =>
    cases hd : w.document? id with
    | none =>
      rw [link_of_none hd] at hd' ⊢
      exact h d' hd' hp
    | some d =>
      rw [link_documents hd] at hd'
      obtain ⟨c, hc, rfl⟩ := Documents.mem_map.1 hd'
      have hcid : ¬ c.id == id := by
        rw [Bool.not_eq_true]
        exact hid
      rw [resolveDependencies_eq (link_modules w id) (Document.relinked_withoutEdges _ _ _ c)]
      exact (if_neg hcid).trans (h c hc hp)

/-! ## Linking many documents -/

theorem foldl_link_modules (ids : List Path) (w : Workspace) :
    (ids.foldl link w).modules = w.modules := by
  induction ids generalizing w with
  | nil => rfl
  | cons id ids ih => rw [List.foldl_cons, ih, link_modules]

theorem foldl_link_withoutEdges (ids : List Path) (w : Workspace) :
    (ids.foldl link w).documents.map Document.withoutEdges =
      w.documents.map Document.withoutEdges := by
  induction ids generalizing w with
  | nil => rfl
  | cons id ids ih => rw [List.foldl_cons, ih, link_withoutEdges]

theorem foldl_link_eq (ids : List Path) (w : Workspace) :
    ids.foldl link w = { w with documents := (ids.foldl link w).documents } := by
  induction ids generalizing w with
  | nil => rfl
  | cons id ids ih => rw [List.foldl_cons, ih, link_eq]

theorem foldl_link_holders (ids : List Path) (w : Workspace) (importable : Bool) :
    (ids.foldl link w).holders importable = w.holders importable := by
  rw [foldl_link_eq]
  cases importable <;> rfl

theorem edged_foldl_link {w : Workspace} (h : w.documents.Edged) (ids : List Path) :
    (ids.foldl link w).documents.Edged := by
  induction ids generalizing w with
  | nil => exact h
  | cons id ids ih => exact ih (edged_link h id)

/-- After many documents were linked, each of them is, and so are those that were before. -/
theorem linkedAt_foldl_link {w : Workspace} (h : w.documents.Edged) {ids : List Path} {p : Path}
    (hp : LinkedAt w p ∨ ids.any (· == p)) : LinkedAt (ids.foldl link w) p := by
  induction ids generalizing w with
  | nil =>
    rcases hp with hp | hp
    · exact hp
    · cases hp
  | cons id ids ih =>
    refine ih (edged_link h id) ?_
    rcases hp with hp | hp
    · exact Or.inl (hp.link h.sorted id)
    · rw [List.any_cons, Bool.or_eq_true] at hp
      rcases hp with hid | hp
      · left
        intro d hd hdp
        exact linkedAt_link h.sorted id d hd (BEq.trans hdp (BEq.symm hid))
      · exact Or.inr hp

/-- Whoever imports or implements one of the names is linked afterwards, and so are those
that were before. -/
theorem linkedAt_relinkImporters {w : Workspace} (h : w.documents.Edged) {names : List String}
    {except_ p : Path}
    (hp : LinkedAt w p ∨ ∃ d ∈ w.documents.toList, d.id == p ∧ (d.id == except_) = false ∧
      refersTo names d) : LinkedAt (w.relinkImporters names except_) p := by
  refine linkedAt_foldl_link h (hp.imp_right ?_)
  rintro ⟨d, hd, hdp, hne, hrefers⟩
  refine List.any_eq_true.2 ⟨d.id, List.mem_map.2 ⟨d, List.mem_filter.2 ⟨hd, ?_⟩, rfl⟩, hdp⟩
  rw [hne, hrefers]
  rfl

/-- The dependencies of a document hang on the modules that it refers to alone. -/
theorem resolveDependencies_of_agree {w v : Workspace} (names : List String) {d : Document}
    (h : ∀ n, n ∉ names → Members.find? v.modules n = Members.find? w.modules n)
    (hd : refersTo names d = false) : v.resolveDependencies d = w.resolveDependencies d := by
  unfold refersTo at hd
  rw [Bool.or_eq_false_iff, Bool.and_eq_false_iff] at hd
  obtain ⟨himports, hown⟩ := hd
  have imported : d.imports.filterMap (Members.find? v.modules) =
      d.imports.filterMap (Members.find? w.modules) := by
    refine List.filterMap_congr fun n hn => h n fun hmem => ?_
    exact List.any_eq_false.1 himports n hn (List.contains_iff_mem.2 hmem)
  have definition : (if d.isImplementation then d.moduleName?.bind (Members.find? v.modules)
      else none) = if d.isImplementation then d.moduleName?.bind (Members.find? w.modules)
      else none := by
    split
    · next himpl =>
      cases hname : d.moduleName? with
      | none => rfl
      | some n =>
        refine h n fun hmem => ?_
        rcases hown with hown | hown
        · rw [himpl] at hown
          cases hown
        · rw [hname, Option.any_some, List.contains_iff_mem.2 hmem] at hown
          cases hown
    · rfl
  unfold resolveDependencies
  rw [imported, definition]

/-! ## Linking all documents -/

theorem edged_withoutEdges {ds : Documents} (h : ds.Sorted) :
    (ds.map Document.withoutEdges).Edged := by
  refine ⟨h.map fun _ => rfl, fun b' hb' p => ?_, fun b' hb' => ?_⟩
  · obtain ⟨b, -, rfl⟩ := Documents.mem_map.1 hb'
    constructor
    · intro hp
      cases hp
    · rintro ⟨a', ha', -, hab⟩
      obtain ⟨a, -, rfl⟩ := Documents.mem_map.1 ha'
      cases hab
  · obtain ⟨b, -, rfl⟩ := Documents.mem_map.1 hb'
    exact PathSet.sorted_empty

theorem linkAll_modules (w : Workspace) : w.linkAll.modules = w.modules :=
  foldl_link_modules _ _

theorem linkAll_withoutEdges (w : Workspace) :
    w.linkAll.documents.map Document.withoutEdges = w.documents.map Document.withoutEdges := by
  unfold linkAll
  dsimp only
  rw [foldl_link_withoutEdges, Documents.map_map]
  rfl

theorem edged_linkAll {w : Workspace} (h : w.documents.Sorted) : w.linkAll.documents.Edged :=
  edged_foldl_link (edged_withoutEdges h) _

theorem linkedAt_linkAll {w : Workspace} (h : w.documents.Sorted) (p : Path) :
    LinkedAt w.linkAll p := by
  refine linkedAt_foldl_link (edged_withoutEdges h) ?_
  by_cases hp : (w.documents.map Document.withoutEdges).ids.any (· == p)
  · exact Or.inr hp
  · left
    intro d hd hdp
    exact absurd (List.any_eq_true.2 ⟨d.id, List.mem_map.2 ⟨d, hd, rfl⟩, hdp⟩) hp

/-! ## Taking a document out -/

theorem unlink_documents (w : Workspace) (d : Document) :
    (w.unlink d).documents = w.documents.map (Document.detached d) := by
  unfold unlink
  dsimp only
  have atTargets := Documents.foldl_modify d.dependencies.toList w.documents
    (f := fun t => { t with dependents := t.dependents.erase d.id })
    (fun _ => rfl) fun t => by simp only [PathSet.erase_erase]
  rw [atTargets]
  have atSources := Documents.foldl_modify d.dependents.toList
    (w.documents.map fun t => if d.dependencies.toList.any (t.id == ·)
      then { t with dependents := t.dependents.erase d.id } else t)
    (f := fun t => { t with dependencies := t.dependencies.erase d.id })
    (fun _ => rfl) fun t => by simp only [PathSet.erase_erase]
  rw [atSources, Documents.map_map]
  congr 1
  funext t
  simp only [PathSet.any_toList]
  cases hto : d.dependencies.contains t.id <;> cases hfrom : d.dependents.contains t.id <;>
    simp [Document.detached, hto, hfrom]

theorem detached_dependencies_of_ne (gone d : Document) {p : Path} (h : (gone.id == p) = false) :
    (Document.detached gone d).dependencies.contains p = d.dependencies.contains p := by
  unfold Document.detached
  dsimp only
  split
  · rw [PathSet.contains_erase, h, Bool.not_false, Bool.true_and]
  · rfl

theorem edged_detached {ds : Documents} (h : ds.Edged) {gone : Document}
    (hgone : gone ∈ ds.toList) :
    ((ds.erase gone.id).map (Document.detached gone)).Edged := by
  refine ⟨(h.sorted.erase _).map fun _ => rfl, fun b' hb' p => ?_, fun b' hb' => ?_⟩
  · obtain ⟨b, hb, rfl⟩ := Documents.mem_map.1 hb'
    obtain ⟨hb, hne⟩ := Documents.mem_erase.1 hb
    rw [BEq.comm] at hne
    have dependents : (Document.detached gone b).dependents.contains p =
        (!(gone.id == p) && b.dependents.contains p) := by
      unfold Document.detached
      dsimp only
      split
      · exact PathSet.contains_erase _ _ _
      · next hno =>
        rw [Bool.not_eq_true] at hno
        cases hp : gone.id == p with
        | true => rw [h.dependents_contains hgone hb hp, hno]; rfl
        | false => rfl
    rw [dependents, Bool.and_eq_true, Bool.not_eq_true', h.symmetric b hb p]
    constructor
    · rintro ⟨hp, a, ha, hap, hab⟩
      have hagone : (a.id == gone.id) = false := by rw [BEq.congr_left hap, BEq.comm, hp]
      refine ⟨_, Documents.mem_map.2 ⟨a, Documents.mem_erase.2 ⟨ha, hagone⟩, rfl⟩, hap, ?_⟩
      exact (detached_dependencies_of_ne gone a hne).trans hab
    · rintro ⟨a', ha', hap, hab⟩
      obtain ⟨a, ha, rfl⟩ := Documents.mem_map.1 ha'
      obtain ⟨ha, hagone⟩ := Documents.mem_erase.1 ha
      have hap : a.id == p := hap
      refine ⟨?_, a, ha, hap, (detached_dependencies_of_ne gone a hne).symm.trans hab⟩
      rw [BEq.comm, ← BEq.congr_left hap]
      exact hagone
  · obtain ⟨b, hb, rfl⟩ := Documents.mem_map.1 hb'
    have hsorted := h.dependentsSorted b (Documents.mem_erase.1 hb).1
    unfold Document.detached
    dsimp only
    split
    · exact hsorted.erase _
    · exact hsorted

/-! ## What settles the edges -/

theorem mem_of_withoutEdges_eq {ds es : Documents}
    (h : es.map Document.withoutEdges = ds.map Document.withoutEdges) {d : Document}
    (hd : d ∈ ds.toList) : ∃ e ∈ es.toList, e.withoutEdges = d.withoutEdges :=
  Documents.mem_map.1 (h ▸ Documents.mem_map.2 ⟨d, hd, rfl⟩)

theorem find?_of_withoutEdges {ds es : Documents}
    (h : es.map Document.withoutEdges = ds.map Document.withoutEdges) (id : Path) :
    (es.find? id).map Document.withoutEdges = (ds.find? id).map Document.withoutEdges := by
  rw [← Documents.find?_map es Document.withoutEdges_id, h,
    Documents.find?_map ds Document.withoutEdges_id]

/-- Two workspaces with the same documents, but for edges, and the same modules have the same
edges when all documents of both are linked.  Dependents may differ in how they are
written. -/
theorem edges_determined {w v : Workspace} (hw : w.documents.Edged) (hv : v.documents.Edged)
    (hwlinked : ∀ p, LinkedAt w p) (hvlinked : ∀ p, LinkedAt v p)
    (hmodules : v.modules = w.modules)
    (hsame : v.documents.map Document.withoutEdges = w.documents.map Document.withoutEdges)
    (id : Path) :
    v.dependencies id = w.dependencies id ∧ v.dependents id == w.dependents id := by
  have dependencies {d e : Document} (hd : d ∈ w.documents.toList) (he : e ∈ v.documents.toList)
      (hde : e.withoutEdges = d.withoutEdges) : e.dependencies = d.dependencies := by
    rw [hwlinked d.id d hd BEq.rfl, hvlinked e.id e he BEq.rfl]
    exact resolveDependencies_eq hmodules hde
  have ids {d e : Document} (hde : e.withoutEdges = d.withoutEdges) : e.id = d.id :=
    congrArg (·.id) hde
  have found := find?_of_withoutEdges hsame id
  unfold Workspace.dependencies Workspace.dependents document?
  cases hd : w.documents.find? id with
  | none =>
    rw [hd, Option.map_none, Option.map_eq_none_iff] at found
    rw [found]
    exact ⟨rfl, rfl⟩
  | some d =>
    rw [hd, Option.map_some, Option.map_eq_some_iff] at found
    obtain ⟨e, he, hde⟩ := found
    rw [he]
    obtain ⟨hdmem, -⟩ := Documents.mem_of_find? hd
    obtain ⟨hemem, -⟩ := Documents.mem_of_find? he
    refine ⟨congrArg PathSet.toList (dependencies hdmem hemem hde), ?_⟩
    refine (hv.dependentsSorted e hemem).beq_of_contains (hw.dependentsSorted d hdmem) fun p => ?_
    rw [Bool.eq_iff_iff, hv.symmetric e hemem p, hw.symmetric d hdmem p]
    constructor
    · rintro ⟨b, hb, hbp, hdep⟩
      obtain ⟨a, ha, hab⟩ := mem_of_withoutEdges_eq hsame.symm hb
      refine ⟨a, ha, ids hab ▸ hbp, ?_⟩
      rw [← dependencies ha hb hab.symm, ← ids hde]
      exact hdep
    · rintro ⟨a, ha, hap, hdep⟩
      obtain ⟨b, hb, hba⟩ := mem_of_withoutEdges_eq hsame ha
      refine ⟨b, hb, ids hba ▸ hap, ?_⟩
      rw [dependencies ha hb hba, ids hde]
      exact hdep

end Workspace

end SimFront
