import SimFront.Proofs.Workspace.Path
import SimFront.Workspace.Document
import SimFront.Workspace.Graph

/-!
# Collections of documents, and the holders of module names

Documents that stand in the order of their paths (`Documents.Sorted`) are told apart
by their paths, so that membership and `find?` say the same (`Sorted.find?_eq_some`).
All operations keep the order, and `mem_insert`, `mem_erase` and `mem_map` say which
documents there are after each of them.

A table of holders sends the name of a module to a document that declares it.
Claiming and releasing a name change what is known of that name alone
(`find?_claim_of_ne`, `find?_release_of_ne`), and afterwards every holder is again a
document that is there and declares the name (`Holds.claim`, `holds_release`).
-/

namespace SimFront.Documents

/-- The documents are listed in the order of their paths, one for each. -/
def Sorted (ds : Documents) : Prop := ds.toList.Pairwise fun d e => compare d.id e.id = .lt

theorem sorted_empty : Sorted {} := List.Pairwise.nil

theorem Sorted.eq_of_beq {ds : Documents} (h : ds.Sorted) {d e : Document} (hd : d ∈ ds.toList)
    (he : e ∈ ds.toList) (hde : d.id == e.id) : d = e := by
  have apart {x y : Document} (hxy : compare x.id y.id = .lt) : (x.id == y.id) = false :=
    Path.not_beq_of_lt hxy
  refine List.Pairwise.forall_of_forall_of_flip (R := fun x y => x.id == y.id → x = y)
    (fun _ _ _ => rfl) (h.imp fun hxy hb => ?_) (h.imp fun hxy hb => ?_) hd he hde
  · rw [apart hxy] at hb
    exact Bool.noConfusion hb
  · rw [BEq.comm, apart hxy] at hb
    exact Bool.noConfusion hb

/-! ## Searching -/

theorem mem_of_find? {ds : Documents} {id : Path} {d : Document} (h : ds.find? id = some d) :
    d ∈ ds.toList ∧ d.id == id :=
  ⟨List.mem_of_find?_eq_some h, List.find?_some (p := fun d : Document => d.id == id) h⟩

theorem Sorted.find?_eq_some {ds : Documents} (h : ds.Sorted) {id : Path} {d : Document} :
    ds.find? id = some d ↔ d ∈ ds.toList ∧ d.id == id := by
  refine ⟨mem_of_find?, fun ⟨hd, hid⟩ => ?_⟩
  cases hf : ds.find? id with
  | none =>
    have hn := List.find?_eq_none.1 hf d hd
    exact absurd hid hn
  | some e =>
    obtain ⟨he, heid⟩ := mem_of_find? hf
    rw [h.eq_of_beq hd he (BEq.trans hid (BEq.symm heid))]

theorem find?_eq_none {ds : Documents} {id : Path} :
    ds.find? id = none ↔ ∀ d ∈ ds.toList, (d.id == id) = false := by
  unfold find?
  simp only [List.find?_eq_none, Bool.not_eq_true]

theorem contains_eq_true {ds : Documents} {id : Path} :
    ds.contains id ↔ ∃ d ∈ ds.toList, d.id == id := by
  unfold contains find?
  rw [List.find?_isSome]

/-! ## Adding -/

theorem mem_insertIn {d e : Document} {ds : List Document}
    (h : ds.Pairwise fun d e => compare d.id e.id = .lt) :
    e ∈ insertIn d ds ↔ e = d ∨ e ∈ ds ∧ (d.id == e.id) = false := by
  induction ds with
  | nil => simp [insertIn]
  | cons c rest ih =>
    obtain ⟨hc, hrest⟩ := List.pairwise_cons.1 h
    unfold insertIn
    split
    · next hlt =>
      have apart : ∀ e ∈ c :: rest, (d.id == e.id) = false := by
        intro e he
        rcases List.mem_cons.1 he with rfl | he
        · exact Path.not_beq_of_lt hlt
        · exact Path.not_beq_of_lt (Std.TransCmp.lt_trans hlt (hc e he))
      rw [List.mem_cons]
      exact or_congr_right ⟨fun he => ⟨he, apart e he⟩, And.left⟩
    · next heq =>
      have same : d.id == c.id := Std.LawfulBEqOrd.compare_eq_iff_beq.1 heq
      have apart : ∀ e ∈ rest, (d.id == e.id) = false := by
        intro e he
        rw [BEq.congr_left same]
        exact Path.not_beq_of_lt (hc e he)
      rw [List.mem_cons, List.mem_cons]
      refine or_congr_right ⟨fun he => ⟨Or.inr he, apart e he⟩, ?_⟩
      rintro ⟨rfl | he, hne⟩
      · rw [same] at hne
        exact Bool.noConfusion hne
      · exact he
    · next hgt =>
      have apart := Path.not_beq_of_gt hgt
      rw [List.mem_cons, ih hrest, List.mem_cons]
      constructor
      · rintro (rfl | rfl | ⟨he, hne⟩)
        · exact Or.inr ⟨Or.inl rfl, apart⟩
        · exact Or.inl rfl
        · exact Or.inr ⟨Or.inr he, hne⟩
      · rintro (rfl | ⟨rfl | he, hne⟩)
        · exact Or.inr (Or.inl rfl)
        · exact Or.inl rfl
        · exact Or.inr (Or.inr ⟨he, hne⟩)

theorem Sorted.mem_insert {ds : Documents} (h : ds.Sorted) {d e : Document} :
    e ∈ (ds.insert d).toList ↔ e = d ∨ e ∈ ds.toList ∧ (d.id == e.id) = false :=
  mem_insertIn h

theorem sorted_insertIn (d : Document) {ds : List Document}
    (h : ds.Pairwise fun d e => compare d.id e.id = .lt) :
    (insertIn d ds).Pairwise fun d e => compare d.id e.id = .lt := by
  induction ds with
  | nil => exact List.pairwise_singleton _ d
  | cons c rest ih =>
    obtain ⟨hc, hrest⟩ := List.pairwise_cons.1 h
    unfold insertIn
    split
    · next hlt =>
      refine List.pairwise_cons.2 ⟨fun e he => ?_, h⟩
      rcases List.mem_cons.1 he with rfl | he
      · exact hlt
      · exact Std.TransCmp.lt_trans hlt (hc e he)
    · next heq =>
      refine List.pairwise_cons.2 ⟨fun e he => ?_, hrest⟩
      rw [Std.TransCmp.congr_left heq]
      exact hc e he
    · next hgt =>
      refine List.pairwise_cons.2 ⟨fun e he => ?_, ih hrest⟩
      rcases (mem_insertIn hrest).1 he with rfl | ⟨he, -⟩
      · exact Std.OrientedCmp.gt_iff_lt.1 hgt
      · exact hc e he

theorem Sorted.insert {ds : Documents} (h : ds.Sorted) (d : Document) : (ds.insert d).Sorted :=
  sorted_insertIn d h

theorem Sorted.find?_insert {ds : Documents} (h : ds.Sorted) (d : Document) (id : Path) :
    (ds.insert d).find? id = if d.id == id then some d else ds.find? id := by
  split
  · next hid => exact (h.insert d).find?_eq_some.2 ⟨h.mem_insert.2 (Or.inl rfl), hid⟩
  · next hid =>
    rw [Bool.not_eq_true] at hid
    apply Option.ext
    intro e
    rw [(h.insert d).find?_eq_some, h.find?_eq_some, h.mem_insert]
    constructor
    · rintro ⟨rfl | ⟨he, -⟩, heid⟩
      · rw [hid] at heid
        exact Bool.noConfusion heid
      · exact ⟨he, heid⟩
    · rintro ⟨he, heid⟩
      exact ⟨Or.inr ⟨he, (BEq.congr_right heid).trans hid⟩, heid⟩

theorem sorted_ofList (ds : List Document) : (ofList ds).Sorted := by
  have fold : ∀ (es : List Document) (acc : Documents), acc.Sorted →
      (es.foldl Documents.insert acc).Sorted := by
    intro es
    induction es with
    | nil => exact fun acc hacc => hacc
    | cons e es ih => exact fun acc hacc => ih _ (hacc.insert e)
  exact fold ds {} sorted_empty

theorem mem_of_mem_ofList {ds : List Document} {d : Document} (h : d ∈ (ofList ds).toList) :
    d ∈ ds := by
  have fold : ∀ (es : List Document) (acc : Documents), acc.Sorted →
      d ∈ (es.foldl Documents.insert acc).toList → d ∈ acc.toList ∨ d ∈ es := by
    intro es
    induction es with
    | nil => exact fun acc _ hd => Or.inl hd
    | cons e es ih =>
      intro acc hacc hd
      rcases ih _ (hacc.insert e) hd with hd | hd
      · rcases hacc.mem_insert.1 hd with rfl | ⟨hd, -⟩
        · exact Or.inr List.mem_cons_self
        · exact Or.inl hd
      · exact Or.inr (List.mem_cons_of_mem e hd)
  rcases fold ds {} sorted_empty h with h | h
  · cases h
  · exact h

/-- Of documents with different paths none takes the place of another. -/
theorem mem_ofList_of_mem {ds : List Document}
    (h : ds.Pairwise fun d e => (d.id == e.id) = false) {d : Document} (hd : d ∈ ds) :
    d ∈ (ofList ds).toList := by
  have fold (es : List Document) : ∀ acc : Documents, acc.Sorted →
      es.Pairwise (fun d e => (d.id == e.id) = false) →
        (d ∈ acc.toList ∧ ∀ e ∈ es, (e.id == d.id) = false) ∨ d ∈ es →
          d ∈ (es.foldl Documents.insert acc).toList := by
    induction es with
    | nil =>
      rintro acc - - (⟨hd, -⟩ | hd)
      · exact hd
      · cases hd
    | cons e es ih =>
      intro acc hacc hes hd
      obtain ⟨he, hes⟩ := List.pairwise_cons.1 hes
      refine ih _ (hacc.insert e) hes ?_
      rcases hd with ⟨hd, hother⟩ | hd
      · exact Or.inl ⟨hacc.mem_insert.2 (Or.inr ⟨hd, hother e List.mem_cons_self⟩),
          fun x hx => hother x (List.mem_cons_of_mem e hx)⟩
      · rcases List.mem_cons.1 hd with rfl | hd
        · exact Or.inl ⟨hacc.mem_insert.2 (Or.inl rfl), fun x hx => BEq.comm.trans (he x hx)⟩
        · exact Or.inr hd
  exact fold ds {} sorted_empty h (Or.inr hd)

/-! ## Taking away -/

theorem mem_erase {ds : Documents} {id : Path} {d : Document} :
    d ∈ (ds.erase id).toList ↔ d ∈ ds.toList ∧ (d.id == id) = false := by
  unfold erase
  rw [List.mem_filter, Bool.not_eq_true']

theorem Sorted.erase {ds : Documents} (h : ds.Sorted) (id : Path) : (ds.erase id).Sorted :=
  List.Pairwise.filter _ h

theorem find?_erase (ds : Documents) (id p : Path) :
    (ds.erase id).find? p = if id == p then none else ds.find? p := by
  unfold find? erase
  rw [List.find?_filter]
  cases hid : id == p with
  | true =>
    refine List.find?_eq_none.2 fun d _ => ?_
    rw [BEq.congr_right hid]
    cases d.id == p <;> simp
  | false =>
    rw [if_neg Bool.false_ne_true]
    congr 1
    funext d
    cases hp : d.id == p with
    | true =>
      rw [BEq.congr_left hp, BEq.comm, hid]
      rfl
    | false => simp

/-! ## Changing -/

theorem mem_map {ds : Documents} {f : Document → Document} {e : Document} :
    e ∈ (ds.map f).toList ↔ ∃ d ∈ ds.toList, f d = e :=
  List.mem_map

theorem map_map (ds : Documents) (f g : Document → Document) :
    (ds.map f).map g = ds.map fun d => g (f d) := by
  unfold map
  rw [List.map_map]
  rfl

theorem map_id (ds : Documents) : (ds.map fun d => d) = ds := by
  unfold map
  rw [List.map_id']

theorem Sorted.map {ds : Documents} (h : ds.Sorted) {f : Document → Document}
    (hf : ∀ d, (f d).id = d.id) : (ds.map f).Sorted := by
  refine List.pairwise_map.2 (List.Pairwise.imp (fun {d e} hde => ?_) h)
  rw [hf d, hf e]
  exact hde

theorem ids_map (ds : Documents) {f : Document → Document} (hf : ∀ d, (f d).id = d.id) :
    (ds.map f).ids = ds.ids := by
  unfold ids map
  rw [List.map_map]
  exact List.map_congr_left fun d _ => hf d

theorem find?_map (ds : Documents) {f : Document → Document} (hf : ∀ d, (f d).id = d.id)
    (id : Path) : (ds.map f).find? id = (ds.find? id).map f := by
  unfold find? map
  rw [List.find?_map]
  congr 2
  funext d
  exact congrArg (· == id) (hf d)

/-- Changing one document is changing all of them by what depends on the path. -/
theorem modify_eq_map (ds : Documents) (id : Path) (f : Document → Document) :
    ds.modify id f = ds.map fun d => if d.id == id then f d else d :=
  rfl

end SimFront.Documents

namespace SimFront

/-! ## Entries -/

namespace Members

variable {α : Type}

theorem find?_erase (ms : Members α) (name other : String) :
    find? (erase ms name) other = if other = name then none else find? ms other := by
  unfold find? erase
  induction ms with
  | nil => simp
  | cons e rest ih =>
    obtain ⟨n, a⟩ := e
    by_cases hn : n = name
    · subst hn
      rw [List.filter_cons_of_neg (by simp), ih, List.lookup_cons]
      by_cases h : other = n
      · rw [if_pos h, if_pos h]
      · rw [if_neg h, if_neg h, beq_false_of_ne h]
    · rw [List.filter_cons_of_pos (by simpa using hn), List.lookup_cons, List.lookup_cons, ih]
      by_cases h : other = n
      · subst h
        rw [beq_self_eq_true, if_neg hn, if_neg hn]
      · rw [beq_false_of_ne h]

/-- No name has two entries. -/
def Distinct (ms : Members α) : Prop := (ms.map Prod.fst).Nodup

theorem mem_names_insert {ms : Members α} {name other : String} {a : α}
    (h : other ∈ (insert ms name a).map Prod.fst) : other = name ∨ other ∈ ms.map Prod.fst := by
  induction ms with
  | nil =>
    rw [insert, List.map_cons, List.map_nil, List.mem_singleton] at h
    exact Or.inl h
  | cons e rest ih =>
    obtain ⟨n, b⟩ := e
    unfold insert at h
    split at h
    · exact Or.inr h
    · rcases List.mem_cons.1 h with h | h
      · exact Or.inr (List.mem_cons.2 (Or.inl h))
      · exact (ih h).imp_right (List.mem_cons_of_mem n)

theorem Distinct.insert {ms : Members α} (h : ms.Distinct) (name : String) (a : α) :
    (insert ms name a).Distinct := by
  induction ms with
  | nil => exact List.pairwise_singleton _ name
  | cons e rest ih =>
    obtain ⟨n, b⟩ := e
    obtain ⟨hn, hrest⟩ := List.nodup_cons.1 h
    unfold Members.insert
    split
    · exact h
    · next hne =>
      refine List.nodup_cons.2 ⟨fun hmem => ?_, ih hrest⟩
      rcases mem_names_insert hmem with heq | hmem
      · exact hne heq
      · exact hn hmem

theorem Distinct.erase {ms : Members α} (h : ms.Distinct) (name : String) :
    (erase ms name).Distinct :=
  List.Nodup.sublist (List.filter_sublist.map Prod.fst) h

end Members

namespace Workspace

open Members (Distinct)

/-! ## Claiming and releasing -/

theorem find?_claim_of_ne (holders : Members Path) (id : Path) {name other : String}
    (h : other ≠ name) :
    Members.find? (claim holders name id) other = Members.find? holders other := by
  unfold claim
  split
  · rw [Members.find?_insert, if_neg h]
  · split
    · rw [Members.find?_insert, if_neg h]
    · rfl

/-- A document that claims a name holds it afterwards, or another one holds it as before. -/
theorem find?_claim {holders : Members Path} {name : String} {id p : Path}
    (h : Members.find? (claim holders name id) name = some p) :
    p = id ∨ Members.find? holders name = some p := by
  unfold claim at h
  split at h
  · rw [Members.find?_insert, if_pos rfl] at h
    exact Or.inl (Option.some.inj h).symm
  · split at h
    · rw [Members.find?_insert, if_pos rfl] at h
      exact Or.inl (Option.some.inj h).symm
    · exact Or.inr h

theorem distinct_claim {holders : Members Path} (h : holders.Distinct) (name : String)
    (id : Path) : (claim holders name id).Distinct := by
  unfold claim
  split
  · exact h.insert name id
  · split
    · exact h.insert name id
    · exact h

theorem find?_release_of_ne (ds : Documents) (importable : Bool) (id : Path)
    (holders : Members Path) {name other : String} (h : other ≠ name) :
    Members.find? (release ds importable id name holders) other =
      Members.find? holders other := by
  unfold release
  split
  · split
    · rw [Members.find?_insert, if_neg h]
    · rw [Members.find?_erase, if_neg h]
  · rfl

theorem successor?_eq_some {ds : Documents} {importable : Bool} {id p : Path} {name : String}
    (h : successor? ds importable id name = some p) :
    ∃ d ∈ ds.toList, d.id = p ∧ d.declares importable name ∧ (d.id == id) = false := by
  obtain ⟨d, hd, hp⟩ := Option.map_eq_some_iff.1 h
  have hq := List.find?_some hd
  rw [Bool.and_eq_true, Bool.not_eq_true'] at hq
  exact ⟨d, List.mem_of_find?_eq_some hd, hp, hq.2, hq.1⟩

/-- After a document has released a name, a document of the collection declares it and
holds it, or another one holds it as before. -/
theorem find?_release {ds : Documents} {importable : Bool} {id p : Path} {name : String}
    {holders : Members Path}
    (h : Members.find? (release ds importable id name holders) name = some p) :
    (∃ d ∈ ds.toList, d.id = p ∧ d.declares importable name) ∨
      Members.find? holders name = some p ∧ (p == id) = false := by
  unfold release at h
  split at h
  · split at h
    · next next_ hs =>
      rw [Members.find?_insert, if_pos rfl] at h
      obtain ⟨d, hd, hp, hdecl, -⟩ := successor?_eq_some hs
      exact Or.inl ⟨d, hd, hp.trans (Option.some.inj h), hdecl⟩
    · rw [Members.find?_erase, if_pos rfl] at h
      cases h
  · next hother =>
    rw [h, Option.any_some, Bool.not_eq_true] at hother
    exact Or.inr ⟨h, hother⟩

theorem distinct_release {holders : Members Path} (h : holders.Distinct) (ds : Documents)
    (importable : Bool) (id : Path) (name : String) :
    (release ds importable id name holders).Distinct := by
  unfold release
  split
  · split
    · exact h.insert name _
    · exact h.erase name
  · exact h

/-! ## Both tables -/

/-- The holders of the names of one sort. -/
def holders (w : Workspace) : (importable : Bool) → Members Path
  | true => w.modules
  | false => w.implementations

/-! ## Holders declare what they hold -/

/-- Every name is held by a document that is there and declares it. -/
def Holds (ds : Documents) (importable : Bool) (holders : Members Path) : Prop :=
  ∀ name p, Members.find? holders name = some p →
    ∃ d ∈ ds.toList, d.id == p ∧ d.declares importable name

theorem holds_nil (ds : Documents) (importable : Bool) : Holds ds importable [] := by
  intro name p h
  cases h

theorem Holds.claim {ds : Documents} {importable : Bool} {holders : Members Path}
    (h : Holds ds importable holders) {d : Document} (hd : d ∈ ds.toList) {name : String}
    (hdecl : d.declares importable name) {id : Path} (hid : d.id == id) :
    Holds ds importable (claim holders name id) := by
  intro other p hp
  by_cases hother : other = name
  · subst hother
    rcases find?_claim hp with rfl | hp
    · exact ⟨d, hd, hid, hdecl⟩
    · exact h other p hp
  · rw [find?_claim_of_ne holders id hother] at hp
    exact h other p hp

/-- It is enough that all holders but the one that releases the name declare what they
hold. -/
theorem holds_release {ds : Documents} {importable : Bool} {id : Path} {name : String}
    {holders : Members Path}
    (h : ∀ other p, Members.find? holders other = some p →
      other = name ∧ p == id ∨ ∃ d ∈ ds.toList, d.id == p ∧ d.declares importable other) :
    Holds ds importable (release ds importable id name holders) := by
  intro other p hp
  by_cases hother : other = name
  · subst hother
    rcases find?_release hp with ⟨d, hd, rfl, hdecl⟩ | ⟨hp, hne⟩
    · exact ⟨d, hd, BEq.rfl, hdecl⟩
    · rcases h other p hp with ⟨-, heq⟩ | hd
      · rw [heq] at hne
        exact Bool.noConfusion hne
      · exact hd
  · rw [find?_release_of_ne ds importable id holders hother] at hp
    rcases h other p hp with ⟨heq, -⟩ | hd
    · exact absurd heq hother
    · exact hd

/-- Documents may change in what they do not declare. -/
theorem Holds.map {ds : Documents} {importable : Bool} {holders : Members Path}
    (h : Holds ds importable holders) {f : Document → Document} (hid : ∀ d, (f d).id = d.id)
    (hdecl : ∀ d, (f d).declares = d.declares) : Holds (ds.map f) importable holders := by
  intro name p hp
  obtain ⟨d, hd, hdp, hname⟩ := h name p hp
  refine ⟨f d, Documents.mem_map.2 ⟨d, hd, rfl⟩, ?_, ?_⟩
  · rw [hid d]
    exact hdp
  · rw [hdecl d]
    exact hname

end Workspace

end SimFront
