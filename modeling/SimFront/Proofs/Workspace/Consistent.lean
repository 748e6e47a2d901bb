import SimFront.Proofs.Workspace.Edges
import SimFront.Workspace.Index
import SimFront.Workspace.Replace

/-!
# Consistent workspaces

A workspace is consistent when its edges are known at both ends, every holder of a
module name declares it, every document depends on what the current names of modules
give it, and the cycles are those of the documents.  Every operation leaves a
consistent workspace: indexing whatever was there before (`consistent_install`),
replacing and removing a document when the workspace was consistent
(`Consistent.replace`, `Consistent.removeDocument`).
-/

namespace SimFront

/-! ## Cycles -/

namespace CycleSearch

theorem visit_map (ds : Documents) {f : Document → Document} (hid : ∀ d, (f d).id = d.id)
    (hdeps : ∀ d, (f d).dependencies = d.dependencies) (depth : Nat) (trail : List Path) :
    visit (ds.map f) depth trail = visit ds depth trail := by
  induction depth generalizing trail with
  | zero => rfl
  | succ depth ih =>
    funext id s
    simp only [visit, ih, Documents.find?_map ds hid]
    cases ds.find? id with
    | none => rfl
    | some d => simp only [Option.map_some, hdeps]

end CycleSearch

namespace Documents

/-- The cycles hang on the paths and the dependencies of the documents alone. -/
theorem findCycles_map (ds : Documents) {f : Document → Document} (hid : ∀ d, (f d).id = d.id)
    (hdeps : ∀ d, (f d).dependencies = d.dependencies) :
    (ds.map f).findCycles = ds.findCycles := by
  have bound : (ds.map f).trailBound = ds.trailBound := by
    have deps : ((ds.map f).toList.flatMap (·.dependencies.toList)) =
        ds.toList.flatMap (·.dependencies.toList) := by
      unfold map
      rw [List.flatMap_map]
      simp only [hdeps]
    have size : (ds.map f).size = ds.size := List.length_map _
    unfold trailBound
    rw [deps, size]
  unfold findCycles searchCycles
  rw [ids_map ds hid, bound, CycleSearch.visit_map ds hid hdeps]

theorem Edged.map {ds : Documents} (h : ds.Edged) {f : Document → Document}
    (hid : ∀ d, (f d).id = d.id) (hdeps : ∀ d, (f d).dependencies = d.dependencies)
    (hdependents : ∀ d, (f d).dependents = d.dependents) : (ds.map f).Edged := by
  refine ⟨h.sorted.map hid, fun b' hb' p => ?_, fun b' hb' => ?_⟩
  · obtain ⟨b, hb, rfl⟩ := mem_map.1 hb'
    rw [hdependents, h.symmetric b hb p, hid]
    constructor
    · rintro ⟨a, ha, hap, hab⟩
      refine ⟨f a, mem_map.2 ⟨a, ha, rfl⟩, (hid a).symm ▸ hap, ?_⟩
      rw [hdeps]
      exact hab
    · rintro ⟨a', ha', hap, hab⟩
      obtain ⟨a, ha, rfl⟩ := mem_map.1 ha'
      rw [hid] at hap
      rw [hdeps] at hab
      exact ⟨a, ha, hap, hab⟩
  · obtain ⟨b, hb, rfl⟩ := mem_map.1 hb'
    rw [hdependents]
    exact h.dependentsSorted b hb

end Documents

namespace Document

/-! ## What a document declares -/

theorem moduleName?_of_declares {d : Document} {importable : Bool} {name : String}
    (h : d.declares importable name) : d.moduleName? = some name := by
  unfold declares at h
  rw [Bool.and_eq_true, decide_eq_true_eq] at h
  exact h.1

/-- What documents declare does not hang on edges. -/
theorem declares_of_withoutEdges {d e : Document} (h : e.withoutEdges = d.withoutEdges) :
    e.declares = d.declares := by
  show e.withoutEdges.declares = d.withoutEdges.declares
  rw [h]

/-! ## What an analysis leaves alone -/

theorem analyzed_frame (d : Document) (resolver? : Option Resolver) :
    d.analyzed resolver? =
      { d with
        table? := (d.analyzed resolver?).table?,
        diagnostics := (d.analyzed resolver?).diagnostics } := by
  unfold analyzed
  split <;> rfl

theorem reanalyzed_frame (d : Document) (resolver : Resolver) :
    d.reanalyzed resolver =
      { d with
        table? := (d.reanalyzed resolver).table?,
        diagnostics := (d.reanalyzed resolver).diagnostics } := by
  unfold reanalyzed
  split
  · exact analyzed_frame d _
  · rfl

end Document

namespace Workspace

/-! ## The invariant -/

structure Consistent (w : Workspace) : Prop where
  edged : w.documents.Edged
  modulesDistinct : w.modules.Distinct
  modulesHeld : Holds w.documents true w.modules
  linked : ∀ p, LinkedAt w p
  cyclesFound : w.cycles = w.documents.findCycles

theorem consistent_new (c : Config) : Consistent { config := c } where
  edged := ⟨Documents.sorted_empty, fun _ hb => (nomatch hb), fun _ hb => (nomatch hb)⟩
  modulesDistinct := List.Pairwise.nil
  modulesHeld := holds_nil _ _
  linked := fun _ _ hd => nomatch hd
  cyclesFound := rfl

theorem Consistent.holders_held {w : Workspace} (h : w.Consistent) :
    Holds w.documents true (w.holders true) := h.modulesHeld

/-! ## What a document depends on -/

/-- A document depends on the holders of the modules that it refers to, itself excepted. -/
theorem contains_resolveDependencies {w : Workspace} {d : Document} {p : Path} :
    (w.resolveDependencies d).contains p ↔
      (d.id == p) = false ∧
        ∃ n q, refersTo [n] d ∧ Members.find? w.modules n = some q ∧ q == p := by
  unfold resolveDependencies refersTo
  dsimp only
  rw [PathSet.contains_erase, PathSet.contains_ofList, Bool.and_eq_true, Bool.not_eq_true',
    List.any_append, Bool.or_eq_true, List.any_eq_true, List.any_eq_true]
  refine and_congr_right fun _ => ?_
  constructor
  · rintro (⟨q, hq, hqp⟩ | ⟨q, hq, hqp⟩)
    · obtain ⟨n, hn, hfind⟩ := List.mem_filterMap.1 hq
      refine ⟨n, q, ?_, hfind, hqp⟩
      rw [Bool.or_eq_true]
      exact Or.inl (List.any_eq_true.2 ⟨n, hn, List.contains_iff_mem.2 (List.mem_singleton.2 rfl)⟩)
    · rw [Option.mem_toList] at hq
      split at hq
      · next himpl =>
        obtain ⟨n, hn, hfind⟩ := Option.bind_eq_some_iff.1 hq
        refine ⟨n, q, ?_, hfind, hqp⟩
        rw [himpl, hn, Option.any_some, List.contains_iff_mem.2 (List.mem_singleton.2 rfl)]
        exact Bool.or_true _
      · cases hq
  · rintro ⟨n, q, hrefers, hfind, hqp⟩
    rw [Bool.or_eq_true, Bool.and_eq_true] at hrefers
    rcases hrefers with himport | ⟨himpl, hown⟩
    · obtain ⟨m, hm, hmn⟩ := List.any_eq_true.1 himport
      obtain rfl := List.mem_singleton.1 (List.contains_iff_mem.1 hmn)
      exact Or.inl ⟨q, List.mem_filterMap.2 ⟨m, hm, hfind⟩, hqp⟩
    · obtain ⟨m, hm, hmn⟩ := (Option.any_eq_true _ _).1 hown
      obtain rfl := List.mem_singleton.1 (List.contains_iff_mem.1 hmn)
      refine Or.inr ⟨q, ?_, hqp⟩
      rw [if_pos himpl, hm, Option.mem_toList]
      exact hfind

/-- Every dependency is another document, which declares a module that is referred to. -/
theorem Consistent.dependency {w : Workspace} (h : w.Consistent) {d : Document}
    (hd : d ∈ w.documents.toList) {p : Path} (hp : d.dependencies.contains p) :
    (d.id == p) = false ∧
      ∃ n, refersTo [n] d ∧ ∃ e ∈ w.documents.toList, e.id == p ∧ e.declares true n := by
  rw [h.linked d.id d hd BEq.rfl] at hp
  obtain ⟨hne, n, q, hrefers, hfind, hqp⟩ := contains_resolveDependencies.1 hp
  obtain ⟨e, he, heq, hdecl⟩ := h.modulesHeld n q hfind
  exact ⟨hne, n, hrefers, e, he, BEq.trans heq hqp, hdecl⟩

/-! ## Names of modules -/

/-- Registering a document changes nothing but who holds the names. -/
theorem register_eq (w : Workspace) (id : Path) :
    w.register id = { w with
      modules := (w.register id).modules, implementations := (w.register id).implementations } := by
  unfold register
  split
  · rfl
  · split
    · split <;> rfl
    · rfl

@[simp] theorem register_documents (w : Workspace) (id : Path) :
    (w.register id).documents = w.documents := by rw [register_eq]

@[simp] theorem register_config (w : Workspace) (id : Path) :
    (w.register id).config = w.config := by rw [register_eq]

/-- Registering a document leaves the names of one sort as they are when it declares none of
them, and lets it claim the one that it declares. -/
theorem register_holders (w : Workspace) (id : Path) (importable : Bool) :
    ((w.register id).holders importable = w.holders importable ∧
        ∀ d, w.document? id = some d → ∀ n, d.declares importable n = false) ∨
      ∃ d name, w.document? id = some d ∧ d.declares importable name ∧
        (w.register id).holders importable = claim (w.holders importable) name id := by
  unfold register
  split
  · next hnone => exact Or.inl ⟨rfl, fun d hd => nomatch hnone.symm.trans hd⟩
  · next d hd =>
    split
    · next name kind hname hkind =>
      by_cases hsort : kind.isImportable = importable
      · right
        refine ⟨d, name, hd, ?_, ?_⟩
        · unfold Document.declares
          rw [hname, hkind, Option.any_some, hsort]
          simp
        · subst hsort
          cases kind.isImportable <;> rfl
      · left
        constructor
        · cases importable <;> cases hkind : kind.isImportable <;>
            first | rfl | exact absurd hkind hsort
        · intro e he n
          obtain rfl := Option.some.inj (hd.symm.trans he)
          unfold Document.declares
          rw [hkind, Option.any_some, decide_eq_false hsort, Bool.and_false]
    · next hnone =>
      refine Or.inl ⟨rfl, fun e he n => ?_⟩
      obtain rfl := Option.some.inj (hd.symm.trans he)
      unfold Document.declares
      cases hname : d.moduleName? with
      | none => rfl
      | some name =>
        cases hkind : d.moduleKind? with
        | none => exact Bool.and_false _
        | some kind => exact absurd hkind (hnone name kind hname)

theorem Holds.register {w : Workspace} {ds : Documents} {importable : Bool}
    (h : Holds ds importable (w.holders importable)) (hds : w.documents = ds) (id : Path) :
    Holds ds importable ((w.register id).holders importable) := by
  subst hds
  rcases register_holders w id importable with ⟨hm, -⟩ | ⟨d, name, hd, hdecl, hm⟩
  · rw [hm]
    exact h
  · obtain ⟨hmem, hid⟩ := Documents.mem_of_find? hd
    rw [hm]
    exact h.claim hmem hdecl hid

theorem distinct_register {w : Workspace} (h : w.modules.Distinct) (id : Path) :
    (w.register id).modules.Distinct := by
  show ((w.register id).holders true).Distinct
  rcases register_holders w id true with ⟨hm, -⟩ | ⟨d, name, -, -, hm⟩
  · rw [hm]
    exact h
  · rw [hm]
    exact distinct_claim h name id

theorem find?_register {w : Workspace} {id : Path} {d : Document} (hd : w.document? id = some d)
    {n : String} (hn : d.moduleName? ≠ some n) :
    Members.find? (w.register id).modules n = Members.find? w.modules n := by
  rcases register_holders w id true with ⟨hm, -⟩ | ⟨e, name, he, hdecl, hm⟩
  · exact congrArg (Members.find? · n) hm
  · refine (congrArg (Members.find? · n) hm).trans (find?_claim_of_ne _ _ fun heq => hn ?_)
    obtain rfl := Option.some.inj (hd.symm.trans he)
    rw [Document.moduleName?_of_declares hdecl, heq]

@[simp] theorem unregisterPrevious_documents (w : Workspace) (id : Path)
    (previousName? : Option String) :
    (w.unregisterPrevious id previousName?).documents = w.documents := by
  cases previousName? <;> rfl

theorem distinct_unregisterPrevious {w : Workspace} (h : w.modules.Distinct) (id : Path)
    (previousName? : Option String) :
    (w.unregisterPrevious id previousName?).modules.Distinct := by
  cases previousName? with
  | none => exact h
  | some name => exact distinct_release h w.documents true id name

theorem find?_unregisterPrevious (w : Workspace) (id : Path) {previousName? : Option String}
    {n : String} (hn : previousName? ≠ some n) :
    Members.find? (w.unregisterPrevious id previousName?).modules n =
      Members.find? w.modules n := by
  cases previousName? with
  | none => rfl
  | some name => exact find?_release_of_ne _ _ _ _ fun heq => hn (heq ▸ rfl)

/-- A document that gives up its name releases it among the names of both sorts. -/
theorem unregisterPrevious_holders (w : Workspace) (id : Path) (name : String)
    (importable : Bool) :
    (w.unregisterPrevious id (some name)).holders importable =
      release w.documents importable id name (w.holders importable) := by
  cases importable <;> rfl

/-- When a document gives up its name, it is enough that the others declare what they
hold. -/
theorem holds_unregisterPrevious {w : Workspace} {id : Path} {previousName? : Option String}
    {importable : Bool}
    (h : ∀ n p, Members.find? (w.holders importable) n = some p →
      previousName? = some n ∧ p == id ∨
        ∃ d ∈ w.documents.toList, d.id == p ∧ d.declares importable n) :
    Holds w.documents importable
      ((w.unregisterPrevious id previousName?).holders importable) := by
  cases previousName? with
  | none =>
    intro n p hp
    rcases h n p hp with ⟨hn, -⟩ | hd
    · cases hn
    · exact hd
  | some name =>
    rw [unregisterPrevious_holders]
    refine holds_release fun n p hp => (h n p hp).imp_left ?_
    rintro ⟨hn, hid⟩
    exact ⟨(Option.some.inj hn).symm, hid⟩

theorem Holds.of_withoutEdges {ds es : Documents} {importable : Bool} {holders : Members Path}
    (h : Holds ds importable holders)
    (hsame : es.map Document.withoutEdges = ds.map Document.withoutEdges) :
    Holds es importable holders := by
  intro name p hp
  obtain ⟨d, hd, hdp, hdecl⟩ := h name p hp
  obtain ⟨e, he, hed⟩ := mem_of_withoutEdges_eq hsame hd
  have hid : e.id = d.id := congrArg (·.id) hed
  exact ⟨e, he, hid ▸ hdp, Document.declares_of_withoutEdges hed ▸ hdecl⟩

/-! ## Settling the edges after a change -/

theorem rebuilt_holders (w : Workspace) (importable : Bool) :
    w.detectCycles.rebuildGlobal.holders importable = w.holders importable := by
  cases importable <;> rfl

/-- Linking one document and then the importers of some names links all documents, when those
that are neither were linked before. -/
theorem linkedAt_settle {w : Workspace} (h : w.documents.Edged) {names : List String}
    {id p : Path} (hp : p == id ∨ LinkedAt w p ∨ ∃ d ∈ w.documents.toList, d.id == p ∧
      (d.id == id) = false ∧ refersTo names d) :
    LinkedAt ((w.link id).relinkImporters names id) p := by
  refine linkedAt_relinkImporters (edged_link h id) ?_
  rcases hp with hp | hp | ⟨d, hd, hdp, hne, hrefers⟩
  · left
    intro d hd hdp
    exact linkedAt_link h.sorted id d hd (BEq.trans hdp hp)
  · exact Or.inl (hp.link h.sorted id)
  · obtain ⟨e, he, hed⟩ := mem_of_withoutEdges_eq (link_withoutEdges w id) hd
    have hid : e.id = d.id := congrArg (·.id) hed
    have hrefers' : refersTo names e = refersTo names d := by
      show refersTo names e.withoutEdges = refersTo names d.withoutEdges
      rw [hed]
    exact Or.inr ⟨e, he, hid ▸ hdp, hid ▸ hne, hrefers'.trans hrefers⟩

/-- Linking some documents makes a workspace consistent when it links all that were not. -/
theorem consistent_foldl_link {w : Workspace} (edged : w.documents.Edged)
    (distinct : w.modules.Distinct) (held : Holds w.documents true w.modules) (ids : List Path)
    (linked : ∀ p, LinkedAt (ids.foldl link w) p) :
    (ids.foldl link w).detectCycles.rebuildGlobal.Consistent where
  edged := edged_foldl_link edged ids
  modulesDistinct := by
    show (ids.foldl link w).modules.Distinct
    rw [foldl_link_modules]
    exact distinct
  modulesHeld := by
    show Holds _ true (ids.foldl link w).modules
    rw [foldl_link_modules]
    exact held.of_withoutEdges (foldl_link_withoutEdges ids w)
  linked := linked
  cyclesFound := rfl

/-! ## Replacing a document -/

@[simp] theorem inherit_id (d : Document) (previous? : Option Document) :
    (inherit d previous?).id = d.id := by
  cases previous? <;> rfl

@[simp] theorem inherit_moduleName (d : Document) (previous? : Option Document) :
    (inherit d previous?).moduleName? = d.moduleName? := by
  cases previous? <;> rfl

theorem inherit_declares (d : Document) (previous? : Option Document) :
    (inherit d previous?).declares = d.declares := by
  cases previous? <;> rfl

/-- A new version of a document takes over the dependencies of the one before; a document of
a new path has none. -/
theorem inherit_dependencies {ds : Documents} (hsorted : ds.Sorted) {d : Document}
    (hdeps : d.dependencies = {}) (p : Path) :
    (inherit d (ds.find? d.id)).dependencies.contains p ↔
      ∃ a ∈ ds.toList, a.id == d.id ∧ a.dependencies.contains p := by
  cases hprev : ds.find? d.id with
  | none =>
    have absent := Documents.find?_eq_none.1 hprev
    constructor
    · intro hp
      have hp : d.dependencies.contains p := hp
      rw [hdeps] at hp
      cases hp
    · rintro ⟨a, ha, had, -⟩
      rw [absent a ha] at had
      cases had
  | some previous =>
    obtain ⟨hmem, hid⟩ := Documents.mem_of_find? hprev
    constructor
    · exact fun hp => ⟨previous, hmem, hid, hp⟩
    · rintro ⟨a, ha, had, hap⟩
      obtain rfl : a = previous := hsorted.eq_of_beq ha hmem (BEq.trans had (BEq.symm hid))
      exact hap

/-- A new version of a document takes over the dependents of the one before; nothing depends
on a new path. -/
theorem Consistent.inherit_dependents {w : Workspace} (h : w.Consistent) {d : Document}
    (hdependents : d.dependents = {}) (p : Path) :
    (inherit d (w.document? d.id)).dependents.contains p ↔
      ∃ a ∈ w.documents.toList, a.id == p ∧ a.dependencies.contains d.id := by
  cases hprev : w.document? d.id with
  | none =>
    have absent := Documents.find?_eq_none.1 hprev
    constructor
    · intro hp
      have hp : d.dependents.contains p := hp
      rw [hdependents] at hp
      cases hp
    · rintro ⟨a, ha, -, had⟩
      obtain ⟨-, n, -, e, he, hed, -⟩ := h.dependency ha had
      rw [absent e he] at hed
      cases hed
  | some previous =>
    obtain ⟨hmem, hid⟩ := Documents.mem_of_find? hprev
    show previous.dependents.contains p ↔ _
    rw [h.edged.symmetric previous hmem p]
    simp only [PathSet.contains_congr hid]

theorem Consistent.inherit_dependents_sorted {w : Workspace} (h : w.Consistent) {d : Document}
    (hdependents : d.dependents = {}) : (inherit d (w.document? d.id)).dependents.Sorted := by
  cases hprev : w.document? d.id with
  | none =>
    show d.dependents.Sorted
    rw [hdependents]
    exact PathSet.sorted_empty
  | some previous =>
    exact h.edged.dependentsSorted previous (Documents.mem_of_find? hprev).1

/-- Both ends of all edges are known after a new version of a document took over the edges of
the one before. -/
theorem Consistent.edged_insert {w : Workspace} (h : w.Consistent) {d : Document}
    (hdeps : d.dependencies = {}) (hdependents : d.dependents = {}) :
    (w.documents.insert (inherit d (w.document? d.id))).Edged := by
  have hsorted := h.edged.sorted
  have hout := inherit_dependencies hsorted hdeps
  have hin := h.inherit_dependents hdependents
  have hself {a : Document} (ha : a ∈ w.documents.toList) (had : a.id == d.id) :
      a.dependencies.contains d.id = false := by
    rw [← Bool.not_eq_true]
    intro hdep
    rw [(h.dependency ha hdep).1] at had
    cases had
  have mem {a : Document} : a ∈ (w.documents.insert (inherit d (w.document? d.id))).toList ↔
      a = inherit d (w.document? d.id) ∨ a ∈ w.documents.toList ∧ (d.id == a.id) = false := by
    rw [hsorted.mem_insert, inherit_id]
  refine ⟨hsorted.insert _, fun b hb p => ?_, fun b hb => ?_⟩
  · rcases mem.1 hb with rfl | ⟨hb, hbd⟩
    · rw [hin, inherit_id]
      constructor
      · rintro ⟨a, ha, hap, had⟩
        refine ⟨a, mem.2 (Or.inr ⟨ha, ?_⟩), hap, had⟩
        rw [← Bool.not_eq_true]
        intro heq
        rw [hself ha (BEq.symm heq)] at had
        cases had
      · rintro ⟨a, ha, hap, had⟩
        rcases mem.1 ha with rfl | ⟨ha, -⟩
        · obtain ⟨c, hc, hcd, hdep⟩ := (hout d.id).1 had
          rw [hself hc hcd] at hdep
          cases hdep
        · exact ⟨a, ha, hap, had⟩
    · rw [h.edged.symmetric b hb p]
      constructor
      · rintro ⟨a, ha, hap, hab⟩
        cases had : d.id == a.id with
        | true =>
          refine ⟨_, mem.2 (Or.inl rfl), ?_, (hout b.id).2 ⟨a, ha, BEq.symm had, hab⟩⟩
          rw [inherit_id]
          exact BEq.trans had hap
        | false => exact ⟨a, mem.2 (Or.inr ⟨ha, had⟩), hap, hab⟩
      · rintro ⟨a, ha, hap, hab⟩
        rcases mem.1 ha with rfl | ⟨ha, -⟩
        · obtain ⟨c, hc, hcd, hcb⟩ := (hout b.id).1 hab
          rw [inherit_id] at hap
          exact ⟨c, hc, BEq.trans hcd hap, hcb⟩
        · exact ⟨a, ha, hap, hab⟩
  · rcases mem.1 hb with rfl | ⟨hb, -⟩
    · exact h.inherit_dependents_sorted hdependents
    · exact h.edged.dependentsSorted b hb

@[simp] theorem rename_documents (w : Workspace) (d : Document) (previous? : Option Document) :
    (w.rename d previous?).documents = w.documents := by
  unfold rename
  split
  · rw [register_documents, unregisterPrevious_documents]
  · rfl

theorem distinct_rename {w : Workspace} (h : w.modules.Distinct) (d : Document)
    (previous? : Option Document) : (w.rename d previous?).modules.Distinct := by
  unfold rename
  split
  · exact distinct_register (distinct_unregisterPrevious h _ _) _
  · exact h

/-- The new document stands in the workspace when the names are brought up to date. -/
theorem find?_rename {w : Workspace} {d e : Document} {previous? : Option Document}
    (he : w.document? d.id = some e) (hname : e.moduleName? = d.moduleName?) {n : String}
    (hn : n ∉ changedNames d previous?) :
    Members.find? (w.rename d previous?).modules n = Members.find? w.modules n := by
  unfold changedNames at hn
  unfold rename
  split
  · next hrenamed =>
    rw [if_pos hrenamed, List.mem_append, Option.mem_toList, Option.mem_toList, not_or] at hn
    rw [find?_register (d := e), find?_unregisterPrevious _ _ hn.1]
    · unfold document?
      rw [unregisterPrevious_documents]
      exact he
    · rw [hname]
      exact hn.2
  · rfl

/-- A document that was not renamed declares what the one before declared. -/
theorem declares_of_not_renamed {d previous : Document} (h : isRenamed d (some previous) = false) :
    d.declares = previous.declares := by
  simp only [isRenamed, Bool.or_eq_false_iff, decide_eq_false_iff_not, Decidable.not_not] at h
  unfold Document.declares
  rw [h.1, h.2]

/-- Who holds a name after a new document took the place of another declares it. -/
theorem holds_rename {w : Workspace} (hsorted : w.documents.Sorted) {importable : Bool}
    (h : Holds w.documents importable (w.holders importable)) (d : Document) :
    let ds := w.documents.insert (inherit d (w.document? d.id))
    Holds ds importable
      ((({ w with documents := ds }).rename d (w.document? d.id)).holders importable) := by
  intro ds
  have mem {a : Document} : a ∈ ds.toList ↔
      a = inherit d (w.document? d.id) ∨ a ∈ w.documents.toList ∧ (d.id == a.id) = false := by
    rw [hsorted.mem_insert, inherit_id]
  -- who holds a name is still there, or is the document that was replaced
  have held (n : String) (p : Path) (hp : Members.find? (w.holders importable) n = some p) :
      (∃ previous, w.document? d.id = some previous ∧ previous.id == p ∧
        previous.declares importable n) ∨
          ∃ e ∈ ds.toList, e.id == p ∧ e.declares importable n := by
    obtain ⟨e, he, hep, hdecl⟩ := h n p hp
    cases hde : d.id == e.id with
    | true =>
      refine Or.inl ⟨e, ?_, hep, hdecl⟩
      exact hsorted.find?_eq_some.2 ⟨he, BEq.symm hde⟩
    | false => exact Or.inr ⟨e, mem.2 (Or.inr ⟨he, hde⟩), hep, hdecl⟩
  let inserted := { w with documents := ds }
  unfold rename
  split
  · refine Holds.register ?_ (unregisterPrevious_documents _ _ _) d.id
    refine holds_unregisterPrevious (w := inserted) fun n p hp => (held n p hp).imp_left ?_
    rintro ⟨previous, hprev, hpp, hdecl⟩
    rw [hprev]
    refine ⟨Document.moduleName?_of_declares hdecl, BEq.trans (BEq.symm hpp) ?_⟩
    exact (Documents.mem_of_find? hprev).2
  · next hrenamed =>
    intro n p hp
    rcases held n p hp with ⟨previous, hprev, hpp, hdecl⟩ | he
    · rw [hprev, Bool.not_eq_true] at hrenamed
      refine ⟨_, mem.2 (Or.inl rfl), ?_, ?_⟩
      · rw [inherit_id]
        exact BEq.trans (BEq.symm (Documents.mem_of_find? hprev).2) hpp
      · rw [inherit_declares, declares_of_not_renamed hrenamed]
        exact hdecl
    · exact he

theorem replace_holders (w : Workspace) (d : Document) (importable : Bool) :
    (w.replace d).holders importable =
      (({ w with documents := w.documents.insert (inherit d (w.document? d.id)) }).rename d
        (w.document? d.id)).holders importable := by
  unfold replace relinkImporters
  rw [rebuilt_holders, foldl_link_holders]
  exact foldl_link_holders [d.id] _ importable

/-- Putting in a document without edges of its own keeps a workspace consistent. -/
theorem Consistent.replace {w : Workspace} (h : w.Consistent) {d : Document}
    (hdeps : d.dependencies = {}) (hdependents : d.dependents = {}) :
    (w.replace d).Consistent := by
  let previous? := w.document? d.id
  let inserted := { w with documents := w.documents.insert (inherit d previous?) }
  let renamed := inserted.rename d previous?
  let names := changedNames d previous?
  have documents : renamed.documents = w.documents.insert (inherit d previous?) :=
    rename_documents _ _ _
  have mem {e : Document} : e ∈ renamed.documents.toList ↔
      e = inherit d previous? ∨ e ∈ w.documents.toList ∧ (d.id == e.id) = false := by
    rw [documents, h.edged.sorted.mem_insert, inherit_id]
  have edged : renamed.documents.Edged := by
    rw [documents]
    exact h.edged_insert hdeps hdependents
  have held : Holds renamed.documents true renamed.modules := by
    rw [documents]
    exact holds_rename h.edged.sorted h.holders_held d
  have linked (p : Path) : LinkedAt ((renamed.link d.id).relinkImporters names d.id) p := by
    apply linkedAt_settle edged
    cases hp : d.id == p with
    | true => exact Or.inl (BEq.symm hp)
    | false =>
      right
      by_cases hrefers : ∃ e ∈ w.documents.toList, e.id == p ∧ refersTo names e
      · right
        obtain ⟨e, he, hep, hrefers⟩ := hrefers
        have hed : (d.id == e.id) = false := by rw [BEq.congr_right hep, hp]
        exact ⟨e, mem.2 (Or.inr ⟨he, hed⟩), hep, BEq.comm.trans hed, hrefers⟩
      · -- the dependencies hang on names that are held as before
        left
        intro e he hep
        rcases mem.1 he with rfl | ⟨he, -⟩
        · rw [inherit_id, hp] at hep
          cases hep
        · rw [h.linked p e he hep]
          refine (resolveDependencies_of_agree names (fun n hn => ?_) ?_).symm
          · refine find?_rename (e := inherit d previous?) ?_ (inherit_moduleName d previous?) hn
            exact (h.edged.sorted.find?_insert _ _).trans (if_pos (inherit_id d previous? ▸ BEq.rfl))
          · rw [← Bool.not_eq_true]
            exact fun hr => hrefers ⟨e, he, hep, hr⟩
  have distinct : renamed.modules.Distinct :=
    distinct_rename (w := inserted) h.modulesDistinct d previous?
  exact consistent_foldl_link edged distinct held (d.id :: _) linked

/-! ## Taking a document out -/

theorem relinkImporters_nil (w : Workspace) (except_ : Path) :
    w.relinkImporters [] except_ = w := by
  have none (d : Document) : refersTo [] d = false := by
    have empty : List.contains ([] : List String) = fun _ => false := rfl
    unfold refersTo
    rw [empty]
    cases d.moduleName? <;> simp
  unfold relinkImporters
  simp only [none, Bool.and_false]
  rw [List.filter_eq_nil_iff.2 fun _ _ => Bool.false_ne_true]
  rfl

theorem removeDocument_eq (w : Workspace) (d : Document) :
    w.removeDocument d =
      ((((({ w with documents := w.documents.erase d.id }).unlink d).unregisterPrevious d.id
        d.moduleName?).relinkImporters d.moduleName?.toList d.id).detectCycles).rebuildGlobal := by
  unfold removeDocument
  cases d.moduleName? with
  | none => exact congrArg (fun v => v.detectCycles.rebuildGlobal) (relinkImporters_nil _ _).symm
  | some name => rfl

theorem removeDocument_holders (w : Workspace) (d : Document) (importable : Bool) :
    (w.removeDocument d).holders importable =
      ((({ w with documents := w.documents.erase d.id }).unlink d).unregisterPrevious d.id
        d.moduleName?).holders importable := by
  rw [removeDocument_eq, rebuilt_holders]
  exact foldl_link_holders _ _ importable

/-- What depends on a document refers to the module that the document declares. -/
theorem Consistent.refersTo_of_dependency {w : Workspace} (h : w.Consistent) {d e : Document}
    (hd : d ∈ w.documents.toList) (he : e ∈ w.documents.toList)
    (hdep : e.dependencies.contains d.id) : refersTo d.moduleName?.toList e := by
  obtain ⟨-, n, hrefers, c, hc, hcd, hdecl⟩ := h.dependency he hdep
  obtain rfl := h.edged.sorted.eq_of_beq hc hd hcd
  rw [Document.moduleName?_of_declares hdecl]
  exact hrefers

/-- Who holds a name after a document was taken out declares it. -/
theorem holds_detached {w : Workspace} (hsorted : w.documents.Sorted) {importable : Bool}
    (h : Holds w.documents importable (w.holders importable)) {d : Document}
    (hd : d ∈ w.documents.toList) :
    let unnamed :=
      (({ w with documents := w.documents.erase d.id }).unlink d).unregisterPrevious d.id
        d.moduleName?
    Holds unnamed.documents importable (unnamed.holders importable) := by
  intro unnamed
  let unlinked := ({ w with documents := w.documents.erase d.id }).unlink d
  rw [show unnamed.documents = unlinked.documents from unregisterPrevious_documents _ _ _]
  have sameHolders : unlinked.holders importable = w.holders importable := by
    cases importable <;> rfl
  refine holds_unregisterPrevious fun n p hp => ?_
  rw [sameHolders] at hp
  obtain ⟨e, he, hep, hdecl⟩ := h n p hp
  cases hed : e.id == d.id with
  | true =>
    obtain rfl := hsorted.eq_of_beq he hd hed
    exact Or.inl ⟨Document.moduleName?_of_declares hdecl, BEq.symm hep⟩
  | false =>
    right
    rw [unlink_documents]
    exact ⟨_, Documents.mem_map.2 ⟨e, Documents.mem_erase.2 ⟨he, hed⟩, rfl⟩, hep, hdecl⟩

/-- Taking a document out keeps a workspace consistent. -/
theorem Consistent.removeDocument {w : Workspace} (h : w.Consistent) {d : Document}
    (hd : d ∈ w.documents.toList) : (w.removeDocument d).Consistent := by
  let unlinked := ({ w with documents := w.documents.erase d.id }).unlink d
  let unnamed := unlinked.unregisterPrevious d.id d.moduleName?
  let settled := unnamed.relinkImporters d.moduleName?.toList d.id
  have documents : unnamed.documents = (w.documents.erase d.id).map (Document.detached d) :=
    (unregisterPrevious_documents _ _ _).trans (unlink_documents _ d)
  have edged : unnamed.documents.Edged := by
    rw [documents]
    exact edged_detached h.edged hd
  have held : Holds unnamed.documents true unnamed.modules :=
    holds_detached h.edged.sorted h.holders_held hd
  have linked (p : Path) : LinkedAt settled p := by
    apply linkedAt_relinkImporters edged
    by_cases hrefers : ∃ e ∈ unnamed.documents.toList, e.id == p ∧ refersTo d.moduleName?.toList e
    · obtain ⟨e, he, hep, hrefers⟩ := hrefers
      refine Or.inr ⟨e, he, hep, ?_, hrefers⟩
      rw [documents] at he
      obtain ⟨c, hc, rfl⟩ := Documents.mem_map.1 he
      exact (Documents.mem_erase.1 hc).2
    · left
      intro e' he' hep
      have hno : refersTo d.moduleName?.toList e' = false := by
        rw [← Bool.not_eq_true]
        exact fun hr => hrefers ⟨e', he', hep, hr⟩
      rw [documents] at he'
      obtain ⟨e, he, rfl⟩ := Documents.mem_map.1 he'
      obtain ⟨he, -⟩ := Documents.mem_erase.1 he
      have hno : refersTo d.moduleName?.toList e = false := hno
      -- the document did not depend on the one that is gone
      have apart : e.dependencies.contains d.id = false := by
        rw [← Bool.not_eq_true]
        intro hdep
        rw [h.refersTo_of_dependency hd he hdep] at hno
        cases hno
      have kept : (Document.detached d e).dependencies = e.dependencies := by
        unfold Document.detached
        dsimp only
        rw [PathSet.erase_of_not_contains apart, ite_self]
      rw [kept, h.linked e.id e he BEq.rfl]
      have same : unnamed.resolveDependencies (Document.detached d e) =
          unnamed.resolveDependencies e := resolveDependencies_eq rfl rfl
      rw [same]
      refine (resolveDependencies_of_agree _ (fun n hn => ?_) hno).symm
      rw [Option.mem_toList] at hn
      exact find?_unregisterPrevious unlinked d.id hn
  have distinct : unnamed.modules.Distinct :=
    distinct_unregisterPrevious (w := unlinked) h.modulesDistinct _ _
  rw [removeDocument_eq]
  exact consistent_foldl_link edged distinct held _ linked

/-! ## Indexing -/

theorem Consistent.crossModulePass {w : Workspace} (h : w.Consistent) :
    w.crossModulePass.Consistent := by
  have hid (d : Document) : (d.reanalyzed w.resolver).id = d.id := by
    rw [Document.reanalyzed_frame]
  have hdeps (d : Document) : (d.reanalyzed w.resolver).dependencies = d.dependencies := by
    rw [Document.reanalyzed_frame]
  have hdependents (d : Document) : (d.reanalyzed w.resolver).dependents = d.dependents := by
    rw [Document.reanalyzed_frame]
  have hdeclares (d : Document) : (d.reanalyzed w.resolver).declares = d.declares := by
    rw [Document.reanalyzed_frame]
    rfl
  have hresolve (d : Document) :
      w.resolveDependencies (d.reanalyzed w.resolver) = w.resolveDependencies d := by
    rw [Document.reanalyzed_frame]
    rfl
  exact {
    edged := h.edged.map hid hdeps hdependents
    modulesDistinct := h.modulesDistinct
    modulesHeld := h.modulesHeld.map hid hdeclares
    linked := by
      intro p d' hd' hp
      obtain ⟨d, hd, rfl⟩ := Documents.mem_map.1 hd'
      have hdp : d.id == p := hid d ▸ hp
      exact (hdeps d).trans ((h.linked p d hd hdp).trans (hresolve d).symm)
    cyclesFound := h.cyclesFound.trans (w.documents.findCycles_map hid hdeps).symm }

theorem foldl_register_documents (ids : List Path) (w : Workspace) :
    (ids.foldl register w).documents = w.documents := by
  induction ids generalizing w with
  | nil => rfl
  | cons id ids ih => rw [List.foldl_cons, ih, register_documents]

theorem holds_foldl_register {w : Workspace} {ds : Documents} {importable : Bool}
    (h : Holds ds importable (w.holders importable)) (hds : w.documents = ds)
    (ids : List Path) : Holds ds importable ((ids.foldl register w).holders importable) := by
  induction ids generalizing w with
  | nil => exact h
  | cons id ids ih => exact ih (h.register hds id) ((register_documents w id).trans hds)

theorem distinct_foldl_register {w : Workspace} (h : w.modules.Distinct) (ids : List Path) :
    (ids.foldl register w).modules.Distinct := by
  induction ids generalizing w with
  | nil => exact h
  | cons id ids ih => exact ih (distinct_register h id)

/-- The names and the edges are built from the documents alone. -/
theorem consistent_firstPass (w : Workspace) (documents : List Document) :
    (w.firstPass documents).Consistent := by
  let ds := Documents.ofList documents
  let bare := { w with documents := ds, modules := [], implementations := [] }
  let registered := ds.ids.foldl register bare
  have hds : registered.documents = ds := foldl_register_documents _ _
  have hsorted : registered.documents.Sorted := hds ▸ Documents.sorted_ofList documents
  exact {
    edged := edged_linkAll hsorted
    modulesDistinct := by
      show registered.linkAll.modules.Distinct
      rw [linkAll_modules]
      exact distinct_foldl_register (w := bare) List.Pairwise.nil _
    modulesHeld := by
      show Holds _ true registered.linkAll.modules
      rw [linkAll_modules]
      have held : Holds ds true (registered.holders true) :=
        holds_foldl_register (w := bare) (holds_nil _ _) rfl _
      exact held.of_withoutEdges (hds ▸ linkAll_withoutEdges registered)
    linked := linkedAt_linkAll hsorted
    cyclesFound := rfl }

/-- Whatever a workspace held before, it is consistent once documents were installed. -/
theorem consistent_install (w : Workspace) (documents : List Document) :
    (w.install documents).Consistent :=
  have h := (consistent_firstPass w documents).crossModulePass
  ⟨h.edged, h.modulesDistinct, h.modulesHeld, h.linked, h.cyclesFound⟩

end Workspace

end SimFront
