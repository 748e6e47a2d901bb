import SimFront.Proofs.Workspace.Names
import SimFront.Proofs.Workspace.Search
import SimFront.Proofs.Workspace.Texts

/-!
# The order of edits

Where no module is declared twice, the names of modules hang on what is declared alone,
not on who came first (`Alike.holder`).  Then so do the edges and the cycles
(`Alike.sameGraph`): the graph of a workspace can be told from its final texts, in
whatever order the client came to them, and is the one that is built from all of them at
once (`graph_of_texts`).
-/

namespace SimFront

/-! ## Headings -/

namespace Document

/-- The texts of two documents start alike: they declare the same module and import the same
ones.  The graph of imports sees nothing else of a text. -/
structure SameHeading (d e : Document) : Prop where
  moduleName : e.moduleName? = d.moduleName?
  moduleKind : e.moduleKind? = d.moduleKind?
  imports : e.imports = d.imports

theorem SameHeading.symm {d e : Document} (h : d.SameHeading e) : e.SameHeading d :=
  ⟨h.moduleName.symm, h.moduleKind.symm, h.imports.symm⟩

theorem SameHeading.declares {d e : Document} (h : d.SameHeading e) :
    e.declares = d.declares := by
  unfold Document.declares
  rw [h.moduleName, h.moduleKind]

theorem SameHeading.refersTo {d e : Document} (h : d.SameHeading e) (names : List String) :
    Workspace.refersTo names e = Workspace.refersTo names d := by
  unfold Workspace.refersTo isImplementation
  rw [h.moduleName, h.moduleKind, h.imports]

theorem Reads.heading {mode : Mode} {text : String} {d : Document} (h : d.Reads mode text) :
    (ofSource d.id (.ofText text mode)).SameHeading d := by
  obtain ⟨resolver?, hd⟩ := h
  unfold ofText at hd
  rw [analyzed_frame] at hd
  exact ⟨congrArg (·.moduleName?) hd, congrArg (·.moduleKind?) hd, congrArg (·.imports) hd⟩

/-- Documents of one text have the same heading. -/
theorem Reads.sameHeading {mode : Mode} {text : String} {d e : Document}
    (hd : d.Reads mode text) (he : e.Reads mode text) : d.SameHeading e :=
  ⟨he.heading.moduleName.trans hd.heading.moduleName.symm,
    he.heading.moduleKind.trans hd.heading.moduleKind.symm,
    he.heading.imports.trans hd.heading.imports.symm⟩

end Document

/-! ## Collections of the same texts -/

namespace Documents

/-- No module that can be imported, and no implementation module, is declared by two
documents. -/
def Unambiguous (ds : Documents) : Prop :=
  ∀ d ∈ ds.toList, ∀ e ∈ ds.toList, ∀ importable name,
    d.declares importable name → e.declares importable name → d.id == e.id

/-- Documents whose modules all have different names are unambiguous. -/
theorem unambiguous_of_nodup {ds : Documents}
    (h : (ds.toList.filterMap (·.moduleName?)).Nodup) : ds.Unambiguous := by
  intro d hd e he importable name hdecl hdecl'
  have hname := Document.moduleName?_of_declares hdecl
  have hname' := Document.moduleName?_of_declares hdecl'
  have apart := List.pairwise_filterMap.1 h
  have same : d.moduleName? = some name → e.moduleName? = some name → d = e := by
    refine List.Pairwise.forall_of_forall_of_flip
      (R := fun x y : Document => x.moduleName? = some name → y.moduleName? = some name → x = y)
      (fun _ _ _ _ => rfl) (apart.imp fun hxy hx hy => ?_) (apart.imp fun hxy hy hx => ?_) hd he
    · exact absurd rfl (hxy name hx name hy)
    · exact absurd rfl (hxy name hx name hy)
  rw [same hname hname']
  exact BEq.rfl

/-- Each document has a counterpart of the same path and heading in another collection. -/
def Mirrored (ds es : Documents) : Prop :=
  ∀ d ∈ ds.toList, ∃ e ∈ es.toList, e.id == d.id ∧ d.SameHeading e

theorem Unambiguous.of_mirrored {ds es : Documents} (h : ds.Unambiguous)
    (hmirrored : es.Mirrored ds) : es.Unambiguous := by
  intro d hd e he importable name hdecl hdecl'
  obtain ⟨d', hd', hdd', hheading⟩ := hmirrored d hd
  obtain ⟨e', he', hee', hheading'⟩ := hmirrored e he
  rw [← hheading.declares] at hdecl
  rw [← hheading'.declares] at hdecl'
  have same := h d' hd' e' he' importable name hdecl hdecl'
  exact BEq.trans (BEq.symm hdd') (BEq.trans same hee')

theorem mirrored_of_collects {mode : Mode} {texts : Texts}
    (hcongr : ∀ {p q}, p == q → texts p = texts q) {ds es : Documents}
    (hds : Collects mode texts ds.toList) (hes : Collects mode texts es.toList) :
    ds.Mirrored es := by
  intro d hd
  obtain ⟨text, htext, hreads⟩ := hds.read d hd
  obtain ⟨e, he, hed⟩ := hes.complete d.id (Option.isSome_of_eq_some htext)
  obtain ⟨text', htext', hreads'⟩ := hes.read e he
  rw [hcongr hed, htext] at htext'
  obtain rfl := Option.some.inj htext'
  exact ⟨e, he, hed, hreads.sameHeading hreads'⟩

end Documents

namespace Workspace

/-! ## The graph is settled by the headings -/

/-- Two workspaces in which the names and the edges are right, and which have documents of the
same paths and headings, no two of them of one module. -/
structure Alike (w v : Workspace) : Prop where
  consistent : w.Consistent
  consistent' : v.Consistent
  namesExact : w.NamesExact
  namesExact' : v.NamesExact
  mirrored : w.documents.Mirrored v.documents
  mirrored' : v.documents.Mirrored w.documents
  unambiguous : w.documents.Unambiguous

/-- Two workspaces have the same names of modules, the same edges and the same cycles, but for
how the paths in them are written. -/
structure SameGraph (w v : Workspace) : Prop where
  ids : v.documents.ids == w.documents.ids
  modules : ∀ name, Members.find? v.modules name == Members.find? w.modules name
  implementations : ∀ name,
    Members.find? v.implementations name == Members.find? w.implementations name
  dependencies : ∀ id, v.dependencies id == w.dependencies id
  dependents : ∀ id, v.dependents id == w.dependents id
  cycles : v.cycles == w.cycles

variable {w v : Workspace}

theorem Alike.symm (h : w.Alike v) : v.Alike w :=
  ⟨h.consistent', h.consistent, h.namesExact', h.namesExact, h.mirrored', h.mirrored,
    h.unambiguous.of_mirrored h.mirrored'⟩

/-- The document that holds a name is the one that declares it. -/
theorem Alike.holder (h : w.Alike v) {importable : Bool} {name : String} {p : Path}
    (hp : Members.find? (w.holders importable) name = some p) :
    ∃ q, Members.find? (v.holders importable) name = some q ∧ q == p := by
  obtain ⟨d, hd, hdp, hdecl⟩ := h.namesExact.held importable name p hp
  -- the counterpart of the holder declares the name, so somebody holds it
  obtain ⟨e, he, -, hheading⟩ := h.mirrored d hd
  rw [← hheading.declares] at hdecl
  obtain ⟨q, hq⟩ := Option.isSome_iff_exists.1 (h.namesExact'.covered importable e he name hdecl)
  refine ⟨q, hq, ?_⟩
  -- and whoever holds it is the counterpart of the holder
  obtain ⟨e', he', heq, hdecl'⟩ := h.namesExact'.held importable name q hq
  obtain ⟨d', hd', hde', hheading'⟩ := h.mirrored' e' he'
  rw [← hheading'.declares] at hdecl'
  rw [hheading.declares] at hdecl
  have same := h.unambiguous d' hd' d hd importable name hdecl' hdecl
  exact BEq.trans (BEq.symm (BEq.trans hde' heq)) (BEq.trans same hdp)

theorem Alike.holders_beq (h : w.Alike v) (importable : Bool) (name : String) :
    Members.find? (v.holders importable) name == Members.find? (w.holders importable) name := by
  cases hp : Members.find? (w.holders importable) name with
  | some p =>
    obtain ⟨q, hq, hqp⟩ := h.holder hp
    rw [hq]
    exact hqp
  | none =>
    cases hq : Members.find? (v.holders importable) name with
    | some q =>
      obtain ⟨p, hp', -⟩ := h.symm.holder hq
      rw [hp] at hp'
      cases hp'
    | none => rfl

/-! ## Edges -/

theorem sorted_resolveDependencies (w : Workspace) (d : Document) :
    (w.resolveDependencies d).Sorted :=
  (PathSet.sorted_ofList _).erase _

theorem Alike.contains_resolveDependencies (h : w.Alike v) {d e : Document} (hid : e.id == d.id)
    (hheading : d.SameHeading e) (p : Path) :
    (v.resolveDependencies e).contains p = (w.resolveDependencies d).contains p := by
  have dependency {w v : Workspace} (h : w.Alike v) {d e : Document} (hid : e.id == d.id)
      (hheading : d.SameHeading e) (hp : (w.resolveDependencies d).contains p) :
      (v.resolveDependencies e).contains p := by
    obtain ⟨hne, n, q, hrefers, hfind, hqp⟩ := Workspace.contains_resolveDependencies.1 hp
    have hheld : Members.find? (w.holders true) n = some q := hfind
    obtain ⟨q', hfind', hqq'⟩ := h.holder hheld
    refine Workspace.contains_resolveDependencies.2 ⟨?_, n, q', ?_, hfind', BEq.trans hqq' hqp⟩
    · rw [BEq.congr_left hid]
      exact hne
    · rw [hheading.refersTo]
      exact hrefers
  rw [Bool.eq_iff_iff]
  exact ⟨dependency h.symm (BEq.symm hid) hheading.symm, dependency h hid hheading⟩

theorem Alike.contains_dependencies (h : w.Alike v) {d e : Document}
    (hd : d ∈ w.documents.toList) (he : e ∈ v.documents.toList) (hid : e.id == d.id)
    (hheading : d.SameHeading e) (p : Path) :
    e.dependencies.contains p = d.dependencies.contains p := by
  rw [h.consistent.linked d.id d hd BEq.rfl, h.consistent'.linked e.id e he BEq.rfl]
  exact h.contains_resolveDependencies hid hheading p

theorem Consistent.sorted_dependencies (h : w.Consistent) {d : Document}
    (hd : d ∈ w.documents.toList) : d.dependencies.Sorted := by
  rw [h.linked d.id d hd BEq.rfl]
  exact sorted_resolveDependencies w d

theorem Alike.dependencies_components (h : w.Alike v) {d e : Document}
    (hd : d ∈ w.documents.toList) (he : e ∈ v.documents.toList) (hid : e.id == d.id)
    (hheading : d.SameHeading e) :
    e.dependencies.toList.map Path.components = d.dependencies.toList.map Path.components :=
  (h.consistent'.sorted_dependencies he).components_of_contains
    (h.consistent.sorted_dependencies hd) (h.contains_dependencies hd he hid hheading)

theorem Alike.contains_dependents (h : w.Alike v) {d e : Document}
    (hd : d ∈ w.documents.toList) (he : e ∈ v.documents.toList) (hid : e.id == d.id) (p : Path) :
    e.dependents.contains p = d.dependents.contains p := by
  have dependent {w v : Workspace} (h : w.Alike v) {d e : Document}
      (hd : d ∈ w.documents.toList) (he : e ∈ v.documents.toList) (hid : e.id == d.id)
      (hp : d.dependents.contains p) : e.dependents.contains p := by
    obtain ⟨a, ha, hap, had⟩ := (h.consistent.edged.symmetric d hd p).1 hp
    obtain ⟨b, hb, hba, hheading⟩ := h.mirrored a ha
    refine (h.consistent'.edged.symmetric e he p).2 ⟨b, hb, BEq.trans hba hap, ?_⟩
    rw [h.contains_dependencies ha hb hba hheading, PathSet.contains_congr hid]
    exact had
  rw [Bool.eq_iff_iff]
  exact ⟨dependent h.symm he hd (BEq.symm hid), dependent h hd he hid⟩

/-! ## The whole graph -/

theorem Alike.nodes (h : w.Alike v) : v.documents.nodes = w.documents.nodes := by
  have sorted {ds : Documents} (hds : ds.Sorted) :
      ds.nodes.Pairwise fun a b => compare a.1 b.1 = .lt :=
    List.pairwise_map.2 hds
  have node {w v : Workspace} (h : w.Alike v) {n : List Component × List (List Component)}
      (hn : n ∈ w.documents.nodes) : n ∈ v.documents.nodes := by
    obtain ⟨d, hd, rfl⟩ := List.mem_map.1 hn
    obtain ⟨e, he, hid, hheading⟩ := h.mirrored d hd
    refine List.mem_map.2 ⟨e, he, ?_⟩
    unfold Document.node
    rw [Path.beq_iff.1 hid, h.dependencies_components hd he hid hheading]
  exact PathSet.eq_of_sorted_of_mem Prod.fst (sorted h.consistent'.edged.sorted)
    (sorted h.consistent.edged.sorted) fun n => ⟨node h.symm, node h⟩

/-- The documents of a path are there together. -/
theorem Alike.document? (h : w.Alike v) (id : Path) :
    Option.Rel (fun d e => d ∈ w.documents.toList ∧ e ∈ v.documents.toList ∧ e.id == d.id ∧
      d.SameHeading e) (w.document? id) (v.document? id) := by
  have counterpart {w v : Workspace} (h : w.Alike v) {d : Document}
      (hd : w.document? id = some d) :
      ∃ e, v.document? id = some e ∧ e ∈ v.documents.toList ∧ e.id == d.id ∧
        d.SameHeading e := by
    obtain ⟨hmem, hid⟩ := Documents.mem_of_find? hd
    obtain ⟨e, he, hed, hheading⟩ := h.mirrored d hmem
    exact ⟨e, h.consistent'.edged.sorted.find?_eq_some.2 ⟨he, BEq.trans hed hid⟩, he, hed,
      hheading⟩
  cases hd : w.document? id with
  | some d =>
    obtain ⟨e, he, hmem, hid, hheading⟩ := counterpart h hd
    rw [he]
    exact .some ⟨(Documents.mem_of_find? hd).1, hmem, hid, hheading⟩
  | none =>
    cases he : v.document? id with
    | some e =>
      obtain ⟨d, hd', -⟩ := counterpart h.symm he
      rw [hd] at hd'
      cases hd'
    | none => exact .none

/-- The names of modules, the edges and the cycles hang on the headings of the documents
alone. -/
theorem Alike.sameGraph (h : w.Alike v) : SameGraph w v where
  ids := by
    apply Path.list_beq_of_map_components
    rw [Documents.ids_components, Documents.ids_components, h.nodes]
  modules := h.holders_beq true
  implementations := h.holders_beq false
  dependencies := by
    intro id
    unfold Workspace.dependencies
    have hdocuments := h.document? id
    generalize w.document? id = d?, v.document? id = e? at hdocuments ⊢
    cases hdocuments with
    | none => rfl
    | some hde =>
      obtain ⟨hd, he, hid, hheading⟩ := hde
      exact Path.list_beq_of_map_components (h.dependencies_components hd he hid hheading)
  dependents := by
    intro id
    unfold Workspace.dependents
    have hdocuments := h.document? id
    generalize w.document? id = d?, v.document? id = e? at hdocuments ⊢
    cases hdocuments with
    | none => rfl
    | @some d e hde =>
      obtain ⟨hd, he, hid, -⟩ := hde
      exact (h.consistent'.edged.dependentsSorted e he).beq_of_contains
        (h.consistent.edged.dependentsSorted d hd) (h.contains_dependents hd he hid)
  cycles := by
    rw [h.consistent.cyclesFound, h.consistent'.cyclesFound]
    exact Documents.findCycles_beq h.nodes

/-! ## Runs -/

/-- Which of some `==` paths is asked for makes no difference to the texts. -/
theorem textsAfter_congr (changes : List Change) {p q : Path} (h : p == q) :
    textsAfter changes p = textsAfter changes q := by
  have run (changes : List Change) : ∀ texts : Texts, texts p = texts q →
      changes.foldl Change.texts texts p = changes.foldl Change.texts texts q := by
    induction changes with
    | nil => exact fun _ htexts => htexts
    | cons change changes ih =>
      refine fun texts htexts => ih _ ?_
      cases change <;> simp only [Change.texts, htexts, BEq.congr_right h]
  exact run changes _ rfl

/-- **Order of edits.**  A client that opens, updates and removes documents leaves documents of
the texts that can be told from what it did.  When no two of them declare one module, every
other client that leaves the same texts leaves the same graph: the same names of modules,
dependencies, dependents and cycles.  It is the graph that is built at once from any documents
of these texts, in any order and whatever the workspace held before. -/
theorem graph_of_texts (c : Config) (changes : List Change)
    (hunambiguous : (after c (changes.map Change.command)).documents.Unambiguous) :
    let w := after c (changes.map Change.command)
    let texts := textsAfter changes
    Collects c.mode texts w.documents.toList ∧
      (∀ changes', (∀ p, textsAfter changes' p = texts p) →
        SameGraph w (after c (changes'.map Change.command))) ∧
      ∀ (v : Workspace) (documents : List Document), Collects c.mode texts documents →
        SameGraph w (v.install documents) := by
  intro w texts
  have collected : Collects c.mode texts w.documents.toList := collects_after c changes
  have alike {v : Workspace} (hconsistent : v.Consistent) (hnames : v.NamesExact)
      (hcollects : Collects c.mode texts v.documents.toList) : w.Alike v :=
    { consistent := consistent_after c _
      consistent' := hconsistent
      namesExact := namesExact_after c _
      namesExact' := hnames
      mirrored := Documents.mirrored_of_collects (textsAfter_congr changes) collected hcollects
      mirrored' := Documents.mirrored_of_collects (textsAfter_congr changes) hcollects collected
      unambiguous := hunambiguous }
  refine ⟨collected, fun changes' hsame => ?_, fun v documents hdocuments => ?_⟩
  · have htexts : textsAfter changes' = texts := funext hsame
    refine (alike (consistent_after c _) (namesExact_after c _) ?_).sameGraph
    rw [← htexts]
    exact collects_after c changes'
  · exact (alike (consistent_install v documents) (namesExact_install v documents)
      (collects_install hdocuments v)).sameGraph

/-- Two documents of `M` for a while, a text that does not parse, a new name and a document that
comes and goes leave no trace. -/
theorem graph_of_texts_renamed :
    let a : Path := ⟨"a.mod"⟩
    let b : Path := ⟨"b.mod"⟩
    let u : Path := ⟨"u.mod"⟩
    let m := "DEFINITION MODULE M; IMPORT U; END MODULE."
    let n := "DEFINITION MODULE N; END MODULE."
    let k := "MODULE U; IMPORT M; END MODULE."
    let x : Path := ⟨"x.mod"⟩
    let changes : List Change := [.openText a m, .openText b m, .openText u k,
      .update a "MODULE", .update a n, .openText x k, .remove x]
    let direct : List Change := [.openText b m, .openText u k, .openText a n]
    let w := after {} (changes.map Change.command)
    w.documents.Unambiguous ∧ (∀ p, textsAfter direct p = textsAfter changes p) ∧
      w.cycles.map (List.map Path.text) = [["b.mod", "u.mod"]] ∧
      SameGraph w (after {} (direct.map Change.command)) ∧
      SameGraph w (({} : Workspace).install w.documents.toList) := by
  intro a b u m n k x changes direct w
  have hfinal : (w.documents.toList.filterMap (·.moduleName?)).Nodup ∧
      w.cycles.map (List.map Path.text) = [["b.mod", "u.mod"]] := by
    decide +kernel
  have hunambiguous : w.documents.Unambiguous := Documents.unambiguous_of_nodup hfinal.1
  have hsame (p : Path) : textsAfter direct p = textsAfter changes p := by
    simp only [direct, changes, textsAfter, List.foldl_cons, List.foldl_nil, Change.texts]
    have apart {q r : Path} (hqr : (q == r) = false) (hq : q == p) : (r == p) = false := by
      rw [← BEq.congr_right hq, BEq.comm, hqr]
    cases hx : x == p with
    | true =>
      simp [apart (show (x == a) = false by decide +kernel) hx,
        apart (show (x == b) = false by decide +kernel) hx,
        apart (show (x == u) = false by decide +kernel) hx]
    | false =>
      cases ha : a == p with
      | true => simp [apart (show (a == u) = false by decide +kernel) ha]
      | false => simp
  have settled := graph_of_texts {} changes hunambiguous
  refine ⟨hunambiguous, hsame, hfinal.2, settled.2.1 direct hsame, ?_⟩
  have hw : w = after {} (changes.map Change.command) := rfl
  rw [hw]
  exact settled.2.2 {} _ settled.1

end Workspace

end SimFront
