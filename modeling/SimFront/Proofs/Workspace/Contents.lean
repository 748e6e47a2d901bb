import SimFront.Proofs.Workspace.Run

/-!
# What the documents of a workspace hold

The content of a document is all of it but its version and its edges.  Putting a document
in or taking one out changes what is held at its path and nothing else
(`content?_replace`, `content?_removeDocument`).  What is true of every document that is
made from a text, or from a file, is true of all documents of every workspace that a run
comes to (`forall_documents_after`).
-/

namespace SimFront

namespace Document

/-- A document without its version and its place in the graph of imports. -/
def content (d : Document) : Document :=
  { d with version := 0, dependencies := {}, dependents := {} }

@[simp] theorem content_id (d : Document) : d.content.id = d.id := rfl

theorem content_of_withoutEdges {d e : Document} (h : e.withoutEdges = d.withoutEdges) :
    e.content = d.content := by
  show e.withoutEdges.content = d.withoutEdges.content
  rw [h]

@[simp] theorem load_id (files : FileTree) (mode : Mode) (p : Path) :
    (load files mode p).id = p := by
  unfold load ofText
  split
  · rw [analyzed_frame]
    rfl
  · rfl

end Document

namespace Workspace

/-- The content of the document with a path. -/
def content? (w : Workspace) (id : Path) : Option Document :=
  (w.document? id).map Document.content

theorem content_inherit (d : Document) (previous? : Option Document) :
    (inherit d previous?).content = d.content := by
  cases previous? <;> rfl

theorem find?_content_of_withoutEdges {ds es : Documents}
    (h : es.map Document.withoutEdges = ds.map Document.withoutEdges) (id : Path) :
    (es.find? id).map Document.content = (ds.find? id).map Document.content := by
  have through (d? : Option Document) :
      d?.map Document.content = (d?.map Document.withoutEdges).map Document.content := by
    cases d? <;> rfl
  rw [through, find?_of_withoutEdges h, ← through]

/-! ## Putting in and taking out -/

theorem replace_withoutEdges (w : Workspace) (d : Document) :
    (w.replace d).documents.map Document.withoutEdges =
      (w.documents.insert (inherit d (w.document? d.id))).map Document.withoutEdges := by
  show ((d.id :: _).foldl link _).documents.map Document.withoutEdges = _
  rw [foldl_link_withoutEdges, rename_documents]

/-- The new document is found at its path, and the others as before. -/
theorem content?_replace {w : Workspace} (h : w.documents.Sorted) (d : Document) (id : Path) :
    (w.replace d).content? id = if d.id == id then some d.content else w.content? id := by
  refine (find?_content_of_withoutEdges (w.replace_withoutEdges d) id).trans ?_
  rw [h.find?_insert, inherit_id]
  split
  · rw [Option.map_some, content_inherit]
  · rfl

theorem removeDocument_withoutEdges (w : Workspace) (d : Document) :
    (w.removeDocument d).documents.map Document.withoutEdges =
      (w.documents.erase d.id).map Document.withoutEdges := by
  rw [removeDocument_eq]
  show (List.foldl link _ _).documents.map Document.withoutEdges = _
  rw [foldl_link_withoutEdges, unregisterPrevious_documents, unlink_documents, Documents.map_map]
  rfl

/-- Nothing is found at the path of a document that was taken out, and the others as before. -/
theorem content?_removeDocument (w : Workspace) (d : Document) (id : Path) :
    (w.removeDocument d).content? id = if d.id == id then none else w.content? id := by
  refine (find?_content_of_withoutEdges (w.removeDocument_withoutEdges d) id).trans ?_
  rw [Documents.find?_erase]
  split <;> rfl

/-! ## Indexing -/

theorem firstPass_withoutEdges (w : Workspace) (documents : List Document) :
    (w.firstPass documents).documents.map Document.withoutEdges =
      (Documents.ofList documents).map Document.withoutEdges := by
  show (linkAll _).documents.map Document.withoutEdges = _
  rw [linkAll_withoutEdges, foldl_register_documents]

theorem install_documents (w : Workspace) (documents : List Document) :
    (w.install documents).documents =
      (w.firstPass documents).documents.map (·.reanalyzed (w.firstPass documents).resolver) :=
  rfl

/-- The documents of sources have the paths of files. -/
theorem loadAll_eq_load {files : FileTree} {c : Config} {documents : List Document}
    (h : loadAll files c = .ok documents) {d : Document} (hd : d ∈ documents) :
    d = Document.load files c.mode d.id := by
  unfold loadAll at h
  cases hpaths : collect files c c.roots with
  | error e =>
    rw [hpaths] at h
    cases h
  | ok paths =>
    rw [hpaths] at h
    cases h
    obtain ⟨p, -, rfl⟩ := List.mem_map.1 hd
    rw [Document.load_id]

/-! ## Along a run -/

section Everywhere

variable {P : Document → Prop}

theorem forall_of_withoutEdges (hcontent : ∀ d, P d.content ↔ P d) {ds es : Documents}
    (hsame : es.map Document.withoutEdges = ds.map Document.withoutEdges)
    (h : ∀ d ∈ ds.toList, P d) : ∀ e ∈ es.toList, P e := by
  intro e he
  obtain ⟨d, hd, hde⟩ := mem_of_withoutEdges_eq hsame.symm he
  rw [← hcontent, ← Document.content_of_withoutEdges hde, hcontent]
  exact h d hd

theorem forall_replace (hcontent : ∀ d, P d.content ↔ P d) {w : Workspace}
    (hsorted : w.documents.Sorted) (h : ∀ d ∈ w.documents.toList, P d) {d : Document}
    (hd : P d) : ∀ e ∈ (w.replace d).documents.toList, P e := by
  refine forall_of_withoutEdges hcontent (w.replace_withoutEdges d) fun e he => ?_
  rcases hsorted.mem_insert.1 he with rfl | ⟨he, -⟩
  · rwa [← hcontent, content_inherit, hcontent]
  · exact h e he

theorem forall_removeDocument (hcontent : ∀ d, P d.content ↔ P d) {w : Workspace}
    (h : ∀ d ∈ w.documents.toList, P d) (d : Document) :
    ∀ e ∈ (w.removeDocument d).documents.toList, P e :=
  forall_of_withoutEdges hcontent (w.removeDocument_withoutEdges d)
    fun e he => h e (Documents.mem_erase.1 he).1

theorem forall_install (hcontent : ∀ d, P d.content ↔ P d)
    (hagain : ∀ d resolver, P d → P (d.reanalyzed resolver)) (w : Workspace)
    {documents : List Document} (h : ∀ d ∈ documents, P d) :
    ∀ e ∈ (w.install documents).documents.toList, P e := by
  intro e he
  rw [install_documents] at he
  obtain ⟨d, hd, rfl⟩ := Documents.mem_map.1 he
  refine hagain d _ (forall_of_withoutEdges hcontent (w.firstPass_withoutEdges documents) ?_ d hd)
  exact fun d hd => h d (Documents.mem_of_mem_ofList hd)

variable (hcontent : ∀ d, P d.content ↔ P d)
  (htext : ∀ id text mode resolver?, P (Document.ofText id text mode resolver?))
  (hload : ∀ files mode id, P (Document.load files mode id))
  (hagain : ∀ d resolver, P d → P (d.reanalyzed resolver))

include hcontent htext hload hagain

theorem forall_performed {w v : Workspace} (hsorted : w.documents.Sorted)
    (h : ∀ d ∈ w.documents.toList, P d) (hv : Performed w v) :
    ∀ d ∈ v.documents.toList, P d := by
  cases hv with
  | nothing => exact h
  | indexed hloaded =>
    refine forall_install hcontent hagain _ fun d hd => ?_
    rw [loadAll_eq_load hloaded hd]
    exact hload _ _ _
  | opened id text => exact forall_replace hcontent hsorted h (htext id text _ _)
  | removed _ => exact forall_removeDocument hcontent h _

/-- What is true of the documents that are made from texts and files, and still true after
another analysis, is true of all documents in every workspace that a run comes to. -/
theorem forall_documents_after (c : Config) (commands : List Command) :
    ∀ d ∈ (after c commands).documents.toList, P d :=
  after_induction (P := fun w => ∀ d ∈ w.documents.toList, P d) (fun _ hd => nomatch hd)
    (fun hw h hv => forall_performed hcontent htext hload hagain hw.edged.sorted h hv) commands

end Everywhere

end Workspace

end SimFront
