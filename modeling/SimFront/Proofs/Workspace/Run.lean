import SimFront.Proofs.Workspace.Consistent
import SimFront.Workspace.Edit

/-!
# Runs of a workspace

A client starts with an empty workspace and gives one command after the other; each
time an index is built the files may have changed.  Every workspace that a run comes
to is consistent (`consistent_after`), because every command keeps it so, the failing
ones by changing nothing (`performed`).  So the edges that are kept up to date from
command to command are those that would be built anew (`edges_after`).
-/

namespace SimFront

/-- What a client asks of a workspace. -/
inductive Command where
  | index (files : FileTree)
  | openText (id : Path) (text : String)
  | openFile (files : FileTree) (path : Path)
  | update (id : Path) (text : String)
  | remove (id : Path)

namespace Workspace

/-- The workspace after a command, which may have failed. -/
def perform (w : Workspace) : Command → Workspace
  | .index files => ((Edit.index files).run.run w).2
  | .openText id text => ((Edit.openText id text).run.run w).2
  | .openFile files path => ((Edit.openFile files path).run.run w).2
  | .update id text => ((Edit.update id text).run.run w).2
  | .remove id => ((Edit.remove id).run.run w).2

/-- The workspace that a run of commands comes to. -/
def after (c : Config) (commands : List Command) : Workspace :=
  commands.foldl perform { config := c }

/-! ## What the commands do -/

theorem run_get {α : Type} (f : Workspace → Edit α) (w : Workspace) :
    (get >>= f : Edit α).run.run w = (f w).run.run w := rfl

theorem perform_index (w : Workspace) (files : FileTree) :
    w.perform (.index files) =
      match loadAll files w.config with
      | .ok documents => ({ w with phase := .indexing }).install documents
      | .error _ => w := by
  show ((Edit.index files).run.run w).2 = _
  unfold Edit.index
  rw [run_get]
  cases loadAll files w.config <;> rfl

@[simp] theorem perform_openText (w : Workspace) (id : Path) (text : String) :
    w.perform (.openText id text) = w.openDocument id text := rfl

theorem perform_openFile (w : Workspace) (files : FileTree) (path : Path) :
    w.perform (.openFile files path) =
      match files.readSource path w.config.extension with
      | .ok text => w.openDocument path text
      | .error _ => w := by
  show ((Edit.openFile files path).run.run w).2 = _
  unfold Edit.openFile
  rw [run_get]
  cases files.readSource path w.config.extension <;> rfl

theorem perform_update (w : Workspace) (id : Path) (text : String) :
    w.perform (.update id text) =
      if w.documents.contains id then w.openDocument id text else w := by
  show ((Edit.update id text).run.run w).2 = _
  unfold Edit.update
  rw [run_get]
  cases w.documents.contains id <;> rfl

theorem perform_remove (w : Workspace) (id : Path) :
    w.perform (.remove id) =
      match w.document? id with
      | some d => w.removeDocument d
      | none => w := by
  show ((Edit.remove id).run.run w).2 = _
  unfold Edit.remove
  rw [run_get]
  cases w.document? id <;> rfl

/-- All that a command can do to a workspace. -/
inductive Performed (w : Workspace) : Workspace → Prop where
  | nothing : Performed w w
  | indexed {files : FileTree} {documents : List Document}
      (hload : loadAll files w.config = .ok documents) :
      Performed w (({ w with phase := .indexing }).install documents)
  | opened (id : Path) (text : String) : Performed w (w.openDocument id text)
  | removed {d : Document} (hd : d ∈ w.documents.toList) : Performed w (w.removeDocument d)

theorem performed (w : Workspace) (command : Command) : Performed w (w.perform command) := by
  cases command with
  | index files =>
    rw [perform_index]
    split
    · next hload => exact .indexed hload
    · exact .nothing
  | openText id text => exact .opened id text
  | openFile files path =>
    rw [perform_openFile]
    split
    · exact .opened path _
    · exact .nothing
  | update id text =>
    rw [perform_update]
    split
    · exact .opened id text
    · exact .nothing
  | remove id =>
    rw [perform_remove]
    split
    · next d hd => exact .removed (Documents.mem_of_find? hd).1
    · exact .nothing

/-! ## Consistency -/

/-- A document that was made from a text is in no edge yet. -/
theorem analyzeText_edges (w : Workspace) (id : Path) (text : String) :
    (w.analyzeText id text).dependencies = {} ∧ (w.analyzeText id text).dependents = {} := by
  unfold analyzeText Document.ofText
  rw [Document.analyzed_frame]
  exact ⟨rfl, rfl⟩

theorem Consistent.openDocument {w : Workspace} (h : w.Consistent) (id : Path) (text : String) :
    (w.openDocument id text).Consistent := by
  obtain ⟨hdeps, hdependents⟩ := w.analyzeText_edges id text
  exact h.replace hdeps hdependents

theorem Consistent.performed {w v : Workspace} (h : w.Consistent) (hv : Performed w v) :
    v.Consistent := by
  cases hv with
  | nothing => exact h
  | indexed _ => exact consistent_install _ _
  | opened id text => exact h.openDocument id text
  | removed hd => exact h.removeDocument hd

theorem Consistent.perform {w : Workspace} (h : w.Consistent) (command : Command) :
    (w.perform command).Consistent :=
  h.performed (w.performed command)

/-- What is true of the new workspace, and kept by every command, is true of every workspace
that a run comes to. -/
theorem after_induction {P : Workspace → Prop} {c : Config} (start : P { config := c })
    (step : ∀ {w v}, w.Consistent → P w → Performed w v → P v) (commands : List Command) :
    P (after c commands) := by
  have run (commands : List Command) : ∀ w : Workspace, w.Consistent → P w →
      P (commands.foldl Workspace.perform w) := by
    induction commands with
    | nil => exact fun _ _ h => h
    | cons command commands ih =>
      exact fun w hw h => ih _ (hw.perform command) (step hw h (w.performed command))
  exact run commands _ (consistent_new c) start

/-- Every workspace that a run of commands comes to is consistent. -/
theorem consistent_after (c : Config) (commands : List Command) :
    (after c commands).Consistent :=
  after_induction (consistent_new c) (fun hw _ hv => hw.performed hv) commands

/-- In every workspace that a run comes to, the dependencies of each document are those that
the current modules give it, and are other documents of the workspace; each edge is known
at both ends; building all edges anew changes none of them; and the cycles are those of
the documents. -/
theorem edges_after (c : Config) (commands : List Command) :
    let w := after c commands
    (∀ d ∈ w.documents.toList, d.dependencies = w.resolveDependencies d) ∧
      (∀ d ∈ w.documents.toList, ∀ p, d.dependencies.contains p →
        w.documents.contains p ∧ (p == d.id) = false) ∧
      (∀ b ∈ w.documents.toList, ∀ p, b.dependents.contains p ↔
        ∃ a ∈ w.documents.toList, a.id == p ∧ a.dependencies.contains b.id) ∧
      (∀ id, w.linkAll.dependencies id = w.dependencies id ∧
        w.linkAll.dependents id == w.dependents id) ∧
      w.cycles = w.documents.findCycles := by
  intro w
  have h : w.Consistent := consistent_after c commands
  refine ⟨fun d hd => h.linked d.id d hd BEq.rfl, fun d hd p hp => ?_, h.edged.symmetric,
    fun id => ?_, h.cyclesFound⟩
  · obtain ⟨hne, n, -, e, he, hep, -⟩ := h.dependency hd hp
    exact ⟨Documents.contains_eq_true.2 ⟨e, he, hep⟩, BEq.comm.trans hne⟩
  · exact edges_determined h.edged (edged_linkAll h.edged.sorted) h.linked
      (linkedAt_linkAll h.edged.sorted) (linkAll_modules w) (linkAll_withoutEdges w) id

end Workspace

end SimFront
