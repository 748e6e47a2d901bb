import SimFront.Proofs.Workspace.Run

/-!
# Commands that fail

Whether a command fails, and why, can be told beforehand from the workspace and the files
(`Refuses`).  A command that fails leaves the workspace as it was, even where it has changed the
phase before it finds out (`refused_unchanged`).  So a run of commands comes to the same without
those that fail (`after_accepted`).
-/

namespace SimFront

namespace Workspace

/-! ## Phases -/

@[simp] theorem replace_phase (w : Workspace) (d : Document) : (w.replace d).phase = w.phase := by
  show ((d.id :: _).foldl link _).phase = _
  rw [foldl_link_eq]
  unfold rename
  split
  · rw [register_eq]
    cases (w.document? d.id).bind (·.moduleName?) <;> rfl
  · rfl

@[simp] theorem removeDocument_phase (w : Workspace) (d : Document) :
    (w.removeDocument d).phase = w.phase := by
  rw [removeDocument_eq]
  show (List.foldl link _ _).phase = _
  rw [foldl_link_eq]
  cases d.moduleName? <;> rfl

/-- Between commands, nothing is being indexed. -/
theorem phase_after (c : Config) (commands : List Command) :
    (after c commands).phase ≠ .indexing := by
  refine after_induction (P := fun w => w.phase ≠ .indexing) nofun ?_ commands
  intro w v _ h hv
  cases hv with
  | nothing => exact h
  | indexed _ => exact nofun
  | opened id text => exact (replace_phase w _).symm ▸ h
  | removed _ => exact (removeDocument_phase w _).symm ▸ h

/-! ## Failures -/

/-- Why an operation fails, if it does. -/
def failure? {α : Type} : Except WorkspaceError α → Option WorkspaceError
  | .ok _ => none
  | .error e => some e

/-- Why a workspace does not do what a command asks for, if it does not. -/
def refusal? (w : Workspace) : Command → Option WorkspaceError
  | .index files => failure? ((Edit.index files).run.run w).1
  | .openText id text => failure? ((Edit.openText id text).run.run w).1
  | .openFile files path => failure? ((Edit.openFile files path).run.run w).1
  | .update id text => failure? ((Edit.update id text).run.run w).1
  | .remove id => failure? ((Edit.remove id).run.run w).1

theorem refusal?_index (w : Workspace) (files : FileTree) :
    w.refusal? (.index files) = failure? (loadAll files w.config) := by
  show failure? ((Edit.index files).run.run w).1 = _
  unfold Edit.index
  rw [run_get]
  cases loadAll files w.config <;> rfl

theorem refusal?_openFile (w : Workspace) (files : FileTree) (path : Path) :
    w.refusal? (.openFile files path) =
      match files.readSource path w.config.extension with
      | .ok _ => none
      | .error e => some e.toWorkspaceError := by
  show failure? ((Edit.openFile files path).run.run w).1 = _
  unfold Edit.openFile
  rw [run_get]
  cases files.readSource path w.config.extension <;> rfl

theorem refusal?_update (w : Workspace) (id : Path) (text : String) :
    w.refusal? (.update id text) =
      if w.documents.contains id then none else some (.unknownDocument id) := by
  show failure? ((Edit.update id text).run.run w).1 = _
  unfold Edit.update
  rw [run_get]
  cases w.documents.contains id <;> rfl

theorem refusal?_remove (w : Workspace) (id : Path) :
    w.refusal? (.remove id) =
      match w.document? id with
      | some _ => none
      | none => some (.unknownDocument id) := by
  show failure? ((Edit.remove id).run.run w).1 = _
  unfold Edit.remove
  rw [run_get]
  cases w.document? id <;> rfl

/-! ## Missing roots -/

/-- The sources cannot be collected if there is a root that is no directory, and the first such
root is the reason. -/
theorem failure?_collect (files : FileTree) (c : Config) (roots : List Path) :
    failure? (collect files c roots) =
      (roots.find? fun root => !(files.find? root).any (·.isDirectory)).map .rootNotFound := by
  induction roots with
  | nil => rfl
  | cons root roots ih =>
    rw [collect, List.find?_cons]
    cases (files.find? root).any (·.isDirectory) with
    | false => rfl
    | true =>
      rw [if_pos rfl, Bool.not_true, ← ih]
      cases collect files c roots <;> rfl

/-- A root that is a file is no directory either. -/
example :
    let files := FileTree.directory [("lib", .directory []), ("src", .file ByteArray.empty)]
    (failure? (collect files {} [⟨"lib"⟩, ⟨"src"⟩, ⟨"doc"⟩])).map (·.message) =
      some "workspace root src is not a directory" := by
  decide +kernel

theorem failure?_loadAll (files : FileTree) (c : Config) :
    failure? (loadAll files c) = failure? (collect files c c.roots) := by
  unfold loadAll
  cases collect files c c.roots <;> rfl

/-! ## What is refused -/

/-- What a workspace refuses to do, and why. -/
inductive Refuses (w : Workspace) : Command → WorkspaceError → Prop where
  /-- Of the roots, those before the missing one are there; it does not matter what comes after. -/
  | missingRoot {files : FileTree} {before later : List Path} {root : Path}
      (hroots : w.config.roots = before ++ root :: later)
      (there : ∀ r ∈ before, (files.find? r).any (·.isDirectory))
      (missing : (files.find? root).any (·.isDirectory) = false) :
      Refuses w (.index files) (.rootNotFound root)
  | otherExtension {files : FileTree} {path : Path}
      (hother : path.hasExtension w.config.extension = false) :
      Refuses w (.openFile files path) (.unsupportedExtension path w.config.extension)
  | unreadable {files : FileTree} {path : Path} {reason : FileTree.ReadError}
      (hext : path.hasExtension w.config.extension) (hread : files.read path = .error reason) :
      Refuses w (.openFile files path) (.unreadable path)
  | updateUnknown {id : Path} {text : String}
      (unknown : ∀ d ∈ w.documents.toList, (d.id == id) = false) :
      Refuses w (.update id text) (.unknownDocument id)
  | removeUnknown {id : Path} (unknown : ∀ d ∈ w.documents.toList, (d.id == id) = false) :
      Refuses w (.remove id) (.unknownDocument id)

theorem refusal?_of_refuses {w : Workspace} {command : Command} {e : WorkspaceError}
    (h : w.Refuses command e) : w.refusal? command = some e := by
  cases h with
  | missingRoot hroots there missing =>
    rw [refusal?_index, failure?_loadAll, failure?_collect, Option.map_eq_some_iff]
    refine ⟨_, List.find?_eq_some_iff_append.2 ⟨?_, _, _, hroots, fun r hr => ?_⟩, rfl⟩
    · rw [missing]
      rfl
    · rw [there r hr]
      rfl
  | otherExtension hother =>
    rw [refusal?_openFile, FileTree.readSource, hother]
    rfl
  | unreadable hext hread =>
    rw [refusal?_openFile, FileTree.readSource, if_pos hext, hread]
    rfl
  | @updateUnknown id text unknown =>
    have hfind : w.documents.find? id = none := Documents.find?_eq_none.2 unknown
    rw [refusal?_update, Documents.contains, hfind]
    rfl
  | @removeUnknown id unknown =>
    have hfind : w.document? id = none := Documents.find?_eq_none.2 unknown
    rw [refusal?_remove, hfind]

theorem refuses_of_refusal? {w : Workspace} {command : Command} {e : WorkspaceError}
    (h : w.refusal? command = some e) : w.Refuses command e := by
  cases command with
  | index files =>
    rw [refusal?_index, failure?_loadAll, failure?_collect, Option.map_eq_some_iff] at h
    obtain ⟨root, hfind, rfl⟩ := h
    obtain ⟨missing, before, later, hroots, there⟩ := List.find?_eq_some_iff_append.1 hfind
    exact .missingRoot hroots (fun r hr => by simpa using there r hr) (by simpa using missing)
  | openText id text => cases h
  | openFile files path =>
    rw [refusal?_openFile, FileTree.readSource] at h
    by_cases hext : path.hasExtension w.config.extension
    · rw [if_pos hext] at h
      cases hread : files.read path with
      | ok text =>
        rw [hread] at h
        cases h
      | error reason =>
        rw [hread] at h
        cases h
        exact .unreadable hext hread
    · rw [if_neg hext] at h
      cases h
      exact .otherExtension (Bool.not_eq_true _ ▸ hext)
  | update id text =>
    rw [refusal?_update] at h
    by_cases hknown : w.documents.contains id
    · rw [if_pos hknown] at h
      cases h
    · rw [if_neg hknown] at h
      cases h
      refine .updateUnknown (Documents.find?_eq_none.1 ?_)
      rwa [Documents.contains, Option.not_isSome_iff_eq_none] at hknown
  | remove id =>
    rw [refusal?_remove] at h
    cases hfind : w.document? id with
    | some d =>
      rw [hfind] at h
      cases h
    | none =>
      rw [hfind] at h
      cases h
      exact .removeUnknown (Documents.find?_eq_none.1 hfind)

/-! ## Nothing changes -/

/-- A command that fails changes nothing. -/
theorem perform_of_refusal? {w : Workspace} {command : Command}
    (h : (w.refusal? command).isSome) : w.perform command = w := by
  cases command with
  | index files =>
    rw [refusal?_index] at h
    rw [perform_index]
    cases hload : loadAll files w.config with
    | ok documents =>
      rw [hload] at h
      cases h
    | error e => rfl
  | openText id text => cases h
  | openFile files path =>
    rw [refusal?_openFile] at h
    rw [perform_openFile]
    cases hread : files.readSource path w.config.extension with
    | ok text =>
      rw [hread] at h
      cases h
    | error e => rfl
  | update id text =>
    rw [refusal?_update] at h
    rw [perform_update]
    cases hknown : w.documents.contains id with
    | true =>
      rw [hknown] at h
      cases h
    | false => rfl
  | remove id =>
    rw [refusal?_remove] at h
    rw [perform_remove]
    cases hfind : w.document? id with
    | some d =>
      rw [hfind] at h
      cases h
    | none => rfl

/-- The commands of a run that do not fail. -/
def accepted (w : Workspace) : List Command → List Command
  | [] => []
  | command :: commands =>
    if (w.refusal? command).isSome then w.accepted commands
    else command :: (w.perform command).accepted commands

/-- A run comes to the same workspace without the commands that fail. -/
theorem after_accepted (c : Config) (commands : List Command) :
    after c (accepted { config := c } commands) = after c commands := by
  unfold after
  generalize ({ config := c } : Workspace) = w
  induction commands generalizing w with
  | nil => rfl
  | cons command commands ih =>
    rw [accepted, List.foldl_cons]
    by_cases h : (w.refusal? command).isSome
    · rw [if_pos h, ih, perform_of_refusal? h]
    · rw [if_neg h, List.foldl_cons, ih]

/-- In every workspace that a run comes to, a command fails for the reasons that `Refuses` lists,
and for no other, and then it changes nothing.  That includes the phase, which never says that
something is still being indexed. -/
theorem refused_unchanged (c : Config) (commands : List Command) (command : Command) :
    let w := after c commands
    (∀ e, w.refusal? command = some e ↔ w.Refuses command e) ∧
      ((w.refusal? command).isSome → w.perform command = w) ∧ w.phase ≠ .indexing := by
  intro w
  exact ⟨fun _ => ⟨refuses_of_refusal?, refusal?_of_refuses⟩, perform_of_refusal?,
    phase_after c commands⟩

end Workspace

end SimFront
