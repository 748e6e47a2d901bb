import SimFront.Workspace.Index
import SimFront.Workspace.Replace
import SimFront.Workspace.SourceFile

/-!
# Operations on a workspace

What a client does with a workspace: index it, open, update and remove documents.
An operation that fails leaves the workspace as it was.
-/

namespace SimFront

namespace LoadError

/-- The failure of the operation that wanted the text. -/
def toWorkspaceError : LoadError → WorkspaceError
  | unreadable p => .unreadable p
  | unsupportedExtension p expected => .unsupportedExtension p expected

end LoadError

/-- An operation on a workspace, which may fail. -/
abbrev Edit (α : Type) : Type := ExceptT WorkspaceError (StateM Workspace) α

namespace Edit

/-- Indexes all sources below the roots, and gives their number. -/
def index (files : FileTree) : Edit Nat := do
  let w ← get
  set { w with phase := .indexing }
  match Workspace.loadAll files w.config with
  | .ok documents =>
    modify (·.install documents)
    pure (← get).documents.size
  | .error e =>
    modify ({ · with phase := w.phase })
    throw e

/-- Opens a document with a text, whether it is known or not. -/
def openText (id : Path) (text : String) : Edit Unit := modify (·.openDocument id text)

/-- Opens a document with the text of a file, which has to have the configured extension. -/
def openFile (files : FileTree) (p : Path) : Edit Unit := do
  match files.readSource p (← get).config.extension with
  | .ok text => openText p text
  | .error e => throw e.toWorkspaceError

/-- Replaces the text of a document that is known. -/
def update (id : Path) (text : String) : Edit Unit := do
  if (← get).documents.contains id then openText id text
  else throw (.unknownDocument id)

/-- Removes a document that is known, and gives it. -/
def remove (id : Path) : Edit Document := do
  match (← get).document? id with
  | none => throw (.unknownDocument id)
  | some d =>
    modify (·.removeDocument d)
    pure { d with dependencies := {}, dependents := {}, state := .removed }

end Edit

namespace Workspace

/-- A new workspace with the sources below the roots of a configuration. -/
def load (files : FileTree) (c : Config) : Except WorkspaceError Workspace :=
  match (Edit.index files).run.run { config := c } with
  | (.ok _, w) => .ok w
  | (.error e, _) => .error e

end Workspace

end SimFront
