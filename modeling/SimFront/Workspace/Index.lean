import SimFront.Workspace.Global
import SimFront.Workspace.Graph

/-!
# Indexing

Indexing replaces all documents by the sources below the roots.  Each source is
analysed on its own first, and those that depend on other modules once more with
the tables of the first analyses.
-/

namespace SimFront.Workspace

/-- The paths of all sources below some roots, which have to be directories. -/
def collect (files : FileTree) (c : Config) : List Path → Except WorkspaceError (List Path)
  | [] => .ok []
  | root :: roots =>
    if (files.find? root).any (·.isDirectory) then do
      pure (files.sources c.extension c.skippedDirs root ++ (← collect files c roots))
    else .error (.rootNotFound root)

/-- All sources below the roots, each analysed on its own. -/
def loadAll (files : FileTree) (c : Config) : Except WorkspaceError (List Document) := do
  let paths ← collect files c c.roots
  pure ((Path.sortUnique paths).map (Document.load files c.mode))

/-- Analyses the documents once more that depend on other modules, now that all tables of a
first analysis are known. -/
def crossModulePass (w : Workspace) : Workspace :=
  let resolver := w.resolver
  { w with documents := w.documents.map (·.reanalyzed resolver) }

/-- Replaces all documents by some that were analysed on their own, and builds the names of
modules and the edges from them. -/
def firstPass (w : Workspace) (documents : List Document) : Workspace :=
  let ds := Documents.ofList documents
  let w := { w with documents := ds, modules := [], implementations := [] }
  (ds.ids.foldl register w).linkAll.detectCycles

/-- Replaces all documents, and builds everything else from them. -/
def install (w : Workspace) (documents : List Document) : Workspace :=
  { (w.firstPass documents).crossModulePass.rebuildGlobal with phase := .ready }

end SimFront.Workspace
