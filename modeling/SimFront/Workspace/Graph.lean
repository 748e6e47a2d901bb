import SimFront.Workspace.Basic

/-!
# Modules and dependencies

Which document declares a module, and which documents depend on which.  Of two
documents that declare modules of one name and sort, the first to claim the name
holds it; when it gives the name up, the first of the others in the order of paths
takes over.  An edge is kept at both of its ends.
-/

namespace SimFront

namespace Members

def erase {α : Type} (ms : Members α) (name : String) : Members α := ms.filter (·.1 ≠ name)

end Members

namespace Workspace

/-! ## Names of modules -/

/-- Lets a document have a name that no other document holds. -/
def claim (holders : Members Path) (name : String) (id : Path) : Members Path :=
  match Members.find? holders name with
  | none => Members.insert holders name id
  | some holder => if holder == id then Members.insert holders name id else holders

/-- Enters the name of the module that a document declares. -/
def register (w : Workspace) (id : Path) : Workspace :=
  match w.document? id with
  | none => w
  | some d =>
    match d.moduleName?, d.moduleKind? with
    | some name, some kind =>
      if kind.isImportable then { w with modules := claim w.modules name id }
      else { w with implementations := claim w.implementations name id }
    | _, _ => w

/-- The first document beside one that declares a module of a name and sort. -/
def successor? (ds : Documents) (importable : Bool) (id : Path) (name : String) :
    Option Path :=
  (ds.toList.find? fun d => !(d.id == id) && d.declares importable name).map (·.id)

/-- Takes a name away from a document that holds it, and gives it to a successor. -/
def release (ds : Documents) (importable : Bool) (id : Path) (name : String)
    (holders : Members Path) : Members Path :=
  if (Members.find? holders name).any (· == id) then
    match successor? ds importable id name with
    | some next => Members.insert holders name next
    | none => Members.erase holders name
  else holders

/-- Takes a name away from a document. -/
def unregister (w : Workspace) (id : Path) (name : String) : Workspace :=
  { w with
    modules := release w.documents true id name w.modules,
    implementations := release w.documents false id name w.implementations }

/-! ## Edges -/

/-- The documents that a document depends on: those of the modules that it imports, and for
an implementation module that of its definition module, but never itself. -/
def resolveDependencies (w : Workspace) (d : Document) : PathSet :=
  let imported := d.imports.filterMap (Members.find? w.modules)
  let definition := if d.isImplementation then d.moduleName?.bind (Members.find? w.modules)
    else none
  (PathSet.ofList (imported ++ definition.toList)).erase d.id

/-- Brings the dependencies of a document up to date, and the other ends of the edges that
come or go. -/
def link (w : Workspace) (id : Path) : Workspace :=
  match w.document? id with
  | none => w
  | some d =>
    let new := w.resolveDependencies d
    let ds := (d.dependencies.diff new).foldl (fun ds target =>
      ds.modify target fun t => { t with dependents := t.dependents.erase id }) w.documents
    let ds := (new.diff d.dependencies).foldl (fun ds target =>
      ds.modify target fun t => { t with dependents := t.dependents.insert id }) ds
    { w with documents := ds.modify id fun t => { t with dependencies := new } }

/-- Builds all edges anew. -/
def linkAll (w : Workspace) : Workspace :=
  let bare := w.documents.map fun d => { d with dependencies := {}, dependents := {} }
  bare.ids.foldl link { w with documents := bare }

/-- Takes away the edges of a document that is no longer there, at their other ends. -/
def unlink (w : Workspace) (d : Document) : Workspace :=
  let ds := d.dependencies.toList.foldl (fun ds target =>
    ds.modify target fun t => { t with dependents := t.dependents.erase d.id }) w.documents
  let ds := d.dependents.toList.foldl (fun ds source =>
    ds.modify source fun t => { t with dependencies := t.dependencies.erase d.id }) ds
  { w with documents := ds }

/-- Whether the dependencies of a document hang on one of some names. -/
def refersTo (names : List String) (d : Document) : Bool :=
  d.imports.any names.contains || (d.isImplementation && d.moduleName?.any names.contains)

/-- Brings the dependencies of all documents up to date that hang on one of some names, one
document excepted. -/
def relinkImporters (w : Workspace) (names : List String) (except_ : Path) : Workspace :=
  let importers := w.documents.toList.filter fun d => !(d.id == except_) && refersTo names d
  (importers.map (·.id)).foldl link w

def detectCycles (w : Workspace) : Workspace := { w with cycles := w.documents.findCycles }

end Workspace

end SimFront
