import SimFront.Tree.Decl

/-!
# Modules, the roots of the trees
-/

namespace SimFront

inductive ModuleKind where
  /-- The interface of a module whose bodies stand elsewhere. -/
  | definition
  /-- The bodies for a definition module of the same name. -/
  | implementation
  /-- The entry of a program. -/
  | main
  | plain
deriving DecidableEq, Repr, Inhabited

namespace ModuleKind

/-- Whether other modules can import a module of this kind by its name. -/
def isImportable : ModuleKind → Bool
  | implementation => false
  | _ => true

def text : ModuleKind → String
  | definition => "DEFINITION"
  | implementation => "IMPLEMENTATION"
  | main => "MAIN"
  | plain => "MODULE"

end ModuleKind

/-- One name of a FROM import.  `all` also brings in the values of an enumeration. -/
structure ImportItem where
  name : Ident
  alias? : Option Ident
  all : Bool
  span : Span
deriving DecidableEq, Repr

namespace ImportItem

/-- The name under which the importing module knows the item. -/
def localName (item : ImportItem) : Ident := item.alias?.getD item.name

end ImportItem

inductive Import where
  /-- Names out of one module. -/
  | names (module : Ident) (items : List ImportItem) (span : Span)
  /-- Whole modules. -/
  | modules (modules : List Ident) (span : Span)
deriving DecidableEq, Repr

namespace Import

def span : Import → Span
  | .names _ _ s => s
  | .modules _ s => s

/-- The modules that a clause names. -/
def targets : Import → List Ident
  | .names m _ _ => [m]
  | .modules ms _ => ms

end Import

structure Export where
  names : List Ident
  span : Span
deriving DecidableEq, Repr

structure Module where
  kind : ModuleKind
  name : Ident
  imports : List Import
  exports : List Export
  decls : List Decl
  body : Option (List Stmt)
  span : Span

namespace Module

/-- The modules that a module imports, in source order, repeats kept. -/
def importedModules (m : Module) : List Ident := m.imports.flatMap (·.targets)

end Module

end SimFront
