import SimFront.Check.Resolve
import SimFront.Tree.Module

/-!
# Imports

A FROM import declares copies of another module's symbols.  An IMPORT of a whole
module declares the module's name, and lets bare names be found in the module.
What cannot be found is declared as a placeholder, so that its uses are not
reported once more.
-/

namespace SimFront.Check

/-- Finds another module to import from; one that is not found is reported, and once for each
module. -/
def otherModule (source : Ident) : Check (Option SymbolTable) := do
  let env ← read
  let table? ← moduleTable? source.name
  if table?.isNone && env.resolver?.isSome then
    unless (← get).unresolved.contains source.name do
      modify fun s => { s with unresolved := source.name :: s.unresolved }
      warning .unresolvedImport source.span s!"cannot resolve module '{source.name}'"
  pure table?

/-- Imports from a module that may not be found.  A module that imports itself is reported. -/
def importFrom (source : Ident) (use : Option SymbolTable → Check Unit) : Check Unit := do
  let env ← read
  if source.name = env.moduleName then
    warning .selfImport source.span s!"module '{source.name}' imports itself"
  else use (← otherModule source)

/-- Imports a whole module, unless it was imported before. -/
def importModule (module : Ident) : Check Unit :=
  importFrom module fun _ => do
    unless (← get).wholeImports.contains module.name do
      modify fun s => { s with wholeImports := s.wholeImports ++ [module.name] }
      let _ ← define
        { name := module.name, kind := .module, span := module.span,
          origin? := some module.name }
      pure ()

/-- Declares a variable of unknown type for a name that was not found. -/
def definePlaceholder (name source : Ident) : Check Unit := do
  match ← define
      { name := name.name, kind := .var, span := name.span, origin? := some source.name } with
  | some id => modify fun s => { s with placeholders := id :: s.placeholders }
  | none => pure ()

/-- The constant for a value of an imported enumeration. -/
def importedValue (source : SymbolTable) (module type : Ident) (value : String) : Symbol :=
  match source.exported? module.name value with
  | some s => { s with span := type.span }
  | none =>
    { name := value, kind := .const, type := .named (some module.name) type.name,
      span := type.span, origin? := some module.name }

/-- Declares the copy of a symbol that an item imports, and with ALL the values of an
enumeration. -/
def importSymbol (source : SymbolTable) (module : Ident) (item : ImportItem) (s : Symbol) :
    Check Unit := do
  let _ ← define { s with name := item.localName.name, span := item.localName.span }
  match item.all, s.type with
  | true, .enum values => values.forM fun v => do
      let _ ← define (importedValue source module item.name v)
      pure ()
  | _, _ => pure ()

/-- Imports one name from a module that may not have been found. -/
def importItem (module : Ident) (table? : Option SymbolTable) (item : ImportItem) :
    Check Unit := do
  match table? with
  | none => definePlaceholder item.localName module
  | some source =>
    match source.exported? module.name item.name.name with
    | some s => importSymbol source module item s
    | none =>
      warning .unresolvedImport item.name.span
        s!"module '{module.name}' has no '{item.name.name}'"
      definePlaceholder item.localName module

def importNames (module : Ident) (items : List ImportItem) : Check Unit :=
  importFrom module fun table? => items.forM (importItem module table?)

def importClause : Import → Check Unit
  | .names module items _ => importNames module items
  | .modules modules _ => modules.forM importModule

end SimFront.Check
