import SimFront.Grammar.Decl
import SimFront.Tree.Module
import SimFront.Token.Scan

/-!
# The grammar of modules, and parsing whole texts

A module has a header, then imports, exports and declarations in any order, an
optional body, and an end.  `parse` reads a module off a list of tokens, and
`parseText` off a text.
-/

namespace SimFront

namespace Grammar

open SimFront.Parser

/-! ## Imports and exports -/

def moduleName : Parser Ident := identOr .missingModuleName "module name"

/-- A name to import, with ALL before it and an alias after it, or without.  ALL has its
meaning only when another name follows. -/
def importItem : Parser ImportItem := do
  let start ← start
  let t ← current
  let all := t.kind = .ident && t.text = "ALL" && (← kindAt 1) = .ident
  if all then
    let _ ← bump
  let name ← ident
  let alias? ← whenever (eatWord .AS) (identOr .invalidAlias "alias name after AS")
  pure ⟨name, alias?, all, ← spanFrom start⟩

/-- An import clause; the current token is FROM or IMPORT. -/
def importClause : Parser Import := within .importClause do
  let start ← start
  if ← eatWord .FROM then
    let module ← moduleName
    expectWith .invalidImport (.word .IMPORT)
    let items ← commaSeparated importItem
    semicolon
    pure (.names module items (← spanFrom start))
  else
    let _ ← bump
    let modules ← commaSeparated moduleName
    semicolon
    pure (.modules modules (← spanFrom start))

/-- An export clause; the current token opens it. -/
def exportClause : Parser Export := do
  let start ← start
  let _ ← bump
  let names ← commaSeparated ident
  semicolon
  pure ⟨names, ← spanFrom start⟩

/-! ## Modules -/

/-- What can stand between the header and the body of a module. -/
inductive Item where
  | import (clause : Import)
  | export (clause : Export)
  | decl (decl : Decl)

namespace Item

def import? : Item → Option Import
  | .import i => some i
  | _ => none

def export? : Item → Option Export
  | .export e => some e
  | _ => none

def decl? : Item → Option Decl
  | .decl d => some d
  | _ => none

end Item

def itemRound (last : Option Section) : Parser (Round (Option Section) Item) := do
  match ← kind with
  | .word .FROM | .word .IMPORT => pure (.next last (some (.import (← importClause))))
  | .word .EXPORT => pure (.next last (some (.export (← exportClause))))
  | .word .BEGIN | .word .END | .eof => pure (.stop none)
  | _ =>
    let (s, decl) ← declarationItem locals last
    pure (.next s (decl.map .decl))

def moduleKind : TokenKind → ModuleKind
  | .word .DEFINITION => .definition
  | .word .IMPLEMENTATION => .implementation
  | .word .MAIN => .main
  | _ => .plain

/-- The kind and the name of a module. -/
def header : Parser (ModuleKind × Ident) := do
  let kind := moduleKind (← kind)
  if kind ≠ .plain then
    let _ ← bump
  expectWith .missingHeader (.word .MODULE)
  let name ← ident
  semicolon
  pure (kind, name)

/-- The end of a module, after which no token may follow. -/
def trailer (name : Ident) : Parser Unit := do
  closeWith .MODULE name.span
  unless ← eatMark .dot do
    let _ ← eatMark .semicolon
  unless ← atKind .eof do
    fail .trailingInput fun found => s!"unexpected {found.describe} after end of module"

/-- A whole module. -/
def module : Parser Module := do
  let start ← start
  let ((kind, name), items) ← within .moduleHeader do
    let head ← header
    let items ← gather itemRound none
    pure (head, items)
  let body ← whenever (eatWord .BEGIN) statements
  trailer name
  pure { kind, name, body,
         imports := items.filterMap Item.import?,
         exports := items.filterMap Item.export?,
         decls := items.filterMap Item.decl?,
         span := ← spanFrom start }

end Grammar

/-! ## Whole texts -/

/-- A tree, and the errors that were recorded while it was read, in order. -/
structure Parse where
  module : Module
  errors : List SyntaxError

namespace Parse

def ok (p : Parse) : Bool := p.errors.isEmpty

end Parse

/-- Reads a module off a list of tokens.  Tokens that could not be read are skipped. -/
def parse (tokens : List Token) (mode : Mode) : Except Halt Parse :=
  match Grammar.module mode (.ofTokens (significant tokens)) with
  | .ok (module, s) => .ok ⟨module, s.errors.reverse⟩
  | .error h => .error h

/-- Reads a module off a text. -/
def parseText (text : String) (mode : Mode) : Except Halt Parse := parse (tokenize text) mode

end SimFront
