import SimFront.Grammar.Module
import SimFront.Tree.Walk

/-!
# Source documents

A `Source` is a text after scanning and parsing: its tokens, its tree when there
is one, and the errors of both steps in the order of their places.  In strict
mode a syntax error leaves a source without a tree.
-/

namespace SimFront

structure Source where
  tokens : List Token
  module? : Option Module
  errors : List SyntaxError
  mode : Mode

namespace Source

/-- The syntax error for a token that could not be read. -/
def errorOfToken (t : Token) : SyntaxError :=
  let message := (t.error?.map (·.message)).getD "invalid token"
  { code := .ofLexicalMessage message, message, span := t.span }

/-- The tree that parsing found, and the errors that it reported. -/
def parsed : Except Halt Parse → Option Module × List SyntaxError
  | .ok p => (some p.module, p.errors)
  | .error (.refused e) => (none, [e])
  | .error .exhausted => (none, [])

/-- Scans and parses a text. -/
def ofText (text : String) (mode : Mode) : Source :=
  let tokens := tokenize text
  let (module?, errors) := parsed (parse tokens mode)
  let all := (lexicalErrors tokens).map errorOfToken ++ errors
  { tokens, module?, mode,
    errors := all.mergeSort fun a b => a.span.start.offset ≤ b.span.start.offset }

/-- Sources with the same tree and the same errors are equal, whatever their tokens. -/
instance : BEq Source := ⟨fun a b => a.module? == b.module? && a.errors == b.errors⟩

def hasErrors (s : Source) : Bool := !s.errors.isEmpty

/-- The error for which there is no tree. -/
def fatalError? (s : Source) : Option SyntaxError :=
  match s.module? with
  | some _ => none
  | none => s.errors.find? (!·.code.isLexical)

/-- The declared name, unless recovery had to put one in. -/
def moduleName? (s : Source) : Option String :=
  (s.module?.map (·.name.name)).filter (!·.isEmpty)

def moduleKind? (s : Source) : Option ModuleKind := s.module?.map (·.kind)

/-- The names of the imported modules in source order, each once, missing ones left out. -/
def imports (s : Source) : List String :=
  match s.module? with
  | none => []
  | some m => ((m.importedModules.map (·.name)).filter (!·.isEmpty)).eraseDups

end Source

end SimFront
