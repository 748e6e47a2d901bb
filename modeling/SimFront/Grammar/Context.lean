import SimFront.Token.Kind

/-!
# Contexts: where in a module the parser is

A context says, for messages, which construct is being read and what could
stand there, and for recovery, at which tokens reading can be resumed.
-/

namespace SimFront

inductive Context where
  | moduleHeader
  | declarations
  | typeSpec
  | recordBody
  | objectBody
  | objectImpl
  | parameters
  | statements
  | expression
  | arguments
  | importClause
deriving DecidableEq, Repr, Inhabited

namespace Context

def description : Context → String
  | moduleHeader => "in module header"
  | declarations => "in declaration section"
  | typeSpec => "in type specification"
  | recordBody => "in record body"
  | objectBody => "in object body"
  | objectImpl => "in object implementation"
  | parameters => "in parameter list"
  | statements => "in statement list"
  | expression => "in expression"
  | arguments => "in argument list"
  | importClause => "in import clause"

/-- What could have stood in the context. -/
def expected : Context → String
  | moduleHeader => "an import, export, or declaration"
  | declarations => "TYPE, CONST, VAR, PROCEDURE, OBJECT, BEGIN or END"
  | typeSpec => "a type name or type constructor"
  | recordBody => "a field declaration or END"
  | objectBody => "a field, method heading, section keyword or END"
  | objectImpl => "a method implementation or END"
  | parameters => "a parameter"
  | statements => "a statement"
  | expression => "an expression (literal, identifier, or operator)"
  | arguments => "an argument"
  | importClause => "a module or symbol name"

/-- The kinds of token at which recovery in a context stops skipping, the end of the
text apart. -/
def recoveryTokens : Context → List TokenKind
  | moduleHeader | importClause =>
    [.mark .semicolon, .word .FROM, .word .IMPORT, .word .EXPORT, .word .TYPE, .word .CONST,
     .word .VAR, .word .PROCEDURE, .word .OBJECT, .word .BEGIN, .word .END]
  | declarations | typeSpec =>
    [.mark .semicolon, .word .TYPE, .word .CONST, .word .VAR, .word .PROCEDURE, .word .OBJECT,
     .word .BEGIN, .word .END]
  | recordBody => [.mark .semicolon, .word .END]
  | objectBody =>
    [.mark .semicolon, .word .ASK, .word .TELL, .word .WAITFOR, .word .PRIVATE, .word .CLASS,
     .word .OVERRIDE, .word .END]
  | objectImpl => [.mark .semicolon, .word .ASK, .word .TELL, .word .WAITFOR, .word .END]
  | parameters => [.mark .semicolon, .mark .rParen]
  | statements =>
    [.mark .semicolon, .word .IF, .word .WHILE, .word .FOR, .word .FOREACH, .word .REPEAT,
     .word .LOOP, .word .CASE, .word .RETURN, .word .EXIT, .word .NEW, .word .DISPOSE,
     .word .ASK, .word .TELL, .word .WAIT, .word .TERMINATE, .word .INHERITED, .word .WITH,
     .word .END, .word .ELSE, .word .ELSIF, .word .UNTIL, .word .WHEN, .word .OTHERWISE,
     .word .ON]
  | expression | arguments =>
    [.mark .semicolon, .mark .rParen, .mark .rBracket, .mark .comma, .word .THEN, .word .DO,
     .word .OF, .word .END]

def isRecoveryPoint (c : Context) (kind : TokenKind) : Bool :=
  kind = .eof || c.recoveryTokens.contains kind

/-- The message for a token that does not fit its context. -/
def unexpected (c : Context) (found : TokenKind) : String :=
  s!"unexpected {found.describe} {c.description}, expected {c.expected}"

end Context

end SimFront
