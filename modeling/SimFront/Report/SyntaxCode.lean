/-!
# Codes of syntax errors

A code says what kind of rule was broken.  Codes are numbered by category:
`E01xx` for tokens, `E02xx` for the frame of a module, `E03xx` for declarations,
`E04xx` for expressions and statements, `E05xx` for imports, `E09xx` for the rest.
-/

namespace SimFront

inductive SyntaxCode where
  | unexpectedCharacter
  | unterminatedString
  | unterminatedComment
  | malformedCharacter
  | missingSemicolon
  | missingEnd
  | unclosedParen
  | unclosedBracket
  | trailingInput
  | missingHeader
  | missingName
  | invalidType
  | unexpectedInDeclarations
  | invalidParameters
  | unexpectedInObject
  | invalidMethod
  | invalidExpression
  | missingOperand
  | invalidStatement
  | unclosedArguments
  | invalidImport
  | missingModuleName
  | invalidAlias
  | unexpectedToken
  | expectedToken
deriving DecidableEq, Repr, Inhabited

namespace SyntaxCode

def all : List SyntaxCode :=
  [unexpectedCharacter, unterminatedString, unterminatedComment, malformedCharacter,
   missingSemicolon, missingEnd, unclosedParen, unclosedBracket, trailingInput, missingHeader,
   missingName, invalidType, unexpectedInDeclarations, invalidParameters, unexpectedInObject,
   invalidMethod, invalidExpression, missingOperand, invalidStatement, unclosedArguments,
   invalidImport, missingModuleName, invalidAlias, unexpectedToken, expectedToken]

/-- The number under which a code is reported. -/
def text : SyntaxCode → String
  | unexpectedCharacter => "E0101"
  | unterminatedString => "E0102"
  | unterminatedComment => "E0103"
  | malformedCharacter => "E0104"
  | missingSemicolon => "E0201"
  | missingEnd => "E0202"
  | unclosedParen => "E0203"
  | unclosedBracket => "E0204"
  | trailingInput => "E0205"
  | missingHeader => "E0206"
  | missingName => "E0301"
  | invalidType => "E0302"
  | unexpectedInDeclarations => "E0303"
  | invalidParameters => "E0304"
  | unexpectedInObject => "E0305"
  | invalidMethod => "E0306"
  | invalidExpression => "E0401"
  | missingOperand => "E0402"
  | invalidStatement => "E0403"
  | unclosedArguments => "E0404"
  | invalidImport => "E0501"
  | missingModuleName => "E0502"
  | invalidAlias => "E0503"
  | unexpectedToken => "E0901"
  | expectedToken => "E0902"

/-- The code reported under a number. -/
def ofText? (s : String) : Option SyntaxCode := all.find? (·.text == s)

/-- A short name for the category of a code. -/
def category : SyntaxCode → String
  | unexpectedCharacter | unterminatedString | unterminatedComment | malformedCharacter =>
    "lexical error"
  | missingSemicolon | missingEnd | unclosedParen | unclosedBracket | trailingInput
  | missingHeader => "structural error"
  | missingName | invalidType | unexpectedInDeclarations | invalidParameters
  | unexpectedInObject | invalidMethod => "declaration error"
  | invalidExpression | missingOperand | invalidStatement | unclosedArguments =>
    "expression error"
  | invalidImport | missingModuleName | invalidAlias => "import error"
  | unexpectedToken | expectedToken => "syntax error"

/-- The message of an error that was given none. -/
def defaultMessage : SyntaxCode → String
  | unexpectedCharacter => "unexpected character"
  | unterminatedString => "unterminated string literal"
  | unterminatedComment => "unterminated comment"
  | malformedCharacter => "malformed character literal"
  | missingSemicolon => "missing semicolon"
  | missingEnd => "missing END"
  | unclosedParen => "unclosed parenthesis"
  | unclosedBracket => "unclosed bracket"
  | trailingInput => "unexpected input after end of module"
  | missingHeader => "missing module header"
  | missingName => "missing identifier"
  | invalidType => "invalid type specification"
  | unexpectedInDeclarations => "unexpected token in declaration section"
  | invalidParameters => "invalid parameter list"
  | unexpectedInObject => "unexpected token in object body"
  | invalidMethod => "invalid method heading"
  | invalidExpression => "invalid expression"
  | missingOperand => "missing operand"
  | invalidStatement => "invalid statement"
  | unclosedArguments => "unclosed argument list"
  | invalidImport => "invalid import"
  | missingModuleName => "missing module name"
  | invalidAlias => "invalid alias"
  | unexpectedToken => "unexpected token"
  | expectedToken => "expected token"

/-- The code for the message of a token that could not be read, told by how it begins. -/
def ofLexicalMessage (message : String) : SyntaxCode :=
  if message.startsWith "unterminated string" then unterminatedString
  else if message.startsWith "unterminated comment" then unterminatedComment
  else if message.startsWith "malformed character" then malformedCharacter
  else unexpectedCharacter

/-- Whether the code is about END, semicolons and delimiters. -/
def isStructural (c : SyntaxCode) : Bool := c.category = "structural error"

/-- Whether the code is about a token that could not be read. -/
def isLexical (c : SyntaxCode) : Bool := c.category = "lexical error"

end SyntaxCode

end SimFront
