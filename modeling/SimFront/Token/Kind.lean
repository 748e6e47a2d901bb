import SimFront.Token.Keyword

/-!
# Kinds of tokens

The closed set of token kinds: names, the four kinds of literal, punctuation
marks, reserved words, the token that stands for input that could not be read,
and the end of the text.  Blanks and comments have no kind, since they never
become tokens.
-/

namespace SimFront

/-- Punctuation marks and operators. -/
inductive Mark where
  | assign | plus | minus | star | slash | eq | notEq | hash | lt | ltEq | gt | gtEq
  | lParen | rParen | lBracket | rBracket | comma | semicolon | colon | dot | range
  | caret | pipe
deriving DecidableEq, Repr, Inhabited

namespace Mark

def all : List Mark :=
  [assign, plus, minus, star, slash, eq, notEq, hash, lt, ltEq, gt, gtEq, lParen, rParen,
   lBracket, rBracket, comma, semicolon, colon, dot, range, caret, pipe]

/-- The spelling of a mark. -/
def text : Mark → String
  | assign => ":=" | plus => "+" | minus => "-" | star => "*" | slash => "/" | eq => "="
  | notEq => "<>" | hash => "#" | lt => "<" | ltEq => "<=" | gt => ">" | gtEq => ">="
  | lParen => "(" | rParen => ")" | lBracket => "[" | rBracket => "]" | comma => ","
  | semicolon => ";" | colon => ":" | dot => "." | range => ".." | caret => "^" | pipe => "|"

end Mark

/-- What a token is. -/
inductive TokenKind where
  | ident
  | integer
  | real
  | string
  | char
  | mark (m : Mark)
  | word (k : Keyword)
  | error
  | eof
deriving DecidableEq, Repr, Inhabited

namespace TokenKind

def isKeyword : TokenKind → Bool
  | .word _ => true
  | _ => false

def isMark : TokenKind → Bool
  | .mark _ => true
  | _ => false

def isLiteral : TokenKind → Bool
  | .integer | .real | .string | .char => true
  | _ => false

/-- Words that open a declaration or a section of declarations. -/
def startsDeclaration : TokenKind → Bool
  | .word .TYPE | .word .CONST | .word .VAR | .word .PROCEDURE | .word .OBJECT => true
  | _ => false

/-- Words that open a statement. -/
@[grind =] def startsStatement : TokenKind → Bool
  | .word .IF | .word .WHILE | .word .FOR | .word .FOREACH | .word .REPEAT | .word .LOOP
  | .word .CASE | .word .RETURN | .word .EXIT | .word .NEW | .word .DISPOSE | .word .ASK
  | .word .TELL | .word .WAIT | .word .TERMINATE | .word .INHERITED | .word .WITH => true
  | _ => false

/-- The spelling of a reserved word's kind. -/
def keywordText? : TokenKind → Option String
  | .word k => some k.text
  | _ => none

/-- How messages name a kind: a mark in quotes, a reserved word as it is spelled. -/
def describe : TokenKind → String
  | .ident => "identifier"
  | .integer => "integer literal"
  | .real => "real literal"
  | .string => "string literal"
  | .char => "character literal"
  | .mark m => s!"'{m.text}'"
  | .word k => k.text
  | .error => "invalid token"
  | .eof => "end of input"

end TokenKind

end SimFront
