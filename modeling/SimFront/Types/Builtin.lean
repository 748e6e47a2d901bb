/-!
# Built-in types and procedures

The names that every module knows without declaring them.
-/

namespace SimFront

inductive Builtin where
  | integer
  | real
  | boolean
  | char
  | string
  | longInt
  | longReal
  | cardinal
  | anyObj
  | anyRec
deriving DecidableEq, Repr, Inhabited

namespace Builtin

def all : List Builtin :=
  [integer, real, boolean, char, string, longInt, longReal, cardinal, anyObj, anyRec]

def text : Builtin → String
  | integer => "INTEGER"
  | real => "REAL"
  | boolean => "BOOLEAN"
  | char => "CHAR"
  | string => "STRING"
  | longInt => "LONGINT"
  | longReal => "LONGREAL"
  | cardinal => "CARDINAL"
  | anyObj => "ANYOBJ"
  | anyRec => "ANYREC"

/-- The built-in type of that name, in exactly this spelling. -/
def ofName? (name : String) : Option Builtin := all.find? (·.text == name)

/-- The procedures that can be called without a declaration. -/
def procedures : List String :=
  ["INC", "DEC", "ABS", "ORD", "CHR", "FLOAT", "TRUNC", "ROUND", "ODD", "MIN", "MAX", "HIGH",
   "LOW", "SIZEOF", "OUTPUT", "INPUT", "HALT", "CLONE", "INTTOSTR", "REALTOSTR", "STRTOINT",
   "STRTOREAL", "STRLEN", "SUBSTR", "POSITION", "UPPER", "LOWER", "SimTime"]

end Builtin

end SimFront
