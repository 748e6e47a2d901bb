import SimFront.Tree.Ident

/-!
# Expressions

The tree of an expression.  Every node keeps its span.  Parentheses leave no
node; what recovery could not read is `missing`.
-/

namespace SimFront

inductive NilKind where
  | nil
  | nilObj
  | nilRec
  | nilArray
deriving DecidableEq, Repr, Inhabited

inductive UnaryOp where
  | not
  | neg
  | plus
deriving DecidableEq, Repr, Inhabited

inductive BinaryOp where
  | or | and
  | eq | notEq | lt | ltEq | gt | gtEq | in_
  | add | sub
  | mul | div | intDiv | mod
deriving DecidableEq, Repr, Inhabited

namespace BinaryOp

def isComparison : BinaryOp → Bool
  | eq | notEq | lt | ltEq | gt | gtEq | in_ => true
  | _ => false

def isLogical : BinaryOp → Bool
  | or | and => true
  | _ => false

def text : BinaryOp → String
  | or => "OR" | and => "AND"
  | eq => "=" | notEq => "<>" | lt => "<" | ltEq => "<=" | gt => ">" | gtEq => ">="
  | in_ => "IN"
  | add => "+" | sub => "-"
  | mul => "*" | div => "/" | intDiv => "DIV" | mod => "MOD"

end BinaryOp

mutual

/-- An expression.  A real number is kept as the bits of its binary64 value. -/
inductive Expr where
  | name (id : Ident)
  | integer (value : Nat) (span : Span)
  | real (bits : UInt64) (span : Span)
  | string (value : String) (span : Span)
  | char (value : Char) (span : Span)
  | bool (value : Bool) (span : Span)
  | nil (kind : NilKind) (span : Span)
  | selfRef (span : Span)
  | unary (op : UnaryOp) (operand : Expr) (span : Span)
  | binary (op : BinaryOp) (left right : Expr) (span : Span)
  | call (callee : Expr) (args : List Expr) (span : Span)
  | index (base : Expr) (indices : List Expr) (span : Span)
  | field (base : Expr) (name : Ident) (span : Span)
  | deref (base : Expr) (span : Span)
  | set (elements : List Expr) (span : Span)
  | range (low high : Expr) (span : Span)
  | ask (call : MethodCall)
  | inherited (method : Ident) (args : List Expr) (span : Span)
  | missing (span : Span)

/-- A method call on an object: what ASK, TELL and WAIT FOR are followed by. -/
structure MethodCall where
  target : Expr
  method : Ident
  args : List Expr
  span : Span

end

instance : Inhabited Expr := ⟨.missing {}⟩

namespace Expr

def span : Expr → Span
  | .name id => id.span
  | .ask c => c.span
  | .integer _ s | .real _ s | .string _ s | .char _ s | .bool _ s | .nil _ s | .selfRef s
  | .unary _ _ s | .binary _ _ _ s | .call _ _ s | .index _ _ s | .field _ _ s | .deref _ s
  | .set _ s | .range _ _ s | .inherited _ _ s | .missing s => s

/-- Whether an expression denotes a place that can be assigned to.  Fields and
elements are places when what they are taken of is one, or SELF, or a call. -/
def isDesignator : Expr → Bool
  | .name _ => true
  | .deref _ _ => true
  | .field base _ _ | .index base _ _ =>
    match base with
    | .selfRef _ | .call _ _ _ => true
    | e => e.isDesignator
  | _ => false

/-- The leftmost name of a designator. -/
def rootName? : Expr → Option Ident
  | .name id => some id
  | .field base _ _ | .index base _ _ | .deref base _ => base.rootName?
  | _ => none

end Expr

end SimFront
