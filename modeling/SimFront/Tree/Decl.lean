import SimFront.Tree.TypeSpec
import SimFront.Tree.Stmt

/-!
# Declarations
-/

namespace SimFront

structure TypeDecl where
  name : Ident
  type : TypeSpec
  span : Span

structure ConstDecl where
  name : Ident
  type : Option TypeSpec
  value : Expr
  span : Span

structure VarDecl where
  names : List Ident
  type : TypeSpec
  init : Option Expr
  span : Span

structure ProcHeading where
  name : Ident
  params : List Param
  result : Option TypeSpec
  span : Span

mutual

inductive Decl where
  | type (decl : TypeDecl)
  | const (decl : ConstDecl)
  | var (decl : VarDecl)
  | procedure (decl : ProcDecl)
  | objectImpl (decl : ObjectImpl)

/-- A procedure.  A forward one is a heading alone, completed by a later one. -/
structure ProcDecl where
  heading : ProcHeading
  locals : List Decl
  body : List Stmt
  isForward : Bool
  span : Span

/-- The body of a method, inside the implementation of its object. -/
structure MethodImpl where
  heading : MethodHeading
  locals : List Decl
  body : List Stmt
  span : Span

structure ObjectImpl where
  name : Ident
  methods : List MethodImpl
  span : Span

end

namespace Decl

def span : Decl → Span
  | .type d => d.span
  | .const d => d.span
  | .var d => d.span
  | .procedure d => d.span
  | .objectImpl d => d.span

/-- The names that a declaration brings in; an object implementation brings in none. -/
def names : Decl → List Ident
  | .type d => [d.name]
  | .const d => [d.name]
  | .var d => d.names
  | .procedure d => [d.heading.name]
  | .objectImpl _ => []

/-- The type that a declaration writes out, for a procedure that of its result. -/
def typeSpec? : Decl → Option TypeSpec
  | .type d => some d.type
  | .const d => d.type
  | .var d => some d.type
  | .procedure d => d.heading.result
  | .objectImpl _ => none

end Decl

end SimFront
