import SimFront.Tree.Expr

/-!
# Type specifications, and what they are built from

Types as they are written: parameters, fields, method headings and the sections
of an object type belong to the same family, since each holds types in turn.
-/

namespace SimFront

/-- How a parameter is passed. -/
inductive ParamMode where
  | in_
  | out
  | inOut
deriving DecidableEq, Repr, Inhabited

namespace ParamMode

def text : ParamMode → String
  | in_ => "IN"
  | out => "OUT"
  | inOut => "INOUT"

/-- Whether the argument has to be a place that can be assigned to. -/
def needsDesignator : ParamMode → Bool
  | in_ => false
  | out | inOut => true

end ParamMode

/-- How a method is invoked: called, scheduled, or waited for. -/
inductive Dispatch where
  | ask
  | tell
  | waitFor
deriving DecidableEq, Repr, Inhabited

namespace Dispatch

def text : Dispatch → String
  | ask => "ASK"
  | tell => "TELL"
  | waitFor => "WAITFOR"

end Dispatch

/-- The part of an object type a member is declared in. -/
inductive SectionKind where
  | public_
  | private_
  | class_
  | override
deriving DecidableEq, Repr, Inhabited

/-- One dimension of an array: bounds, or the name of an index type. -/
inductive ArrayIndex where
  | range (low high : Expr) (span : Span)
  | type (name : QualIdent)

namespace ArrayIndex

def span : ArrayIndex → Span
  | .range _ _ s => s
  | .type name => name.span

end ArrayIndex

mutual

inductive TypeSpec where
  | named (name : QualIdent)
  | array (indices : List ArrayIndex) (element : TypeSpec) (span : Span)
  | record (fields : List FieldDecl) (span : Span)
  | pointer (target : TypeSpec) (span : Span)
  | set (element : TypeSpec) (span : Span)
  | enum (values : List Ident) (span : Span)
  | subrange (low high : Expr) (span : Span)
  | procedure (params : List Param) (result : Option TypeSpec) (span : Span)
  | object (type : ObjectType)

/-- Parameters that share a mode and a type. -/
structure Param where
  mode : ParamMode
  names : List Ident
  type : TypeSpec
  span : Span

/-- Fields that share a type. -/
structure FieldDecl where
  names : List Ident
  type : TypeSpec
  span : Span

structure MethodHeading where
  dispatch : Dispatch
  name : Ident
  params : List Param
  result : Option TypeSpec
  span : Span

inductive ObjectMember where
  | field (decl : FieldDecl)
  | method (heading : MethodHeading)

structure ObjectSection where
  kind : SectionKind
  members : List ObjectMember
  span : Span

structure ObjectType where
  bases : List QualIdent
  sections : List ObjectSection
  span : Span

end

instance : Inhabited TypeSpec := ⟨.named default⟩

namespace TypeSpec

def span : TypeSpec → Span
  | .named name => name.span
  | .object type => type.span
  | .array _ _ s | .record _ s | .pointer _ s | .set _ s | .enum _ s | .subrange _ _ s
  | .procedure _ _ s => s

/-- The name, when the type is just a name. -/
def named? : TypeSpec → Option QualIdent
  | .named name => some name
  | _ => none

end TypeSpec

namespace ObjectMember

def span : ObjectMember → Span
  | .field decl => decl.span
  | .method heading => heading.span

end ObjectMember

namespace ObjectSection

def fields (s : ObjectSection) : List FieldDecl :=
  s.members.filterMap fun
    | .field decl => some decl
    | .method _ => none

def methods (s : ObjectSection) : List MethodHeading :=
  s.members.filterMap fun
    | .field _ => none
    | .method heading => some heading

end ObjectSection

namespace ObjectType

/-- The fields with the kind of section each stands in, in source order. -/
def fields (o : ObjectType) : List (SectionKind × FieldDecl) :=
  o.sections.flatMap fun s => s.fields.map fun f => (s.kind, f)

/-- The method headings with the kind of section each stands in, in source order. -/
def methods (o : ObjectType) : List (SectionKind × MethodHeading) :=
  o.sections.flatMap fun s => s.methods.map fun m => (s.kind, m)

end ObjectType

end SimFront
