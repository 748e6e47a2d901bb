import SimFront.Tree.Walk

/-!
# Adding a local type

`Decl.Gains d x x'` says that `x'` is the declaration `x` with the type declaration `d` put
somewhere among the local declarations of one of the procedures and methods in it, and
that this routine mentions no name that `d` brings in.  The routine may stand inside
others.  Everything else keeps its place.
-/

namespace SimFront

namespace Node

/-- The values of the enumeration that a node writes out. -/
def enumValues : Node → List Ident
  | .typeSpec (.enum values _) => values
  | _ => []

/-- The name of a type that a node declares, implements, or mentions without its module. -/
def typeName? : Node → Option String
  | .qualIdent ⟨none, name, _⟩ => some name.name
  | .decl (.type d) => some d.name.name
  | .decl (.objectImpl d) => some d.name.name
  | _ => none

/-- The names of types in a tree. -/
def typeNames (n : Node) : List String := n.preorder.filterMap typeName?

end Node

namespace TypeDecl

/-- The node of a type declaration. -/
def node (d : TypeDecl) : Node := .decl (.type d)

/-- The names that a type declaration brings in: its own, and those of the values of the
enumerations that it writes out. -/
def names (d : TypeDecl) : List String :=
  d.name.name :: (d.node.preorder.flatMap Node.enumValues).map (·.name)

/-- None of the names that the declaration brings in is written in a tree. -/
def FreshIn (d : TypeDecl) (n : Node) : Prop := ∀ i, .ident i ∈ n.preorder → i.name ∉ d.names

end TypeDecl

inductive Decl.Gains (d : TypeDecl) : Decl → Decl → Prop where
  /-- Among the local declarations of a procedure. -/
  | procedure {heading : ProcHeading} {before after : List Decl} {body : List Stmt}
      {isForward : Bool} {span : Span} :
      d.FreshIn (.decl (.procedure ⟨heading, before ++ after, body, isForward, span⟩)) →
      Gains d (.procedure ⟨heading, before ++ after, body, isForward, span⟩)
        (.procedure ⟨heading, before ++ .type d :: after, body, isForward, span⟩)
  /-- Among the local declarations of a method. -/
  | method {name : Ident} {earlier later : List MethodImpl} {heading : MethodHeading}
      {before after : List Decl} {body : List Stmt} {span span' : Span} :
      d.FreshIn (.methodImpl ⟨heading, before ++ after, body, span⟩) →
      Gains d (.objectImpl ⟨name, earlier ++ ⟨heading, before ++ after, body, span⟩ :: later, span'⟩)
        (.objectImpl
          ⟨name, earlier ++ ⟨heading, before ++ .type d :: after, body, span⟩ :: later, span'⟩)
  /-- In a declaration that is local to a procedure. -/
  | inProcedure {heading : ProcHeading} {before after : List Decl} {x x' : Decl}
      {body : List Stmt} {isForward : Bool} {span : Span} : Gains d x x' →
      Gains d (.procedure ⟨heading, before ++ x :: after, body, isForward, span⟩)
        (.procedure ⟨heading, before ++ x' :: after, body, isForward, span⟩)
  /-- In a declaration that is local to a method. -/
  | inMethod {name : Ident} {earlier later : List MethodImpl} {heading : MethodHeading}
      {before after : List Decl} {x x' : Decl} {body : List Stmt} {span span' : Span} :
      Gains d x x' →
      Gains d (.objectImpl ⟨name, earlier ++ ⟨heading, before ++ x :: after, body, span⟩ :: later, span'⟩)
        (.objectImpl
          ⟨name, earlier ++ ⟨heading, before ++ x' :: after, body, span⟩ :: later, span'⟩)

/-- A module gains a local type in one of its declarations. -/
inductive Module.Gains (d : TypeDecl) : Module → Module → Prop where
  | mk {kind : ModuleKind} {name : Ident} {imports : List Import} {exports : List Export}
      {before after : List Decl} {x x' : Decl} {body : Option (List Stmt)} {span : Span} :
      x.Gains d x' →
      Gains d ⟨kind, name, imports, exports, before ++ x :: after, body, span⟩
        ⟨kind, name, imports, exports, before ++ x' :: after, body, span⟩

end SimFront
