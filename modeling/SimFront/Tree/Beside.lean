import SimFront.Tree.Walk

/-!
# Beside the uses of a name

A bare name is used as a value, as a type, as the variable of a loop, or in a list of exports;
and a use of a value goes on to its fields, elements and methods.  `Node.Beside` holds of the
nodes of a tree that belong to no use of a name.  Arguments and indices are not part of a use.
-/

namespace SimFront

/-- Whether an expression is the name, or a place in what the name stands for. -/
def Expr.isOn (name? : Option String) (e : Expr) : Bool :=
  e.rootName?.any fun root => name? = some root.name

/-- Whether a name of a type is the name, without a module in front. -/
def QualIdent.isOn (name? : Option String) (q : QualIdent) : Bool :=
  q.module?.isNone && name? = some q.name.name

namespace Node

/-- Whether a node is a use of the name, if there is one to look for. -/
def isOn (name? : Option String) : Node → Bool
  | .expr e | .stmt (.call e _) => e.isOn name?
  | .typeSpec (.named q) | .arrayIndex (.type q) | .qualIdent q => q.isOn name?
  | _ => false

/-- Whether an identifier right below a node belongs to a use of the name. -/
def usesIdent (name? : Option String) (i : Ident) : Node → Bool
  | .expr (.field base _ _) => base.isOn name?
  | .methodCall c => c.target.isOn name?
  | .qualIdent q => q.isOn name?
  | .expr (.name _) | .stmt (.for_ ..) | .stmt (.forEach ..) | .export _ => name? = some i.name
  | _ => false

/-- Whether a child of a node is an identifier that belongs to a use of the name. -/
def isUse (name? : Option String) (parent : Node) : Node → Bool
  | .ident i => parent.usesIdent name? i
  | _ => false

/-- The second node stands in the tree of the first and belongs to no use of the name. -/
inductive Beside (name? : Option String) : Node → Node → Prop where
  | self {n : Node} : n.isOn name? = false → Beside name? n n
  | child {n c m : Node} :
      c ∈ n.children → isUse name? n c = false → Beside name? c m → Beside name? n m

/-- The identifiers that a node declares, imports modules under, or implements a method under. -/
def declares : Node → List Ident
  | .module m => [m.name]
  | .import (.modules modules _) => modules
  | .decl (.type d) => [d.name]
  | .decl (.const d) => [d.name]
  | .decl (.var d) => d.names
  | .procHeading h => [h.name]
  | .param p => p.names
  | .methodHeading h => [h.name]
  | .typeSpec (.enum values _) => values
  | .fieldDecl f => f.names
  | _ => []

/-- The identifiers that a node gives for types, without a module in front, or exports. -/
def mentions : Node → List Ident
  | .qualIdent ⟨none, name, _⟩ => [name]
  | .export e => e.names
  | _ => []

end Node

end SimFront
