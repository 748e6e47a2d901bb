import SimFront.Tree.Module

/-!
# Labels of tree nodes

What a node says apart from its span and its children: its kind, and how many
children of each sort it has.  Kind and counts together tell how the children
that follow are to be read, so that the labels and spans of a tree, listed in
pre-order with their depths, determine the tree.
-/

namespace SimFront

inductive Label where
  | module (kind : ModuleKind) (imports exports decls : Nat) (body : Option Nat)
  | importNames (items : Nat)
  | importModules (modules : Nat)
  | importItem (all hasAlias : Bool) (localName : String)
  | export (names : Nat)
  | typeDecl
  | constDecl (hasType : Bool)
  | varDecl (names : Nat) (hasInit : Bool)
  | procedureDecl (isForward : Bool) (locals body : Nat)
  | objectImpl (methods : Nat)
  | procHeading (params : Nat) (hasResult : Bool)
  | param (mode : ParamMode) (names : Nat)
  | methodHeading (dispatch : Dispatch) (params : Nat) (hasResult : Bool)
  | methodImpl (locals body : Nat)
  | namedType
  | arrayType (indices : Nat)
  | recordType (fields : Nat)
  | pointerType
  | setType
  | enumType (values : Nat)
  | subrangeType
  | procedureType (params : Nat) (hasResult : Bool)
  | objectType (bases sections : Nat)
  | indexRange
  | indexType
  | fieldDecl (names : Nat)
  | objectSection (kind : SectionKind) (members : Nat)
  | assign
  | callStmt
  | if_ (branches : Nat) (else? : Option Nat)
  | condBranch (body : Nat)
  | while_ (body : Nat)
  | for_ (direction : Direction) (hasStep : Bool) (body : Nat)
  | forEach (body : Nat)
  | repeat_ (body : Nat)
  | loop (body : Nat)
  | case (arms : Nat) (otherwise : Option Nat)
  | caseArm (labels body : Nat)
  | return_ (hasValue : Bool)
  | exit
  | terminate
  | new
  | dispose
  | askStmt
  | tell (hasDelay : Bool)
  | wait (forMethod : Bool) (body : Nat) (interrupt : Option Nat)
  | inheritedStmt (args : Nat)
  | with_ (body : Nat)
  | methodCall (args : Nat)
  | name
  | integer (value : Nat)
  | real (bits : UInt64)
  | string (value : String)
  | char (value : Char)
  | bool (value : Bool)
  | nil (kind : NilKind)
  | selfRef
  | missing
  | unary (op : UnaryOp)
  | binary (op : BinaryOp)
  | call (args : Nat)
  | index (indices : Nat)
  | field
  | deref
  | set (elements : Nat)
  | range
  | askExpr
  | inheritedExpr (args : Nat)
  | ident (text : String)
  | qualIdent (hasModule : Bool) (display : String)
deriving DecidableEq, Repr

namespace Label

def ofDecl : Decl → Label
  | .type _ => .typeDecl
  | .const d => .constDecl d.type.isSome
  | .var d => .varDecl d.names.length d.init.isSome
  | .procedure d => .procedureDecl d.isForward d.locals.length d.body.length
  | .objectImpl d => .objectImpl d.methods.length

def ofTypeSpec : TypeSpec → Label
  | .named _ => .namedType
  | .array indices _ _ => .arrayType indices.length
  | .record fields _ => .recordType fields.length
  | .pointer _ _ => .pointerType
  | .set _ _ => .setType
  | .enum values _ => .enumType values.length
  | .subrange _ _ _ => .subrangeType
  | .procedure params result _ => .procedureType params.length result.isSome
  | .object o => .objectType o.bases.length o.sections.length

def ofStmt : Stmt → Label
  | .assign _ _ _ => .assign
  | .call _ _ => .callStmt
  | .if_ branches orElse _ => .if_ branches.length (orElse.map List.length)
  | .while_ _ body _ => .while_ body.length
  | .for_ _ _ direction _ step body _ => .for_ direction step.isSome body.length
  | .forEach _ _ body _ => .forEach body.length
  | .repeat_ body _ _ => .repeat_ body.length
  | .loop body _ => .loop body.length
  | .case _ arms otherwise _ => .case arms.length (otherwise.map List.length)
  | .return_ value _ => .return_ value.isSome
  | .exit _ => .exit
  | .new _ _ => .new
  | .dispose _ _ => .dispose
  | .ask _ _ => .askStmt
  | .tell _ delay _ => .tell delay.isSome
  | .wait (.method _) body interrupt _ => .wait true body.length (interrupt.map List.length)
  | .wait (.duration _) body interrupt _ => .wait false body.length (interrupt.map List.length)
  | .terminate _ => .terminate
  | .inherited _ args _ => .inheritedStmt args.length
  | .with_ _ body _ => .with_ body.length

def ofExpr : Expr → Label
  | .name _ => .name
  | .integer value _ => .integer value
  | .real bits _ => .real bits
  | .string value _ => .string value
  | .char value _ => .char value
  | .bool value _ => .bool value
  | .nil kind _ => .nil kind
  | .selfRef _ => .selfRef
  | .unary op _ _ => .unary op
  | .binary op _ _ _ => .binary op
  | .call _ args _ => .call args.length
  | .index _ indices _ => .index indices.length
  | .field _ _ _ => .field
  | .deref _ _ => .deref
  | .set elements _ => .set elements.length
  | .range _ _ _ => .range
  | .ask _ => .askExpr
  | .inherited _ args _ => .inheritedExpr args.length
  | .missing _ => .missing

end Label

end SimFront
