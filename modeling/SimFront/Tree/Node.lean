import SimFront.Tree.Label

/-!
# Nodes: any place of a tree

`Node` is the sum of everything that can stand in the tree of a module.
`Node.children` lists the direct children of a node in source order.  From it
come the two listings of a whole tree: `Node.preorder`, by recursion on the
tree, and `Node.descendants`, which walks with a stack of nodes still to visit.
-/

namespace SimFront

inductive Node where
  | module (n : Module)
  | import (n : Import)
  | importItem (n : ImportItem)
  | export (n : Export)
  | decl (n : Decl)
  | procHeading (n : ProcHeading)
  | param (n : Param)
  | methodHeading (n : MethodHeading)
  | methodImpl (n : MethodImpl)
  | typeSpec (n : TypeSpec)
  | arrayIndex (n : ArrayIndex)
  | fieldDecl (n : FieldDecl)
  | objectSection (n : ObjectSection)
  | stmt (n : Stmt)
  | condBranch (n : CondBranch)
  | caseArm (n : CaseArm)
  | methodCall (n : MethodCall)
  | expr (n : Expr)
  | ident (n : Ident)
  | qualIdent (n : QualIdent)

namespace Node

def span : Node → Span
  | .module n => n.span
  | .import n => n.span
  | .importItem n => n.span
  | .export n => n.span
  | .decl n => n.span
  | .procHeading n => n.span
  | .param n => n.span
  | .methodHeading n => n.span
  | .methodImpl n => n.span
  | .typeSpec n => n.span
  | .arrayIndex n => n.span
  | .fieldDecl n => n.span
  | .objectSection n => n.span
  | .stmt n => n.span
  | .condBranch n => n.span
  | .caseArm n => n.span
  | .methodCall n => n.span
  | .expr n => n.span
  | .ident n => n.span
  | .qualIdent n => n.span

def label : Node → Label
  | .module m =>
    .module m.kind m.imports.length m.exports.length m.decls.length (m.body.map List.length)
  | .import (.names _ items _) => .importNames items.length
  | .import (.modules ms _) => .importModules ms.length
  | .importItem i => .importItem i.all i.alias?.isSome i.localName.name
  | .export e => .export e.names.length
  | .decl d => .ofDecl d
  | .procHeading h => .procHeading h.params.length h.result.isSome
  | .param p => .param p.mode p.names.length
  | .methodHeading h => .methodHeading h.dispatch h.params.length h.result.isSome
  | .methodImpl m => .methodImpl m.locals.length m.body.length
  | .typeSpec t => .ofTypeSpec t
  | .arrayIndex (.range _ _ _) => .indexRange
  | .arrayIndex (.type _) => .indexType
  | .fieldDecl f => .fieldDecl f.names.length
  | .objectSection s => .objectSection s.kind s.members.length
  | .stmt s => .ofStmt s
  | .condBranch b => .condBranch b.body.length
  | .caseArm a => .caseArm a.labels.length a.body.length
  | .methodCall c => .methodCall c.args.length
  | .expr e => .ofExpr e
  | .ident i => .ident i.name
  | .qualIdent q => .qualIdent q.module?.isSome q.display

/-! ## Children -/

def ofMember : ObjectMember → Node
  | .field d => .fieldDecl d
  | .method h => .methodHeading h

def childrenOfDecl : Decl → List Node
  | .type d => [.ident d.name, .typeSpec d.type]
  | .const d => .ident d.name :: (d.type.toList.map .typeSpec ++ [.expr d.value])
  | .var d => d.names.map .ident ++ .typeSpec d.type :: d.init.toList.map .expr
  | .procedure d => .procHeading d.heading :: (d.locals.map .decl ++ d.body.map .stmt)
  | .objectImpl d => .ident d.name :: d.methods.map .methodImpl

def childrenOfType : TypeSpec → List Node
  | .named name => [.qualIdent name]
  | .array indices element _ => indices.map .arrayIndex ++ [.typeSpec element]
  | .record fields _ => fields.map .fieldDecl
  | .pointer target _ => [.typeSpec target]
  | .set element _ => [.typeSpec element]
  | .enum values _ => values.map .ident
  | .subrange low high _ => [.expr low, .expr high]
  | .procedure params result _ => params.map .param ++ result.toList.map .typeSpec
  | .object o => o.bases.map .qualIdent ++ o.sections.map .objectSection

/-- The statements of an optional block. -/
def ofBlock? (block : Option (List Stmt)) : List Node := (block.getD []).map .stmt

def ofWaitSubject : WaitSubject → Node
  | .method call => .methodCall call
  | .duration time => .expr time

def childrenOfStmt : Stmt → List Node
  | .assign target value _ => [.expr target, .expr value]
  | .call call _ => [.expr call]
  | .if_ branches orElse _ => branches.map .condBranch ++ ofBlock? orElse
  | .while_ condition body _ => .expr condition :: body.map .stmt
  | .for_ var first _ last step body _ =>
    .ident var :: .expr first :: .expr last :: (step.toList.map .expr ++ body.map .stmt)
  | .forEach var group body _ => .ident var :: .expr group :: body.map .stmt
  | .repeat_ body condition _ => body.map .stmt ++ [.expr condition]
  | .loop body _ => body.map .stmt
  | .case selector arms otherwise _ =>
    .expr selector :: (arms.map .caseArm ++ ofBlock? otherwise)
  | .return_ value _ => value.toList.map .expr
  | .exit _ => []
  | .new target _ => [.expr target]
  | .dispose target _ => [.expr target]
  | .ask call _ => [.methodCall call]
  | .tell call delay _ => .methodCall call :: delay.toList.map .expr
  | .wait subject body interrupt _ =>
    ofWaitSubject subject :: (body.map .stmt ++ ofBlock? interrupt)
  | .terminate _ => []
  | .inherited method args _ => .ident method :: args.map .expr
  | .with_ subject body _ => .expr subject :: body.map .stmt

def childrenOfExpr : Expr → List Node
  | .name id => [.ident id]
  | .integer _ _ | .real _ _ | .string _ _ | .char _ _ | .bool _ _ | .nil _ _ | .selfRef _
  | .missing _ => []
  | .unary _ operand _ => [.expr operand]
  | .binary _ left right _ => [.expr left, .expr right]
  | .call callee args _ => .expr callee :: args.map .expr
  | .index base indices _ => .expr base :: indices.map .expr
  | .field base name _ => [.expr base, .ident name]
  | .deref base _ => [.expr base]
  | .set elements _ => elements.map .expr
  | .range low high _ => [.expr low, .expr high]
  | .ask call => [.methodCall call]
  | .inherited method args _ => .ident method :: args.map .expr

/-- The direct children of a node, in source order. -/
def children : Node → List Node
  | .module m =>
    .ident m.name :: (m.imports.map .import ++ m.exports.map .export ++ m.decls.map .decl
      ++ ofBlock? m.body)
  | .import (.names m items _) => .ident m :: items.map .importItem
  | .import (.modules ms _) => ms.map .ident
  | .importItem i => .ident i.name :: i.alias?.toList.map .ident
  | .export e => e.names.map .ident
  | .decl d => childrenOfDecl d
  | .procHeading h => .ident h.name :: (h.params.map .param ++ h.result.toList.map .typeSpec)
  | .param p => p.names.map .ident ++ [.typeSpec p.type]
  | .methodHeading h => .ident h.name :: (h.params.map .param ++ h.result.toList.map .typeSpec)
  | .methodImpl m => .methodHeading m.heading :: (m.locals.map .decl ++ m.body.map .stmt)
  | .typeSpec t => childrenOfType t
  | .arrayIndex (.range low high _) => [.expr low, .expr high]
  | .arrayIndex (.type name) => [.qualIdent name]
  | .fieldDecl f => f.names.map .ident ++ [.typeSpec f.type]
  | .objectSection s => s.members.map ofMember
  | .stmt s => childrenOfStmt s
  | .condBranch b => .expr b.condition :: b.body.map .stmt
  | .caseArm a => a.labels.map .expr ++ a.body.map .stmt
  | .methodCall c => .expr c.target :: .ident c.method :: c.args.map .expr
  | .expr e => childrenOfExpr e
  | .ident _ => []
  | .qualIdent q => q.module?.toList.map .ident ++ [.ident q.name]

end Node

end SimFront
