import SimFront.Tree.Stmt

/-!
# Trees up to spans

The shape of a tree is the tree with all of its spans put at the start of the text.  Two
trees have the same shape when they differ in nothing but their spans.
-/

namespace SimFront

namespace Ident

def shape (i : Ident) : Ident := ⟨i.name, {}⟩

end Ident

/-! ## Expressions -/

mutual

@[simp] def Expr.shape : Expr → Expr
  | .name id => .name id.shape
  | .integer value _ => .integer value {}
  | .real bits _ => .real bits {}
  | .string value _ => .string value {}
  | .char value _ => .char value {}
  | .bool value _ => .bool value {}
  | .nil kind _ => .nil kind {}
  | .selfRef _ => .selfRef {}
  | .unary op operand _ => .unary op operand.shape {}
  | .binary op left right _ => .binary op left.shape right.shape {}
  | .call callee args _ => .call callee.shape (exprShapes args) {}
  | .index base indices _ => .index base.shape (exprShapes indices) {}
  | .field base name _ => .field base.shape name.shape {}
  | .deref base _ => .deref base.shape {}
  | .set elements _ => .set (exprShapes elements) {}
  | .range low high _ => .range low.shape high.shape {}
  | .ask call => .ask call.shape
  | .inherited method args _ => .inherited method.shape (exprShapes args) {}
  | .missing _ => .missing {}

@[simp] def MethodCall.shape : MethodCall → MethodCall
  | ⟨target, method, args, _⟩ => ⟨target.shape, method.shape, exprShapes args, {}⟩

/-- The shapes of some expressions. -/
@[simp] def exprShapes : List Expr → List Expr
  | [] => []
  | e :: es => e.shape :: exprShapes es

end

theorem exprShapes_eq_map (es : List Expr) : exprShapes es = es.map Expr.shape := by
  induction es with
  | nil => rfl
  | cons e es ih => rw [exprShapes, ih, List.map_cons]

/-! ## Statements -/

def WaitSubject.shape : WaitSubject → WaitSubject
  | .method call => .method call.shape
  | .duration time => .duration time.shape

mutual

@[simp] def Stmt.shape : Stmt → Stmt
  | .assign target value _ => .assign target.shape value.shape {}
  | .call call _ => .call call.shape {}
  | .if_ branches else? _ => .if_ (branchShapes branches) (blockShape? else?) {}
  | .while_ condition body _ => .while_ condition.shape (blockShape body) {}
  | .for_ var first direction last step body _ =>
    .for_ var.shape first.shape direction last.shape (step.map Expr.shape) (blockShape body) {}
  | .forEach var group body _ => .forEach var.shape group.shape (blockShape body) {}
  | .repeat_ body condition _ => .repeat_ (blockShape body) condition.shape {}
  | .loop body _ => .loop (blockShape body) {}
  | .case selector arms otherwise _ =>
    .case selector.shape (armShapes arms) (blockShape? otherwise) {}
  | .return_ value _ => .return_ (value.map Expr.shape) {}
  | .exit _ => .exit {}
  | .new target _ => .new target.shape {}
  | .dispose target _ => .dispose target.shape {}
  | .ask call _ => .ask call.shape {}
  | .tell call delay _ => .tell call.shape (delay.map Expr.shape) {}
  | .wait subject body interrupt _ =>
    .wait subject.shape (blockShape body) (blockShape? interrupt) {}
  | .terminate _ => .terminate {}
  | .inherited method args _ => .inherited method.shape (exprShapes args) {}
  | .with_ subject body _ => .with_ subject.shape (blockShape body) {}

/-- The shapes of the statements of a list. -/
@[simp] def blockShape : List Stmt → List Stmt
  | [] => []
  | s :: rest => s.shape :: blockShape rest

@[simp] def blockShape? : Option (List Stmt) → Option (List Stmt)
  | none => none
  | some body => some (blockShape body)

@[simp] def branchShapes : List CondBranch → List CondBranch
  | [] => []
  | ⟨condition, body, _⟩ :: rest => ⟨condition.shape, blockShape body, {}⟩ :: branchShapes rest

@[simp] def armShapes : List CaseArm → List CaseArm
  | [] => []
  | ⟨labels, body, _⟩ :: rest => ⟨exprShapes labels, blockShape body, {}⟩ :: armShapes rest

end

def CondBranch.shape (b : CondBranch) : CondBranch := ⟨b.condition.shape, blockShape b.body, {}⟩

def CaseArm.shape (a : CaseArm) : CaseArm := ⟨exprShapes a.labels, blockShape a.body, {}⟩

theorem branchShapes_eq_map (bs : List CondBranch) : branchShapes bs = bs.map CondBranch.shape := by
  induction bs with
  | nil => rfl
  | cons b bs ih =>
    obtain ⟨condition, body, span⟩ := b
    rw [branchShapes, ih, List.map_cons, CondBranch.shape]

theorem armShapes_eq_map (arms : List CaseArm) : armShapes arms = arms.map CaseArm.shape := by
  induction arms with
  | nil => rfl
  | cons a arms ih =>
    obtain ⟨labels, body, span⟩ := a
    rw [armShapes, ih, List.map_cons, CaseArm.shape]

theorem blockShape?_eq_map (o : Option (List Stmt)) : blockShape? o = o.map blockShape := by
  cases o <;> rfl

end SimFront
