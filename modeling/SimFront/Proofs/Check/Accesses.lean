import SimFront.Proofs.Check.ByName

/-!
# Accesses to a parameter

An OUT parameter has to be assigned before it is read, and it has to be assigned at all.  What a
routine does with a parameter is listed in the order in which it is evaluated: `exprAccesses`,
`stmtAccesses` and `declAccesses` read it off the tree.  What a name means and what the parameters
of a callee are is looked up in the state that the analysis is in at that point.

The state that is kept for an OUT parameter is a summary of its accesses so far
(`OutState.after`).  It tells which reads are reported (`OutState.early`): at most the first access.
-/

namespace SimFront

/-- A use of a parameter: it is assigned to, or else it is read. -/
structure Access where
  isWrite : Bool
  span : Span
deriving DecidableEq, Repr

/-! ## What becomes of an OUT parameter -/

namespace OutState

/-- Whether a read goes unreported. -/
def settled (o : OutState) : Bool := o.assigned || o.warned

def step (o : OutState) (a : Access) : OutState :=
  if a.isWrite then { o with assigned := true }
  else if o.settled then o else { o with warned := true }

/-- What becomes of an OUT parameter by some accesses, in their order. -/
def after (o : OutState) (as : List Access) : OutState := as.foldl step o

/-- The reads among some accesses that are reported. -/
def early (o : OutState) : List Access → List Span
  | [] => []
  | a :: as => (if a.isWrite || o.settled then [] else [a.span]) ++ (o.step a).early as

variable {o : OutState} {a b : Access} {as bs : List Access}

theorem after_append : o.after (as ++ bs) = (o.after as).after bs := List.foldl_append

theorem early_append : o.early (as ++ bs) = o.early as ++ (o.after as).early bs := by
  induction as generalizing o with
  | nil => rfl
  | cons a as ih => rw [List.cons_append, early, early, ih, List.append_assoc]; rfl

theorem settled_step (o : OutState) (a : Access) : (o.step a).settled = true := by
  unfold step settled
  split
  · exact Bool.true_or _
  · split
    · next h => exact h
    · exact Bool.or_true _

theorem early_of_settled (h : o.settled) : o.early as = [] := by
  induction as generalizing o with
  | nil => rfl
  | cons a as ih => rw [early, h, Bool.or_true, if_pos rfl, ih (settled_step o a)]; rfl

/-- At most the first access is reported: if it is a read, and neither reads nor an assignment
came before. -/
theorem early_cons : o.early (a :: as) = if a.isWrite || o.settled then [] else [a.span] := by
  rw [early, early_of_settled (settled_step o a), List.append_nil]

theorem assigned_after : (o.after as).assigned ↔ o.assigned ∨ ∃ a ∈ as, a.isWrite := by
  induction as generalizing o with
  | nil => simp [after]
  | cons a as ih =>
    rw [show o.after (a :: as) = (o.step a).after as from rfl, ih]
    simp only [List.mem_cons, exists_eq_or_imp]
    rw [← or_assoc]
    refine or_congr_left ?_
    unfold step
    split
    · next hwrite => simp [hwrite]
    · next hread => split <;> simp [hread]

end OutState

/-- Two lists of accesses come to the same for every OUT parameter. -/
def Access.Alike (as bs : List Access) : Prop :=
  ∀ o : OutState, o.after as = o.after bs ∧ o.early as = o.early bs

namespace Access

theorem Alike.refl (as : List Access) : Alike as as := fun _ => ⟨rfl, rfl⟩

/-- A read right after another access plays no part. -/
theorem alike_read {r : Access} (hr : r.isWrite = false) (a : Access) (rest : List Access) :
    Alike (a :: r :: rest) (a :: rest) := by
  intro o
  have hsame : (o.step a).step r = o.step a := by
    rw [OutState.step, hr, OutState.settled_step]
    rfl
  exact ⟨congrArg (OutState.after · rest) hsame, by rw [OutState.early_cons, OutState.early_cons]⟩

end Access

namespace Check

/-! ## Expressions -/

section Expressions

variable (env : Env) (s : CheckState) (p : Nat)

/-- The access that a symbol under a name is to the parameter, if it is this. -/
def symbolAccesses (isWrite : Bool) (span : Span) (symbol : Nat) : List Access :=
  if symbol = p then [⟨isWrite, span⟩] else []

/-- The access that the use of a name is. -/
def nameAccesses (isWrite : Bool) (id : Ident) : List Access :=
  if s.table.lookupId? id.name = some p then [⟨isWrite, id.span⟩] else []

/-- The modes of the parameters of something that is called, so far as they are known. -/
def paramModes : Ty → List ParamMode
  | .procedure signature => signature.params.map (·.mode)
  | _ => []

/-- The mode of the first parameter of a built-in procedure; the others are of no account. -/
def builtinModes (name : String) : List ParamMode := if writesFirst name then [.inOut] else []

/-- The type of the method that an inherited call goes to. -/
def inheritedType (method : String) : Ty :=
  match (env.objects.head?.filter (·.chainResolved)).bind (·.object?) with
  | none => .unknown
  | some o => (((baseMethod o method).outcome env s).1.map (·.type)).getD .unknown

mutual

/-- The accesses to the parameter in the evaluation of an expression, which may be the target of
an assignment. -/
def exprAccesses (asTarget : Bool) : Expr → List Access
  | .name id => nameAccesses s p asTarget id
  | .integer _ _ | .real _ _ | .string _ _ | .char _ _ | .bool _ _ | .nil _ _ | .selfRef _
  | .missing _ => []
  | .unary _ operand _ => exprAccesses false operand
  | .binary _ left right _ => exprAccesses false left ++ exprAccesses false right
  | .call callee args _ =>
    match ((builtinCallee? callee).outcome env s).1 with
    | some name => argAccesses (builtinModes name) args
    | none => exprAccesses false callee ++
        argAccesses (paramModes ((checkExpr callee).outcome env s).1) args
  | .index base indices _ => exprAccesses asTarget base ++ argAccesses [] indices
  | .field base _ _ | .deref base _ => exprAccesses asTarget base
  | .set elements _ => argAccesses [] elements
  | .range low high _ => exprAccesses false low ++ exprAccesses false high
  | .ask call => callAccesses call
  | .inherited method args _ => argAccesses (paramModes (inheritedType env s method.name)) args

def callAccesses : MethodCall → List Access
  | ⟨target, method, args, _⟩ => exprAccesses false target ++
      argAccesses (paramModes ((do memberType (← checkExpr target) method).outcome env s).1) args

/-- The accesses in the evaluation of arguments, from left to right.  An argument for an OUT or
INOUT parameter is assigned to. -/
def argAccesses : List ParamMode → List Expr → List Access
  | _, [] => []
  | modes, e :: es =>
    exprAccesses (modes.head?.any (·.needsDesignator)) e ++ argAccesses modes.tail es

end

end Expressions

/-! ## Statements -/

section Statements

variable (s : CheckState) (p : Nat)

def subjectAccesses (env : Env) : WaitSubject → List Access
  | .method call => callAccesses env s p call
  | .duration time => exprAccesses env s p false time

mutual

/-- The accesses to the parameter in a statement: a value is evaluated before the place it is
assigned to, the bounds of a FOR before its variable, the body of a REPEAT before its condition. -/
def stmtAccesses (env : Env) : Stmt → List Access
  | .assign target value _ => exprAccesses env s p false value ++ exprAccesses env s p true target
  | .call call _ => exprAccesses env s p false call
  | .if_ branches else? _ => branchAccesses env branches ++ optionalAccesses env else?
  | .while_ condition body _ => exprAccesses env s p false condition ++ blockAccesses env body
  | .repeat_ body condition _ => blockAccesses env body ++ exprAccesses env s p false condition
  | .for_ var first _ last step body _ =>
    exprAccesses env s p false first ++ exprAccesses env s p false last ++
      step.toList.flatMap (exprAccesses env s p false) ++ nameAccesses s p true var ++
        blockAccesses env body
  | .forEach var group body _ =>
    exprAccesses env s p false group ++ nameAccesses s p true var ++ blockAccesses env body
  | .loop body _ => blockAccesses env body
  | .case selector arms otherwise _ =>
    exprAccesses env s p false selector ++ armAccesses env arms ++ optionalAccesses env otherwise
  | .return_ value _ => value.toList.flatMap (exprAccesses env s p false)
  | .exit _ | .terminate _ => []
  | .new target _ => exprAccesses env s p true target
  | .dispose target _ => exprAccesses env s p false target
  | .ask call _ => callAccesses env s p call
  | .tell call delay _ =>
    callAccesses env s p call ++ delay.toList.flatMap (exprAccesses env s p false)
  | .wait subject body interrupt _ =>
    subjectAccesses s p env subject ++ blockAccesses env body ++ optionalAccesses env interrupt
  | .inherited method args _ =>
    argAccesses env s p (paramModes (inheritedType env s method.name)) args
  | .with_ subject body _ => exprAccesses env s p false subject ++
      blockAccesses { env with insideWith := true } body

def blockAccesses (env : Env) : List Stmt → List Access
  | [] => []
  | stmt :: rest => stmtAccesses env stmt ++ blockAccesses env rest

def optionalAccesses (env : Env) : Option (List Stmt) → List Access
  | none => []
  | some body => blockAccesses env body

def branchAccesses (env : Env) : List CondBranch → List Access
  | [] => []
  | ⟨condition, body, _⟩ :: rest =>
    exprAccesses env s p false condition ++ blockAccesses env body ++ branchAccesses env rest

def armAccesses (env : Env) : List CaseArm → List Access
  | [] => []
  | ⟨labels, body, _⟩ :: rest =>
    labels.flatMap (exprAccesses env s p false) ++ blockAccesses env body ++ armAccesses env rest

end

end Statements

/-! ## Declarations

Declarations change what names mean, so each part is looked at in the state that the parts before
it lead to. -/

section Declarations

variable (env : Env) (p : Nat)

/-- The state that a step leads to. -/
def stateAfter {α : Type} (step : Check α) (s : CheckState) : CheckState := (step.outcome env s).2

def entered (kind : ScopeKind) (span : Span) (s : CheckState) : CheckState :=
  { s with table := s.table.enter kind span }

/-- The accesses in the bounds of an array. -/
def indexAccesses (s : CheckState) : List ArrayIndex → List Access
  | [] => []
  | index :: rest =>
    (match index with
      | .range low high _ => exprAccesses env s p false low ++ exprAccesses env s p false high
      | .type _ => []) ++ indexAccesses (stateAfter env (checkArrayIndex index) s) rest

mutual

/-- The accesses to the parameter in a type specification, from the state `s` on. -/
def specAccesses (owner? : Option Ident) (s : CheckState) : TypeSpec → List Access
  | .named _ | .enum _ _ => []
  | .array indices element _ => indexAccesses env p s indices ++
      specAccesses none (stateAfter env (indices.forM checkArrayIndex) s) element
  | .record fields span => fieldAccesses owner? .public_ (entered .record span s) fields
  | .pointer target _ => specAccesses none s target
  | .set element _ => specAccesses none s element
  | .subrange low high _ => exprAccesses env s p false low ++ exprAccesses env s p false high
  | .procedure params result _ =>
    paramAccesses s params ++ resultAccesses (stateAfter env (paramsOf params) s) result
  | .object ⟨bases, sections, span⟩ =>
    sectionAccesses owner? (entered .object span (stateAfter env (bases.mapM typeOfName) s)) sections

def paramAccesses (s : CheckState) : List Param → List Access
  | [] => []
  | ⟨_, _, spec, _⟩ :: rest =>
    specAccesses none s spec ++ paramAccesses (stateAfter env (typeOfSpec none spec) s) rest

def resultAccesses (s : CheckState) : Option TypeSpec → List Access
  | none => []
  | some spec => specAccesses none s spec

def fieldAccesses (owner? : Option Ident) (sect : SectionKind) (s : CheckState) :
    List FieldDecl → List Access
  | [] => []
  | ⟨names, spec, _⟩ :: rest => specAccesses none s spec ++
      fieldAccesses owner? sect (stateAfter env (do
        defineFields owner? sect (← typeOfSpec none spec) names) s) rest

def memberAccesses (s : CheckState) : ObjectMember → List Access
  | .field ⟨_, spec, _⟩ => specAccesses none s spec
  | .method ⟨_, _, params, result, _⟩ =>
    paramAccesses s params ++ resultAccesses (stateAfter env (paramsOf params) s) result

def membersAccesses (owner? : Option Ident) (sect : SectionKind) (s : CheckState) :
    List ObjectMember → List Access
  | [] => []
  | m :: rest => memberAccesses s m ++
      membersAccesses owner? sect (stateAfter env (memberOf owner? sect m) s) rest

def sectionAccesses (owner? : Option Ident) (s : CheckState) : List ObjectSection → List Access
  | [] => []
  | ⟨kind, members, _⟩ :: rest => membersAccesses owner? kind s members ++
      sectionAccesses owner? (stateAfter env (membersOf owner? kind members) s) rest

end

/-- The accesses to the parameter in a declaration.  The bodies of procedures and methods are no
part of it. -/
def declAccesses (s : CheckState) : Decl → List Access
  | .type d => specAccesses env p (some d.name)
      (stateAfter env (define { name := d.name.name, kind := .type, span := d.name.span }) s) d.type
  | .const d => exprAccesses env s p false d.value ++
      d.type.toList.flatMap (specAccesses env p none (stateAfter env (checkExpr d.value) s))
  | .var d => specAccesses env p none s d.type ++ d.init.toList.flatMap
      (exprAccesses env (stateAfter env (typeOfSpec none d.type) s) p false)
  | .procedure d => paramAccesses env p s d.heading.params ++
      resultAccesses env p (stateAfter env (paramsOf d.heading.params) s) d.heading.result
  | .objectImpl _ => []

def declsAccesses (s : CheckState) : List Decl → List Access
  | [] => []
  | d :: ds => declAccesses env p s d ++ declsAccesses (stateAfter env (declare d) s) ds

end Declarations

end Check

end SimFront
