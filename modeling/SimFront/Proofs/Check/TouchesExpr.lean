import SimFront.Proofs.Check.Touches
import SimFront.Tree.Beside

/-!
# The reports on an expression

The check of an expression touches the state, and all its reports stand in the tree of the
expression (`checkExpr_yields`).  With a name on which nothing is reported (`Silences`) they
stand beside the uses of that name, and of a value that the name leads to nothing is known
(`Vague`).
-/

namespace SimFront

/-! ## Places in a tree -/

namespace Expr

theorem isOn_none (e : Expr) : e.isOn none = false := by
  unfold isOn
  cases e.rootName? <;> rfl

/-- What is on a name is a place. -/
theorem isDesignator_of_isOn {name? : Option String} {e : Expr} (h : e.isOn name? = true) :
    e.isDesignator = true := by
  induction e using Expr.rootName?.induct with
  | case1 => rfl
  | case2 base member span ih =>
    have hbase := ih h
    cases base <;> first | exact hbase | rfl
  | case3 base indices span ih =>
    have hbase := ih h
    cases base <;> first | exact hbase | rfl
  | case4 => rfl
  | case5 e hname hfield hindex hderef =>
    cases e with
    | name id => exact absurd rfl (hname id)
    | field base member span => exact absurd rfl (hfield base member span)
    | index base indices span => exact absurd rfl (hindex base indices span)
    | deref base span => exact absurd rfl (hderef base span)
    | _ => cases h

end Expr

namespace Node

/-- With no name to look for, nothing is a use. -/
theorem isOn_none (n : Node) : n.isOn none = false := by
  unfold isOn
  split
  · exact Expr.isOn_none _
  · exact Expr.isOn_none _
  · exact Bool.and_false _
  · exact Bool.and_false _
  · exact Bool.and_false _
  · rfl

theorem isUse_none (parent c : Node) : isUse none parent c = false := by
  unfold isUse
  split
  · unfold usesIdent
    split
    · exact Expr.isOn_none _
    · exact Expr.isOn_none _
    · exact Bool.and_false _
    all_goals rfl
  · rfl

theorem Beside.mem_preorder {name? : Option String} {n m : Node} (h : n.Beside name? m) :
    m ∈ n.preorder := by
  induction h with
  | self => exact mem_preorder_self _
  | child hc _ _ ih => exact mem_preorder_of_child hc ih

end Node

namespace Check

variable {α β : Type} {head : ModuleHead} {place : Span → Prop} {I : Standing head place}
  {name? : Option String}

/-- Reports are allowed on any node of the tree beside the uses of the name. -/
def Covers (place : Span → Prop) (name? : Option String) (n : Node) : Prop :=
  ∀ m, n.Beside name? m → place m.span

namespace Covers

variable {n c : Node}

theorem self (h : Covers place name? n) (hon : n.isOn name? = false) : place n.span :=
  h n (.self hon)

theorem child (h : Covers place name? n) (hc : c ∈ n.children)
    (huse : Node.isUse name? n c = false) : Covers place name? c :=
  fun m hm => h m (.child hc huse hm)

theorem mapped {f : α → Node} {as : List α} (h : Covers place name? n)
    (hsub : as.map f ⊆ n.children) (huse : ∀ a ∈ as, Node.isUse name? n (f a) = false) :
    ∀ a ∈ as, Covers place name? (f a) :=
  fun a ha => h.child (hsub (List.mem_map_of_mem ha)) (huse a ha)

theorem exprs {es : List Expr} (h : Covers place name? n) (hsub : es.map .expr ⊆ n.children) :
    ∀ e ∈ es, Covers place name? (.expr e) :=
  h.mapped hsub fun _ _ => rfl

theorem stmts {ss : List Stmt} (h : Covers place name? n) (hsub : ss.map .stmt ⊆ n.children) :
    ∀ s ∈ ss, Covers place name? (.stmt s) :=
  h.mapped hsub fun _ _ => rfl

end Covers

/-- Nothing is known of the value of an expression that is on the name. -/
def Vague (name? : Option String) (e : Expr) (t : Ty) : Prop := e.isOn name? = true → t = .unknown

/-- Either nothing is known of a value, or reports on it are allowed. -/
def Excused (place : Span → Prop) (span : Span) (t : Ty) : Prop := t = .unknown ∨ place span

theorem Vague.of_not_isOn {e : Expr} (h : e.isOn name? = false) (t : Ty) : Vague name? e t :=
  fun hon => by
    rw [h] at hon
    cases hon

theorem Vague.excused {e : Expr} {t : Ty} (h : Vague name? e t) (hcovers : Covers place name? (.expr e)) :
    Excused place e.span t := by
  cases hon : e.isOn name? with
  | true => exact .inl (h hon)
  | false => exact .inr (hcovers.self hon)

/-- Where the name is used nothing is reported, and nothing is known of what it stands for. -/
structure Silences (I : Standing head place) (name? : Option String) : Prop where
  read : ∀ i : Ident, name? = some i.name → Yields I (· = .unknown) (readName i)
  write : ∀ i : Ident, name? = some i.name → Yields I (· = .unknown) (writeName i)
  /-- The name stands for no module. -/
  member : ∀ i member : Ident, name? = some i.name → Yields I (· = none) (moduleMember i member)

theorem Silences.none (I : Standing head place) : Silences I none where
  read _ h := by cases h
  write _ h := by cases h
  member _ _ h := by cases h

/-! ## Types of values -/

theorem binaryType_touches (op : BinaryOp) (left right : Ty) : Touches I (binaryType op left right) := by
  unfold binaryType
  split
  · exact .pure _
  · exact (normalize_query left).touches.bind fun _ => (normalize_query right).touches.bind fun _ => .pure _

theorem elementType_touches (base : Ty) : Touches I (elementType base) := by
  refine (normalize_query base).touches.bind fun t => ?_
  split
  · exact .pure _
  · exact .pure _
  · exact .pure _

/-- A value of which nothing is known fits every place. -/
theorem assignable_yields (target : Ty) {source : Ty} {span : Span} (h : Excused place span source) :
    Yields I (fun fits => fits = true ∨ place span) (assignable target source) := by
  rcases h with rfl | h
  · refine Yields.bind (normalize_query target).touches fun t _ => ?_
    change Yields I _ (pure (t.accepts .unknown))
    exact .pure (.inl (Ty.accepts_unknown t))
  · exact (assignable_query target source).touches.yields fun _ => .inr h

/-! ## Targets and arguments -/

section Arguments

theorem checkTarget_yields (hI : Silences I name?) {target : Expr}
    (htarget : Covers place name? (.expr target)) {check : Check Ty}
    (h : Yields I (Vague name? target) check) :
    Yields I (Vague name? target) (checkTarget target check) := by
  unfold checkTarget
  split
  · next hplace =>
    have hon : target.isOn name? = false := Bool.eq_false_iff.2 fun hon => by
      rw [Expr.isDesignator_of_isOn hon] at hplace
      cases hplace
    exact ((error_touches (htarget.self hon) _ _).bind fun _ => h.touches.bind fun _ => .pure _).yields
      (Vague.of_not_isOn hon)
  · split
    · next id _ =>
      cases hon : (Expr.name id).isOn name? with
      | true => exact (hI.write id (of_decide_eq_true hon)).mono fun _ hunknown _ => hunknown
      | false =>
        have hspan : place id.span := htarget.self hon
        exact (writeName_touches hspan).yields (Vague.of_not_isOn hon)
    · dsimp only
      split
      · refine Yields.bind table_query.touches fun t _ => ?_
        split
        · exact Yields.bind (markAssigned_touches _) fun _ _ => h
        · exact h
      · exact h

/-- An argument whose reports are beside the uses of the name. -/
structure TouchesArg (I : Standing head place) (name? : Option String) (arg : Argument) : Prop where
  tree : Covers place name? (.expr arg.1)
  check : Yields I (Vague name? arg.1) arg.2

variable {arg : Argument} {args : List Argument}

theorem notAPlace_touches (index : Nat) (mode : ParamMode) (h : TouchesArg I name? arg)
    (hplace : arg.1.isDesignator = false) : Touches I (notAPlace index mode arg) := by
  have hon : arg.1.isOn name? = false := Bool.eq_false_iff.2 fun hon => by
    rw [Expr.isDesignator_of_isOn hon] at hplace
    cases hplace
  have hspan : place arg.1.span := h.tree.self hon
  exact (error_touches hspan _ _).bind fun _ => h.check.touches.bind fun _ => .pure _

theorem checkArg_touches (hI : Silences I name?) (index : Nat) (h : TouchesArg I name? arg)
    (param? : Option ParamType) : Touches I (checkArg index arg param?) := by
  cases param? with
  | none => exact h.check.touches.bind fun _ => .pure _
  | some p =>
    unfold checkArg
    dsimp only
    split
    · split
      · exact (checkTarget_yields hI h.tree h.check).touches.bind fun _ => .pure _
      · next hplace => exact notAPlace_touches index p.mode h (Bool.eq_false_iff.2 hplace)
    · refine h.check.bind fun type htype => ?_
      refine (assignable_yields p.type (htype.excused h.tree)).bind fun fits hfits => ?_
      split
      · exact .pure trivial
      · next hfit => exact error_touches (hfits.resolve_left hfit) _ _

theorem checkArgList_touches (hI : Silences I name?) (index : Nat)
    (h : ∀ arg ∈ args, TouchesArg I name? arg) (params : List ParamType) :
    Touches I (checkArgList index args params) := by
  induction args generalizing index params with
  | nil => exact .pure _
  | cons arg args ih =>
    exact (checkArg_touches hI index (h arg (.head _)) _).bind fun _ =>
      ih (index + 1) (fun a ha => h a (.tail _ ha)) _

theorem checkArgs_touches (hI : Silences I name?) (h : ∀ arg ∈ args, TouchesArg I name? arg)
    (signature? : Option Signature) {span : Span} (hspan : place span) :
    Touches I (checkArgs args signature? span) := by
  cases signature? with
  | none => exact checkArgList_touches hI 0 h []
  | some s =>
    unfold checkArgs
    dsimp only
    split
    · exact (error_touches hspan _ _).bind fun _ => checkArgList_touches hI 0 h _
    · exact checkArgList_touches hI 0 h _

theorem callResult_touches (hI : Silences I name?) (callee : Ty)
    (h : ∀ arg ∈ args, TouchesArg I name? arg) {span : Span} (hspan : place span) :
    Touches I (callResult callee args span) := by
  unfold callResult
  split
  · exact (checkArgs_touches hI h _ hspan).bind fun _ => .pure _
  · exact (checkArgs_touches hI h none hspan).bind fun _ => .pure _

theorem checkFirstArg_touches (hI : Silences I name?) (name : String) (h : TouchesArg I name? arg) :
    Touches I (checkFirstArg name arg) := by
  unfold checkFirstArg
  split
  · split
    · exact (checkTarget_yields hI h.tree h.check).touches
    · next hplace =>
      exact (notAPlace_touches 0 .inOut h (Bool.eq_false_iff.2 hplace)).bind fun _ => .pure _
  · exact h.check.touches

/-- Running the checks of some values one after the other. -/
theorem forM_arguments_touches (h : ∀ arg ∈ args, TouchesArg I name? arg) :
    Touches I (args.forM fun a => do let _ ← a.2; pure ()) :=
  forM_touches fun arg harg => (h arg harg).check.touches.bind fun _ => .pure _

theorem builtinCall_touches (hI : Silences I name?) (name : String)
    (h : ∀ arg ∈ args, TouchesArg I name? arg) : Touches I (builtinCall name args) := by
  cases args with
  | nil => exact .pure _
  | cons arg rest =>
    exact (checkFirstArg_touches hI name (h arg (.head _))).bind fun _ =>
      (forM_arguments_touches fun a ha => h a (.tail _ ha)).bind fun _ => .pure _

theorem builtinCallee?_touches (callee : Expr) : Touches I (builtinCallee? callee) := by
  unfold builtinCallee?
  split
  · refine table_query.touches.bind fun t => ?_
    split
    · exact .pure _
    · exact .pure _
  · exact .pure _

theorem checkCall_touches (hI : Silences I name?) (callee : Expr) {check : Check Ty}
    (h : Touches I check) (hargs : ∀ arg ∈ args, TouchesArg I name? arg) {span : Span}
    (hspan : place span) : Touches I (checkCall callee check args span) := by
  refine (builtinCallee?_touches callee).bind fun builtin? => ?_
  cases builtin? with
  | some name => exact builtinCall_touches hI name hargs
  | none => exact h.bind fun type => callResult_touches hI type hargs hspan

theorem inheritedCall_touches (hI : Silences I name?) {method : Ident} (hmethod : place method.span)
    (hargs : ∀ arg ∈ args, TouchesArg I name? arg) : Touches I (inheritedCall method args) := by
  refine .read fun env => ?_
  split
  · exact callResult_touches hI _ hargs hmethod
  · next o _ =>
    refine (baseMethod_touches o method.name).bind fun base? => ?_
    cases base? with
    | some base => exact callResult_touches hI _ hargs hmethod
    | none => exact (error_touches hmethod _ _).bind fun _ => callResult_touches hI _ hargs hmethod

theorem firstType_touches (h : ∀ arg ∈ args, TouchesArg I name? arg) : Touches I (firstType args) := by
  cases args with
  | nil => exact .pure _
  | cons arg rest =>
    exact (h arg (.head _)).check.touches.bind fun _ =>
      (forM_arguments_touches fun a ha => h a (.tail _ ha)).bind fun _ => .pure _

/-! ## Members -/

/-- A value of which nothing is known may have any member. -/
theorem memberType_unknown (member : Ident) :
    Yields I (· = .unknown) (memberType .unknown member) := fun _ s hs => ⟨.refl s, I.faithful hs, rfl⟩

/-- The member of a value; on a member of what the name stands for nothing is reported. -/
theorem memberType_yields {base : Expr} {type : Ty} (htype : Vague name? base type) {member : Ident}
    (hmember : base.isOn name? = false → place member.span) :
    Yields I (fun t => base.isOn name? = true → t = .unknown) (memberType type member) := by
  cases hon : base.isOn name? with
  | true =>
    rw [htype hon]
    exact (memberType_unknown member).mono fun _ h _ => h
  | false => exact (memberType_touches type (hmember hon)).yields fun _ h => by cases h

theorem methodCall_touches (hI : Silences I name?) {target : Expr} {check : Check Ty}
    (h : Yields I (Vague name? target) check) {method : Ident}
    (hmethod : target.isOn name? = false → place method.span)
    (hargs : ∀ arg ∈ args, TouchesArg I name? arg) {span : Span} (hspan : place span) :
    Touches I (methodCall check method args span) :=
  Yields.bind h fun _ htype => Yields.bind (memberType_yields htype hmethod) fun callee _ =>
    callResult_touches hI callee hargs hspan

theorem fieldAccess_yields (hI : Silences I name?) {base : Expr} {check : Check Ty}
    (h : Yields I (Vague name? base) check) {member : Ident}
    (hmember : base.isOn name? = false → place member.span) :
    Yields I (fun t => base.isOn name? = true → t = .unknown) (fieldAccess base check member) := by
  have ofValue : Yields I (fun t => base.isOn name? = true → t = .unknown)
      (do memberType (← check) member) :=
    h.bind fun _ htype => memberType_yields htype hmember
  unfold fieldAccess
  extract_lets rest
  split
  · next module =>
    cases hon : (Expr.name module).isOn name? with
    | true =>
      refine (hI.member module member (of_decide_eq_true hon)).bind fun declared? hnone => ?_
      obtain rfl := hnone
      rw [hon] at ofValue
      exact ofValue
    | false =>
      have hspan : place member.span := hmember hon
      refine Touches.yields ?_ fun _ h => by cases h
      refine (moduleMember_touches module hspan).bind fun declared? => ?_
      cases declared? with
      | some type => exact .pure _
      | none => exact ofValue.touches
  · exact ofValue

end Arguments

/-! ## Expressions -/

mutual

/-- The reports on an expression are beside the uses of the name. -/
theorem checkExpr_yields (hI : Silences I name?) : ∀ e : Expr,
    Covers place name? (.expr e) → Yields I (Vague name? e) (checkExpr e)
  | .name id, h => by
    rw [checkExpr]
    cases hon : (Expr.name id).isOn name? with
    | true => exact (hI.read id (of_decide_eq_true hon)).mono fun _ hunknown _ => hunknown
    | false =>
      have hspan : place id.span := h.self hon
      exact (readName_touches hspan).yields (Vague.of_not_isOn hon)
  | .integer _ _, h | .real _ _, h | .string _ _, h | .char _ _, h | .bool _ _, h | .nil _ _, h
  | .missing _, h => by
    rw [checkExpr]
    exact .pure (Vague.of_not_isOn rfl _)
  | .selfRef _, h => by
    rw [checkExpr]
    exact Touches.yields (.read fun _ => .pure _) (Vague.of_not_isOn rfl)
  | .unary op operand _, h => by
    rw [checkExpr]
    exact ((checkExpr_yields hI operand (h.child (.head _) rfl)).touches.bind fun _ =>
      .pure _).yields (Vague.of_not_isOn rfl)
  | .binary op left right _, h => by
    rw [checkExpr]
    exact ((checkExpr_yields hI left (h.child (.head _) rfl)).touches.bind fun l =>
      (checkExpr_yields hI right (h.child (.tail _ (.head _)) rfl)).touches.bind fun r =>
        binaryType_touches op l r).yields (Vague.of_not_isOn rfl)
  | .call callee args span, h => by
    rw [checkExpr]
    exact (checkCall_touches hI callee (checkExpr_yields hI callee (h.child (.head _) rfl)).touches
      (checkEach_touches hI args (h.exprs (List.subset_cons_self _ _))) (h.self rfl)).yields
        (Vague.of_not_isOn rfl)
  | .index base indices span, h => by
    rw [checkExpr]
    refine (checkExpr_yields hI base (h.child (.head _) rfl)).bind fun type htype => ?_
    refine Yields.bind (firstType_touches (checkEach_touches hI indices
      (h.exprs (List.subset_cons_self _ _)))) fun _ _ => ?_
    cases hon : base.isOn name? with
    | true =>
      rw [htype hon]
      exact fun _ s hs => ⟨.refl s, I.faithful hs, fun _ => rfl⟩
    | false => exact (elementType_touches type).yields (Vague.of_not_isOn hon)
  | .field base member _, h => by
    rw [checkExpr]
    exact fieldAccess_yields hI (checkExpr_yields hI base (h.child (.head _) rfl)) fun hon =>
      (h.child (.tail _ (.head _)) hon).self rfl
  | .deref base _, h => by
    rw [checkExpr]
    refine (checkExpr_yields hI base (h.child (.head _) rfl)).bind fun type htype => ?_
    split
    · exact .pure fun hon => by cases htype hon
    · exact .pure fun _ => rfl
  | .set elements _, h => by
    rw [checkExpr]
    exact ((firstType_touches (checkEach_touches hI elements (h.exprs (List.Subset.refl _)))).bind
      fun _ => .pure _).yields (Vague.of_not_isOn rfl)
  | .range low high _, h => by
    rw [checkExpr]
    exact ((checkExpr_yields hI low (h.child (.head _) rfl)).touches.bind fun _ =>
      (checkExpr_yields hI high (h.child (.tail _ (.head _)) rfl)).touches.bind fun _ =>
        .pure _).yields (Vague.of_not_isOn rfl)
  | .ask call, h => by
    rw [checkExpr]
    exact (checkMethodCall_touches hI call (h.child (.head _) rfl)).yields (Vague.of_not_isOn rfl)
  | .inherited method args _, h => by
    rw [checkExpr]
    exact (inheritedCall_touches hI ((h.child (.head _) rfl).self rfl)
      (checkEach_touches hI args (h.exprs (List.subset_cons_self _ _)))).yields
        (Vague.of_not_isOn rfl)

theorem checkMethodCall_touches (hI : Silences I name?) : ∀ call : MethodCall,
    Covers place name? (.methodCall call) → Touches I (checkMethodCall call)
  | ⟨target, method, args, span⟩, h => by
    rw [checkMethodCall]
    exact methodCall_touches hI (checkExpr_yields hI target (h.child (.head _) rfl))
      (fun hon => (h.child (.tail _ (.head _)) hon).self rfl)
      (checkEach_touches hI args (h.exprs fun _ hn => .tail _ (.tail _ hn))) (h.self rfl)

theorem checkEach_touches (hI : Silences I name?) : ∀ es : List Expr,
    (∀ e ∈ es, Covers place name? (.expr e)) → ∀ arg ∈ checkEach es, TouchesArg I name? arg
  | [], _ => by
    rw [checkEach]
    exact List.forall_mem_nil _
  | e :: es, h => by
    rw [checkEach]
    intro arg harg
    rcases List.mem_cons.1 harg with rfl | harg
    · exact ⟨h e (.head _), checkExpr_yields hI e (h e (.head _))⟩
    · exact checkEach_touches hI es (fun e' he' => h e' (.tail _ he')) arg harg

end

theorem checkValue_touches (hI : Silences I name?) {e : Expr} (h : Covers place name? (.expr e)) :
    Touches I (checkValue e) :=
  (checkExpr_yields hI e h).touches.bind fun _ => .pure _

end Check

end SimFront
