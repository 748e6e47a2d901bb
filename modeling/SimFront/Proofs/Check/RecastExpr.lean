import SimFront.Proofs.Check.RecastLookup
import SimFront.Check.Expr
import SimFront.Tree.Walk

/-!
# Expressions over a recast variable

The value of an expression has one type in both runs, or is that of the variable
(`Expr.carries`).  Where the type of a value is compared, indexed or searched for a member, its
name is followed first; a dereference, a call and a set take it as it stands (`Node.exposes`).
Trees that do none of this to the variable are checked alike in both runs.
-/

namespace SimFront

/-- The built-in procedures whose result has the type of their first argument. -/
def givesFirst (name : String) : Bool := ["ABS", "MIN", "MAX"].contains name

/-- Whether an expression may have the type of the variable of a name, as it was declared. -/
def Expr.carries (name : String) : Expr → Bool
  | .name id => id.name = name
  | .field (.name _) member _ => member.name = name
  | .unary op operand _ => op ≠ .not && operand.carries name
  | .range low _ _ => low.carries name
  | .call (.name callee) (arg :: _) _ => givesFirst callee.name && arg.carries name
  | _ => false

/-- Whether a node takes the type of the variable of a name as it was declared: the pointer that
is followed, the procedure that is called, or the first element of a set. -/
def Node.exposes (name : String) : Node → Bool
  | .expr (.deref base _) => base.carries name
  | .expr (.call callee _ _) => callee.carries name
  | .expr (.set elements _) => elements.head?.any (·.carries name)
  | _ => false

/-- No node of the tree takes the type of the variable as it was declared. -/
def Recast.Spares (c : Recast) (n : Node) : Prop := ∀ m ∈ n.preorder, m.exposes c.name = false

namespace Recast.Spares

variable {c : Recast} {n m : Node}

theorem self (h : c.Spares n) : n.exposes c.name = false := h n n.mem_preorder_self

theorem child (h : c.Spares n) (hm : m ∈ n.children) : c.Spares m := fun k hk =>
  h k (Node.mem_preorder_of_child hm hk)

theorem mapped {α : Type} {f : α → Node} {as : List α} (h : c.Spares n)
    (hsub : as.map f ⊆ n.children) : ∀ a ∈ as, c.Spares (f a) :=
  fun _ ha => h.child (hsub (List.mem_map_of_mem ha))

end Recast.Spares

namespace Check

variable {c : Recast}

/-! ## Names -/

/-- A name has one meaning in both runs, which is the variable only if the name is its name. -/
inductive Means (c : Recast) (name : String) : Option Binding → Option Binding → Prop where
  | none : Means c name none none
  | some {b : Binding} : Other c name b → Means c name (some b) (some b)

theorem objectMemberAt_recasts (scope : Nat) (id : Ident) :
    Recasts c (Means c id.name) (objectMemberAt scope id) (objectMemberAt scope id) := by
  refine .table fun t uses ht => ?_
  rw [show (t.recast c uses).scope? scope = t.scope? scope from rfl]
  split
  · split
    · refine .read fun env => ?_
      split
      · next o _ =>
        refine (findMember_recasts o id.name).bind fun m? m?' hm => ?_
        obtain ⟨rfl, hname⟩ := hm
        cases m? with
        | none => exact .pure .none
        | some m =>
          refine (memberBinding_recasts m id.span).bind fun b b' hb => ?_
          obtain ⟨rfl, hother⟩ := hb
          rw [hname m rfl] at hother
          exact .pure (.some hother)
      · exact .pure .none
    · exact .pure .none
  · exact .pure .none

theorem nameIn_recasts (id : Ident) (scopes : List Nat) :
    Recasts c (Means c id.name) (nameIn id scopes) (nameIn id scopes) := by
  induction scopes with
  | nil => exact .pure .none
  | cons scope rest ih =>
    refine .table fun t uses ht => ?_
    rw [show (t.recast c uses).declared? scope id.name = t.declared? scope id.name from rfl]
    cases hid : t.declared? scope id.name with
    | some symbol =>
      refine .pure (.some fun heq => ?_)
      obtain rfl := Binding.declared.inj heq
      exact ht.only scope id.name hid
    | none =>
      refine (objectMemberAt_recasts scope id).bind fun b? b?' hb => ?_
      cases hb with
      | some hother => exact .pure (.some hother)
      | none => exact ih

theorem resolveName_recasts (id : Ident) :
    Recasts c (Means c id.name) (resolveName id) (resolveName id) := by
  refine .table fun t uses _ => ?_
  rw [t.recast_enclosing, show (t.recast c uses).current = t.current from rfl]
  refine (nameIn_recasts id _).bind fun b? b?' hb => ?_
  cases hb with
  | some hother => exact .pure (.some hother)
  | none =>
    dsimp only
    split
    · exact .pure (.some fun heq => by cases heq)
    · refine (lookupExternal_recasts id.name).bind fun found found' hfound => ?_
      obtain ⟨rfl, houtside⟩ := hfound
      cases found with
      | found b => exact .pure (.some fun heq => absurd (congrArg Lookup.found heq) (houtside c.id))
      | unknowable => exact .pure .none
      | missing =>
        dsimp only
        split
        · exact .pure .none
        · refine suppressUnknown_blind.bind fun suppressed => ?_
          split
          · exact .pure .none
          · exact (error_recasts _ _ _ _).bind fun _ _ _ => .pure .none

theorem noteRead_blind (id : Nat) (use : Span) : Blind c (noteRead id use) := by
  refine (refer_blind id use).bind fun _ => .get fun s own _ => ?_
  rw [show (s.recast c own).outParams = s.outParams from rfl]
  split
  · exact .pure rfl
  · split
    · exact .pure rfl
    · exact (setOutState_blind id _).bind fun _ => (symbol?_recasts id).bind fun _ _ _ =>
        warning_recasts _ _ _ _

theorem readName_recasts (id : Ident) :
    Recasts c (c.Types (id.name = c.name)) (readName id) (readName id) := by
  refine (resolveName_recasts id).bind fun b? b?' hb => ?_
  cases hb with
  | none => exact .pure (.refl c _ _)
  | @some b hother =>
    have hvalue := valueType_recasts hother
    cases b with
    | declared symbol => exact (noteRead_blind symbol id.span).bind fun _ => hvalue
    | external s => exact hvalue
    | builtin => exact hvalue

theorem notAssignable_blind (id : Ident) (what : String) : Blind c (notAssignable id what) :=
  error_recasts _ _ _ _

theorem writeName_recasts (id : Ident) :
    Recasts c (c.Types (id.name = c.name)) (writeName id) (writeName id) := by
  refine (resolveName_recasts id).bind fun b? b?' hb => ?_
  cases hb with
  | none => exact .pure (.refl c _ _)
  | @some b hother =>
    have hvalue := valueType_recasts hother
    cases b with
    | declared symbol =>
      have rest : Recasts c (c.Types (id.name = c.name))
          (do markAssigned symbol; valueType (.declared symbol))
          (do markAssigned symbol; valueType (.declared symbol)) :=
        (markAssigned_blind symbol).bind fun _ => hvalue
      refine (refer_blind symbol id.span).bind fun _ => (symbol?_recasts symbol).bind fun s? s?' hs => ?_
      rcases hs with ⟨_ | s⟩ | s
      · exact rest
      -- whichever type the symbol has, its kind and its mode decide
      all_goals
        dsimp only
        split
        · exact (error_recasts _ _ _ _).bind fun _ _ _ => rest
        · split
          · exact (notAssignable_blind _ _).bind fun _ => rest
          · exact rest
    | external s =>
      dsimp only
      split
      · exact (notAssignable_blind _ _).bind fun _ => hvalue
      · exact hvalue
    | builtin => exact (notAssignable_blind _ _).bind fun _ => hvalue

/-- The member of a module has one type, or is the variable. -/
theorem moduleMember_recasts (module member : Ident) :
    Recasts c (Option.Rel (c.Types (member.name = c.name))) (moduleMember module member)
      (moduleMember module member) := by
  refine .table fun t uses ht => ?_
  rw [t.recast_lookupId? c uses]
  cases t.lookupId? module.name with
  | none => exact .pure .none
  | some id =>
    have hkind : ((t.recast c uses).symbol? id).any (·.kind = .module) =
        (t.symbol? id).any (·.kind = .module) := by
      rw [t.recast_symbol? c uses]
      split
      · cases t.symbol? id <;> rfl
      · rfl
    dsimp only
    rw [hkind, show (t.recast c uses).current = t.current from rfl]
    split
    · refine (refer_blind id module.span).bind fun _ => ?_
      refine (lookup_recasts (some module.name) member.name t.current).bind fun found found' hfound => ?_
      obtain ⟨rfl, hother⟩ := hfound
      cases found with
      | found b => exact (valueType_recasts (hother b rfl)).bind fun _ _ htype => .pure (.some htype)
      | unknowable => exact .pure (.some (.refl c _ _))
      | missing => exact (error_recasts _ _ _ _).bind fun _ _ _ => .pure (.some (.refl c _ _))
    · exact .pure .none

/-! ## Members -/

theorem objectMemberType_blind (typeName : String) (o : ResolvedObject) (member : Ident) :
    Blind c (objectMemberType typeName o member) := by
  refine (findMember_recasts o member.name).bind fun m? m?' hm => ?_
  obtain ⟨rfl, -⟩ := hm
  cases m? with
  | some m =>
    refine (memberBinding_recasts m member.span).bind fun b b' hb => ?_
    obtain ⟨rfl, -⟩ := hb
    cases b with
    | declared id => exact (refer_blind id member.span).bind fun _ => .pure rfl
    | external s => exact .pure rfl
    | builtin => exact .pure rfl
  | none =>
    refine (chainResolved_blind o).bind fun resolved => .read fun env => ?_
    split
    · exact (error_recasts _ _ _ _).bind fun _ _ _ => .pure rfl
    · exact .pure rfl

theorem memberType_recasts {carried : Bool} {base base' : Ty} (hbase : c.Types carried base base')
    (member : Ident) : Recasts c Eq (memberType base member) (memberType base' member) := by
  unfold memberType
  refine (normalize_recasts hbase).bind fun t t' ht => ?_
  subst ht
  extract_lets rest
  have plain (base : Ty) : Blind c (rest base) := by
    unfold rest
    split
    · exact .pure rfl
    · next module? name =>
      refine (findObject_blind module? name).bind fun o? => ?_
      cases o? with
      | some o => exact objectMemberType_blind name o member
      | none =>
        refine (resolveNamed_blind module? name).bind fun t? => ?_
        split <;> exact .pure rfl
    · exact .pure rfl
  split
  · next target => exact (normalize_blind target).bind plain
  · exact plain t

/-! ## Types of values -/

theorem binaryType_recasts (op : BinaryOp) {l r : Bool} {left left' right right' : Ty}
    (hleft : c.Types l left left') (hright : c.Types r right right') :
    Recasts c Eq (binaryType op left right) (binaryType op left' right') := by
  unfold binaryType
  split
  · exact .pure rfl
  · refine (normalize_recasts hleft).bind fun t t' ht => ?_
    subst ht
    refine (normalize_recasts hright).bind fun u u' hu => ?_
    subst hu
    exact .pure rfl

theorem elementType_recasts {carried : Bool} {base base' : Ty} (hbase : c.Types carried base base') :
    Recasts c Eq (elementType base) (elementType base') := by
  refine (normalize_recasts hbase).bind fun t t' ht => ?_
  subst ht
  split <;> exact .pure rfl

/-! ## Targets and arguments -/

/-- The expression is checked alike, and its value has one type or is that of the variable. -/
abbrev Carried (c : Recast) (e : Expr) (check : Check Ty) : Prop :=
  Recasts c (c.Types (e.carries c.name)) check check

theorem checkTarget_carried {target : Expr} {check : Check Ty} (h : Carried c target check) :
    Carried c target (checkTarget target check) := by
  unfold checkTarget
  split
  · exact (error_recasts _ _ _ _).bind fun _ _ _ => h.bind fun _ _ _ => .pure (.refl c _ _)
  · split
    · next id _ => exact writeName_recasts id
    · dsimp only
      split
      · next root _ =>
        refine .table fun t uses _ => ?_
        rw [t.recast_lookupId? c uses]
        split
        · exact (markAssigned_blind _).bind fun _ => h
        · exact h
      · exact h

/-- The first of some expressions is the first that is checked. -/
theorem head?_checkEach_any (p : Expr → Bool) (es : List Expr) :
    (checkEach es).head?.any (fun arg => p arg.1) = es.head?.any p := by
  cases es <;> rw [checkEach] <;> rfl

section Arguments

variable {arg : Argument} {args : List Argument}

theorem notAPlace_blind (index : Nat) (mode : ParamMode) (h : Carried c arg.1 arg.2) :
    Blind c (notAPlace index mode arg) :=
  (error_recasts _ _ _ _).bind fun _ _ _ => h.bind fun _ _ _ => .pure rfl

theorem checkArg_blind (index : Nat) (h : Carried c arg.1 arg.2) (param? : Option ParamType) :
    Blind c (checkArg index arg param?) := by
  cases param? with
  | none => exact h.bind fun _ _ _ => .pure rfl
  | some p =>
    unfold checkArg
    dsimp only
    split
    · split
      · exact (checkTarget_carried h).bind fun _ _ _ => .pure rfl
      · exact notAPlace_blind index p.mode h
    · refine h.bind fun type type' htype => ?_
      refine (assignable_recasts (.refl c false p.type) htype).bind fun fits fits' hfits => ?_
      subst hfits
      split
      · exact .pure rfl
      · exact error_recasts _ _ _ _

theorem checkArgList_blind (index : Nat) (h : ∀ arg ∈ args, Carried c arg.1 arg.2)
    (params : List ParamType) : Blind c (checkArgList index args params) := by
  induction args generalizing index params with
  | nil => exact .pure rfl
  | cons arg args ih =>
    exact (checkArg_blind index (h arg (.head _)) _).bind fun _ =>
      ih (index + 1) (fun a ha => h a (.tail _ ha)) _

theorem checkArgs_blind (h : ∀ arg ∈ args, Carried c arg.1 arg.2) (signature? : Option Signature)
    (span : Span) : Blind c (checkArgs args signature? span) := by
  cases signature? with
  | none => exact checkArgList_blind 0 h []
  | some s =>
    unfold checkArgs
    dsimp only
    split
    · exact (error_recasts _ _ _ _).bind fun _ _ _ => checkArgList_blind 0 h _
    · exact checkArgList_blind 0 h _

theorem callResult_blind (callee : Ty) (h : ∀ arg ∈ args, Carried c arg.1 arg.2) (span : Span) :
    Blind c (callResult callee args span) := by
  unfold callResult
  split
  · exact (checkArgs_blind h _ span).bind fun _ => .pure rfl
  · exact (checkArgs_blind h none span).bind fun _ => .pure rfl

theorem checkFirstArg_carried (name : String) (h : Carried c arg.1 arg.2) :
    Carried c arg.1 (checkFirstArg name arg) := by
  unfold checkFirstArg
  split
  · split
    · exact checkTarget_carried h
    · exact (notAPlace_blind 0 .inOut h).bind fun _ => .pure (.refl c _ _)
  · exact h

/-- Running the checks of some values one after the other. -/
theorem forM_arguments_blind (h : ∀ arg ∈ args, Carried c arg.1 arg.2) :
    Blind c (args.forM fun a => do let _ ← a.2; pure ()) :=
  forM_blind fun arg harg => (h arg harg).bind fun _ _ _ => .pure rfl

/-- Few built-in procedures give the type of their first argument back. -/
theorem builtinResult_types (name : String) {carried : Bool} {first first' : Ty}
    (h : c.Types carried first first') :
    c.Types (givesFirst name && carried) (builtinResult name first)
      (builtinResult name first') := by
  unfold builtinResult
  split
  · exact .refl c _ _
  · split
    · exact .refl c _ _
    · split
      · exact .refl c _ _
      · split
        · exact .refl c _ _
        · split
          · exact .refl c _ _
          · split
            · next hname => exact h.mono fun hcarried => by rw [givesFirst, hname, hcarried]; rfl
            · exact .refl c _ _

theorem builtinCall_recasts (name : String) (h : ∀ arg ∈ args, Carried c arg.1 arg.2) :
    Recasts c (c.Types (givesFirst name && args.head?.any (·.1.carries c.name)))
      (builtinCall name args) (builtinCall name args) := by
  cases args with
  | nil => exact .pure (.refl c _ _)
  | cons arg rest =>
    exact (checkFirstArg_carried name (h arg (.head _))).bind fun _ _ hfirst =>
      (forM_arguments_blind fun a ha => h a (.tail _ ha)).bind fun _ =>
        .pure (builtinResult_types name hfirst)

theorem builtinCallee?_recasts (callee : Expr) :
    Recasts c (fun a b => a = b ∧ ∀ name, a = some name → ∃ id, callee = .name id ∧ id.name = name)
      (builtinCallee? callee) (builtinCallee? callee) := by
  unfold builtinCallee?
  split
  · next id =>
    refine .table fun t uses _ => ?_
    rw [t.recast_lookupId? c uses]
    split
    · refine .pure ⟨rfl, fun name hname => ?_⟩
      obtain rfl := Option.some.inj hname
      exact ⟨id, rfl, rfl⟩
    · exact .pure ⟨rfl, fun _ h => by cases h⟩
  · exact .pure ⟨rfl, fun _ h => by cases h⟩

theorem inheritedCall_blind (method : Ident) (h : ∀ arg ∈ args, Carried c arg.1 arg.2) :
    Blind c (inheritedCall method args) := by
  refine .read fun env => ?_
  split
  · exact callResult_blind _ h _
  · next o _ =>
    refine (baseMethod_blind o method.name).bind fun base? => ?_
    cases base? with
    | some base => exact callResult_blind _ h _
    | none => exact (error_recasts _ _ _ _).bind fun _ _ _ => callResult_blind _ h _

/-- The elements of a set, or the indices of an access. -/
theorem firstType_recasts (h : ∀ arg ∈ args, Carried c arg.1 arg.2) :
    Recasts c (c.Types (args.head?.any (·.1.carries c.name))) (firstType args) (firstType args) := by
  cases args with
  | nil => exact .pure (.refl c _ _)
  | cons arg rest =>
    exact (h arg (.head _)).bind fun _ _ hfirst =>
      (forM_arguments_blind fun a ha => h a (.tail _ ha)).bind fun _ => .pure hfirst

theorem fieldAccess_carried {base : Expr} {check : Check Ty} (h : Carried c base check)
    (member : Ident) (span : Span) :
    Carried c (.field base member span) (fieldAccess base check member) := by
  have ofValue : Blind c (do memberType (← check) member) :=
    h.bind fun _ _ htype => memberType_recasts htype member
  unfold fieldAccess
  extract_lets rest
  split
  · next module =>
    refine (moduleMember_recasts module member).bind fun declared? declared?' hdeclared => ?_
    cases hdeclared with
    | some htype => exact .pure htype
    | none => exact ofValue.mono fun _ _ heq => .inl heq
  · exact ofValue.mono fun _ _ heq => .inl heq

theorem methodCall_blind {target : Expr} {check : Check Ty} (h : Carried c target check)
    (method : Ident) (hargs : ∀ arg ∈ args, Carried c arg.1 arg.2) (span : Span) :
    Blind c (methodCall check method args span) := by
  refine h.bind fun type type' htype => (memberType_recasts htype method).bind fun callee callee' hcallee => ?_
  subst hcallee
  exact callResult_blind callee hargs span

theorem checkCall_carried {callee : Expr} (hcallee : callee.carries c.name = false) {check : Check Ty}
    (h : Carried c callee check) {es : List Expr}
    (hargs : ∀ arg ∈ checkEach es, Carried c arg.1 arg.2) (span : Span) :
    Carried c (.call callee es span) (checkCall callee check (checkEach es) span) := by
  refine (builtinCallee?_recasts callee).bind fun name? name?' hname => ?_
  obtain ⟨rfl, hbuiltin⟩ := hname
  cases name? with
  | some name =>
    obtain ⟨id, rfl, rfl⟩ := hbuiltin name rfl
    refine (builtinCall_recasts id.name hargs).mono fun _ _ htype => htype.mono fun hcarried => ?_
    rw [head?_checkEach_any] at hcarried
    cases es with
    | nil => exact absurd hcarried (by simp)
    | cons e es => exact hcarried
  | none =>
    refine h.bind fun type type' htype => ?_
    rw [hcallee] at htype
    obtain rfl := htype.eq_of_not_carried
    exact (callResult_blind type hargs span).mono fun _ _ heq => .inl heq

end Arguments

/-! ## Expressions -/

mutual

/-- An expression is checked alike, if nothing in it takes the type of the variable as declared. -/
theorem checkExpr_carried : ∀ e : Expr, c.Spares (.expr e) → Carried c e (checkExpr e)
  | .name id, _ => by
    rw [checkExpr]
    exact readName_recasts id
  | .integer _ _, _ | .real _ _, _ | .string _ _, _ | .char _ _, _ | .bool _ _, _ | .nil _ _, _
  | .missing _, _ => by
    rw [checkExpr]
    exact .pure (.refl c _ _)
  | .selfRef _, _ => by
    rw [checkExpr]
    exact .read fun env => .pure (.refl c _ _)
  | .unary op operand _, h => by
    rw [checkExpr]
    refine (checkExpr_carried operand (h.child (.head _))).bind fun type type' htype => .pure ?_
    rw [Expr.carries]
    split
    · exact .refl c _ _
    · next hop => exact htype.mono fun hcarried => by simp [hop, hcarried]
  | .binary op left right _, h => by
    rw [checkExpr]
    refine (checkExpr_carried left (h.child (.head _))).bind fun l l' hl => ?_
    refine (checkExpr_carried right (h.child (.tail _ (.head _)))).bind fun r r' hr => ?_
    exact (binaryType_recasts op hl hr).mono fun _ _ heq => .inl heq
  | .call callee args span, h => by
    rw [checkExpr]
    exact checkCall_carried h.self (checkExpr_carried callee (h.child (.head _)))
      (checkEach_carried args (h.mapped (List.subset_cons_self _ _))) span
  | .index base indices _, h => by
    rw [checkExpr]
    refine (checkExpr_carried base (h.child (.head _))).bind fun type type' htype => ?_
    refine (firstType_recasts (checkEach_carried indices
      (h.mapped (List.subset_cons_self _ _)))).bind fun _ _ _ => ?_
    exact (elementType_recasts htype).mono fun _ _ heq => .inl heq
  | .field base member span, h => by
    rw [checkExpr]
    exact fieldAccess_carried (checkExpr_carried base (h.child (.head _))) member span
  | .deref base _, h => by
    rw [checkExpr]
    refine (checkExpr_carried base (h.child (.head _))).bind fun type type' htype => ?_
    have hbase : base.carries c.name = false := h.self
    rw [hbase] at htype
    obtain rfl := htype.eq_of_not_carried
    split <;> exact .pure (.refl c _ _)
  | .set elements _, h => by
    rw [checkExpr]
    refine (firstType_recasts (checkEach_carried elements
      (h.mapped (List.Subset.refl _)))).bind fun type type' htype => .pure ?_
    have helements : elements.head?.any (·.carries c.name) = false := h.self
    rw [head?_checkEach_any, helements] at htype
    obtain rfl := htype.eq_of_not_carried
    exact .refl c _ _
  | .range low high _, h => by
    rw [checkExpr]
    exact (checkExpr_carried low (h.child (.head _))).bind fun type type' htype =>
      (checkExpr_carried high (h.child (.tail _ (.head _)))).bind fun _ _ _ => .pure htype
  | .ask call, h => by
    rw [checkExpr]
    exact (checkMethodCall_blind call (h.child (.head _))).mono fun _ _ heq => .inl heq
  | .inherited method args _, h => by
    rw [checkExpr]
    exact (inheritedCall_blind method (checkEach_carried args
      (h.mapped (List.subset_cons_self _ _)))).mono fun _ _ heq => .inl heq

theorem checkMethodCall_blind : ∀ call : MethodCall, c.Spares (.methodCall call) →
    Blind c (checkMethodCall call)
  | ⟨target, method, args, span⟩, h => by
    rw [checkMethodCall]
    exact methodCall_blind (checkExpr_carried target (h.child (.head _))) method
      (checkEach_carried args (h.mapped fun _ hn => .tail _ (.tail _ hn))) span

theorem checkEach_carried : ∀ es : List Expr, (∀ e ∈ es, c.Spares (.expr e)) →
    ∀ arg ∈ checkEach es, Carried c arg.1 arg.2
  | [], _ => by
    rw [checkEach]
    exact List.forall_mem_nil _
  | e :: es, h => by
    rw [checkEach]
    intro arg harg
    rcases List.mem_cons.1 harg with rfl | harg
    · exact checkExpr_carried e (h e (.head _))
    · exact checkEach_carried es (fun e' he' => h e' (.tail _ he')) arg harg

end

theorem checkValue_blind {e : Expr} (h : c.Spares (.expr e)) : Blind c (checkValue e) :=
  (checkExpr_carried e h).bind fun _ _ _ => .pure rfl

theorem checkPlace_carried {target : Expr} (h : c.Spares (.expr target)) :
    Carried c target (checkPlace target) := checkTarget_carried (checkExpr_carried target h)

end Check

end SimFront
