import SimFront.Proofs.Check.AlikeLookup
import SimFront.Tree.Gain

/-!
# Expressions with a graft

The graft spares a tree that mentions none of the names that it hides (`Graft.Spares`).  One
lemma for each step of the checks of names and expressions, in the order of the steps: on a
tree that is spared it does the same in both runs.
-/

namespace SimFront

/-- The tree mentions no name that the graft hides where it stands, and no type of such a
name anywhere. -/
structure Graft.Spares (g : Graft) (n : Node) : Prop where
  ident : ∀ i, .ident i ∈ n.preorder → g.Plain i.name
  type : ∀ m ∈ n.preorder, ∀ name, m.typeName? = some name → name ∉ g.names

namespace Graft.Spares

variable {g : Graft} {n c : Node}

theorem child (h : g.Spares n) (hc : c ∈ n.children) : g.Spares c :=
  ⟨fun i hi => h.ident i (Node.mem_preorder_of_child hc hi), fun m hm =>
    h.type m (Node.mem_preorder_of_child hc hm)⟩

/-- What stands in a list of trees below a node. -/
theorem mapped {α : Type} {f : α → Node} {as : List α} (h : g.Spares n)
    (hsub : as.map f ⊆ n.children) : ∀ a ∈ as, g.Spares (f a) :=
  fun _ ha => h.child (hsub (List.mem_map_of_mem ha))

theorem name {i : Ident} (h : g.Spares (.ident i)) : g.Plain i.name :=
  h.ident i (Node.mem_preorder_self _)

theorem typeName (h : g.Spares n) {name : String} (hname : n.typeName? = some name) :
    name ∉ g.names := h.type n n.mem_preorder_self name hname

theorem rootName {root : Ident} : ∀ e : Expr, g.Spares (.expr e) → e.rootName? = some root →
    g.Plain root.name
  | .name id, h, hroot => by
    obtain rfl := Option.some.inj hroot
    exact (h.child (.head _)).name
  | .field base _ _, h, hroot | .index base _ _, h, hroot | .deref base _, h, hroot =>
    rootName base (h.child (.head _)) hroot

end Graft.Spares

namespace Check

variable {α : Type} {head : ModuleHead} {g : Graft}

/-! ## Names -/

theorem objectMemberAt_alike (scope : Nat) (id : Ident) :
    Alike head g (Option.Rel (Binds g)) (objectMemberAt scope id)
      (objectMemberAt (g.scope scope) id) := by
  refine .table fun t v h => ?_
  have hkind := h.kind scope
  unfold SymbolTable.kind? at hkind
  cases ht : t.scope? scope with
  | none =>
    rw [ht] at hkind
    rw [Option.map_eq_none_iff.1 hkind]
    exact .pure .none
  | some sc =>
    rw [ht] at hkind
    obtain ⟨sc', hv, hsame⟩ := Option.map_eq_some_iff.1 hkind
    rw [hv]
    dsimp only
    rw [hsame]
    split
    · refine .read fun env _ hfits => ?_
      have hfind : (g.moveEnv env).objects.find? (·.scope = g.scope scope) =
          (env.objects.find? (·.scope = scope)).map g.moveContext := by
        unfold Graft.moveEnv
        rw [List.find?_map]
        congr 2
        funext c
        exact decide_eq_decide.2 Graft.scope_inj
      rw [hfind]
      cases hc : env.objects.find? (·.scope = scope) with
      | none => exact .pure .none
      | some c =>
        dsimp only [Option.map_some, Option.bind_some, Graft.moveContext]
        cases ho : c.object? with
        | none => exact .pure .none
        | some o =>
          refine (findMember_agree (hfits.object c (List.mem_of_find?_eq_some hc) o ho) id.name).bind
            fun m? hm? => ?_
          cases m? with
          | none => exact .pure .none
          | some m => exact (memberBinding_alike (hm? m rfl) id.span).bind fun _ _ hb => .pure (.some hb)
    · exact .pure .none

theorem nameIn_alike (id : Ident) {scopes : List Nat}
    (hscopes : ∀ j ∈ scopes, ¬ g.Adds (g.scope j) id.name) :
    Alike head g (Option.Rel (Binds g)) (nameIn id scopes) (nameIn id (scopes.map g.scope)) := by
  induction scopes with
  | nil => exact .pure .none
  | cons scope rest ih =>
    refine .table fun t v h => ?_
    rw [h.declared scope id.name (hscopes scope List.mem_cons_self)]
    cases t.declared? scope id.name with
    | some symbol => exact .pure (.some (.declared symbol))
    | none =>
      refine (objectMemberAt_alike scope id).bind fun b? b?' hb => ?_
      cases hb with
      | none => exact ih fun j hj => hscopes j (List.mem_cons_of_mem scope hj)
      | some hb => exact .pure (.some hb)

theorem resolveName_alike {id : Ident} (hid : g.Plain id.name) :
    Alike head g (Option.Rel (Binds g)) (resolveName id) (resolveName id) := by
  refine .table fun t v h => ?_
  rw [h.current, h.enclosing]
  refine (nameIn_alike id (h.not_adds_current hid)).bind fun b? b?' hb => ?_
  cases hb with
  | some hb => exact .pure (.some hb)
  | none =>
    dsimp only
    split
    · exact .pure (.some .builtin)
    · refine (lookupExternal_alike id.name).bind fun found found' hfound => ?_
      cases hfound with
      | declared id => exact .pure (.some (.declared id))
      | external s havoids => exact .pure (.some (.external s havoids))
      | unknowable => exact .pure .none
      | missing =>
        dsimp only
        split
        · exact .pure .none
        · refine suppressUnknown_agree.bind fun suppressed _ => ?_
          split
          · exact .pure .none
          · exact (error_follow _ _ _ _).bind (.pure .none)

theorem readName_agree {id : Ident} (hid : g.Plain id.name) :
    Agree head g (Ty.Avoids g.names) (readName id) := by
  refine (resolveName_alike hid).bind fun b? b?' hb => ?_
  cases hb with
  | none => exact .pure ⟨rfl, trivial⟩
  | some hb =>
    cases hb with
    | declared symbol => exact (noteRead_follow symbol id.span).bind (valueType_alike (.declared symbol))
    | external s havoids => exact valueType_alike (.external s havoids)
    | builtin => exact valueType_alike .builtin

theorem notAssignable_follow (id : Ident) (what what' : String) :
    Follow head g (notAssignable id what) (notAssignable id what') := error_follow _ _ _ _

theorem writeName_agree {id : Ident} (hid : g.Plain id.name) :
    Agree head g (Ty.Avoids g.names) (writeName id) := by
  refine (resolveName_alike hid).bind fun b? b?' hb => ?_
  cases hb with
  | none => exact .pure ⟨rfl, trivial⟩
  | some hb =>
    cases hb with
    | declared symbol =>
      have rest : Alike head g (fun t t' => t' = t ∧ t.Avoids g.names)
          (do markAssigned symbol; valueType (.declared symbol))
          (do markAssigned (g.symbol symbol); valueType (.declared (g.symbol symbol))) :=
        (markAssigned_follow symbol).bind (valueType_alike (.declared symbol))
      refine (refer_follow symbol id.span).bind ((symbol?_alike symbol).bind fun s? s?' hs => ?_)
      cases hs with
      | none => exact rest
      | some s scope havoids =>
        dsimp only
        split
        · exact (error_follow _ _ _ _).bind rest
        · split
          · exact (notAssignable_follow _ _ _).bind rest
          · exact rest
    | external s havoids =>
      dsimp only
      split
      · exact (notAssignable_follow _ _ _).bind (valueType_alike (.external s havoids))
      · exact valueType_alike (.external s havoids)
    | builtin => exact (notAssignable_follow _ _ _).bind (valueType_alike .builtin)

theorem moduleMember_agree {module : Ident} (hmodule : g.Plain module.name) (member : Ident) :
    Agree head g (fun t? => ∀ t, t? = some t → t.Avoids g.names) (moduleMember module member) := by
  refine .table fun t v h => ?_
  rw [h.lookupId? hmodule]
  cases t.lookupId? module.name with
  | none => exact Agree.pure fun _ h => nomatch h
  | some id =>
    have hkind : (v.symbol? (g.symbol id)).any (·.kind = .module) =
        (t.symbol? id).any (·.kind = .module) := by
      rw [h.symbol]
      cases t.symbol? id <;> rfl
    dsimp only [Option.map_some]
    rw [hkind, h.current]
    split
    · refine (refer_follow id module.span).bind ?_
      refine (lookup_alike (by intro h; cases h) t.current).bind fun found found' hfound => ?_
      have value {b b' : Binding} (hb : Binds g b b') :
          Alike head g (fun t? t?' => t?' = t? ∧ ∀ t, t? = some t → t.Avoids g.names)
            (do pure (some (← valueType b))) (do pure (some (← valueType b'))) := by
        refine (valueType_alike hb).bind fun type type' htype => ?_
        obtain ⟨rfl, havoids⟩ := htype
        refine .pure ⟨rfl, fun t ht => ?_⟩
        obtain rfl := Option.some.inj ht
        exact havoids
      have unknown : ∀ t, some Ty.unknown = some t → t.Avoids g.names := by
        intro t ht
        obtain rfl := Option.some.inj ht
        trivial
      cases hfound with
      | declared id => exact value (.declared id)
      | external s havoids => exact value (.external s havoids)
      | unknowable => exact Agree.pure unknown
      | missing => exact (error_follow _ _ _ _).bind (Agree.pure unknown)
    · exact Agree.pure fun _ h => nomatch h

theorem fieldType_avoids {names : List String} {fields : Members Ty}
    (h : (Ty.record fields).Avoids names) (member : Ident) : (fieldType fields member).Avoids names := by
  rw [Ty.Avoids] at h
  unfold fieldType
  cases hfind : Members.find? fields member.name with
  | none => trivial
  | some type => exact fieldsAvoid_iff.1 h _ (Members.mem_of_find? hfind)

theorem objectMemberType_agree (typeName : String) {o : ResolvedObject} (ho : g.Fits o)
    (member : Ident) : Agree head g (Ty.Avoids g.names) (objectMemberType typeName o member) := by
  refine (findMember_agree ho member.name).bind fun m? hm? => ?_
  cases m? with
  | some m =>
    have hm := hm? m rfl
    refine (memberBinding_alike hm member.span).bind fun b b' hb => ?_
    cases hb with
    | declared id => exact (refer_follow id member.span).bind (Agree.pure hm.type)
    | external s havoids => exact Agree.pure hm.type
    | builtin => exact Agree.pure hm.type
  | none =>
    refine (chainResolved_agree ho).bind fun resolved _ => .readSame (fun _ => rfl) fun env _ _ => ?_
    dsimp only
    split
    · exact (error_follow _ _ _ _).bind (Agree.pure trivial)
    · exact Agree.pure trivial

theorem memberType_agree {base : Ty} (hbase : base.Avoids g.names) (member : Ident) :
    Agree head g (Ty.Avoids g.names) (memberType base member) := by
  unfold memberType
  refine (normalize_agree hbase).bind fun t ht => ?_
  extract_lets rest
  have plain {base : Ty} (hbase : base.Avoids g.names) :
      Agree head g (Ty.Avoids g.names) (rest base) := by
    unfold rest
    split
    · next fields => exact Agree.pure (fieldType_avoids hbase member)
    · next module? name =>
      refine (findObject_agree (Ty.avoids_named hbase)).bind fun o? ho? => ?_
      cases o? with
      | some o => exact objectMemberType_agree name (ho? o rfl) member
      | none =>
        refine (resolveNamed_agree (Ty.avoids_named hbase)).bind fun t? ht? => ?_
        split
        · next fields => exact Agree.pure (fieldType_avoids (ht? _ rfl) member)
        · exact Agree.pure trivial
    · exact Agree.pure trivial
  split
  · next target =>
    rw [Ty.Avoids] at ht
    exact (normalize_agree ht).bind fun _ ht => plain ht
  · exact (Agree.pure ht).bind fun _ ht => plain ht

/-! ## Expressions -/

theorem arithmeticType_avoids {names : List String} (op : BinaryOp) {left : Ty}
    (hleft : left.Avoids names) (right : Ty) : (arithmeticType op left right).Avoids names := by
  unfold arithmeticType
  split
  · trivial
  · trivial
  · split
    · trivial
    · split
      · trivial
      · split
        · trivial
        · split
          · trivial
          · split
            · exact hleft
            · trivial

theorem binaryType_agree (op : BinaryOp) {left right : Ty} (hleft : left.Avoids g.names)
    (hright : right.Avoids g.names) : Agree head g (Ty.Avoids g.names) (binaryType op left right) := by
  unfold binaryType
  split
  · exact Agree.pure trivial
  · exact (normalize_agree hleft).bind fun left hleft => (normalize_agree hright).bind fun right _ =>
      Agree.pure (arithmeticType_avoids op hleft right)

theorem elementType_agree {base : Ty} (hbase : base.Avoids g.names) :
    Agree head g (Ty.Avoids g.names) (elementType base) := by
  refine (normalize_agree hbase).bind fun t ht => ?_
  split
  · rw [Ty.Avoids] at ht
    exact Agree.pure ht
  · exact Agree.pure trivial
  · exact Agree.pure trivial

theorem checkTarget_agree {target : Expr} (htarget : g.Spares (.expr target)) {check : Check Ty}
    (h : Agree head g (Ty.Avoids g.names) check) :
    Agree head g (Ty.Avoids g.names) (checkTarget target check) := by
  unfold checkTarget
  split
  · exact (error_follow _ _ _ _).bind (h.bind fun _ _ => Agree.pure trivial)
  · split
    · exact writeName_agree (htarget.child (.head _)).name
    · dsimp only
      cases hroot : target.rootName? with
      | none => exact h
      | some root =>
        refine .table fun t v htable => ?_
        rw [htable.lookupId? (Graft.Spares.rootName target htarget hroot)]
        cases t.lookupId? root.name with
        | none => exact h
        | some id => exact (markAssigned_follow id).bind h

/-- An argument that the graft spares, and whose check does the same in both runs. -/
structure SparesArg (head : ModuleHead) (g : Graft) (arg : Argument) : Prop where
  tree : g.Spares (.expr arg.1)
  check : Agree head g (Ty.Avoids g.names) arg.2

section Arguments

variable {arg : Argument} {args : List Argument}

theorem notAPlace_follow (index : Nat) (mode : ParamMode) (h : SparesArg head g arg) :
    Follow head g (notAPlace index mode arg) (notAPlace index mode arg) :=
  (error_follow _ _ _ _).bind (h.check.bind fun _ _ => .pure trivial)

theorem checkArg_follow (index : Nat) (h : SparesArg head g arg) {param? : Option ParamType}
    (hparam : ∀ p, param? = some p → p.type.Avoids g.names) :
    Follow head g (checkArg index arg param?) (checkArg index arg param?) := by
  cases param? with
  | none => exact h.check.bind fun _ _ => .pure trivial
  | some p =>
    unfold checkArg
    dsimp only
    split
    · split
      · exact (checkTarget_agree h.tree h.check).bind fun _ _ => .pure trivial
      · exact notAPlace_follow index p.mode h
    · refine h.check.bind fun type htype => (assignable_agree (hparam p rfl) htype).bind fun fits _ => ?_
      split
      · exact .pure trivial
      · exact error_follow _ _ _ _

theorem checkArgList_follow (index : Nat) (h : ∀ arg ∈ args, SparesArg head g arg)
    {params : List ParamType} (hparams : ∀ p ∈ params, p.type.Avoids g.names) :
    Follow head g (checkArgList index args params) (checkArgList index args params) := by
  induction args generalizing index params with
  | nil => exact .pure trivial
  | cons arg args ih =>
    exact (checkArg_follow index (h arg List.mem_cons_self) fun p hp =>
      hparams p (List.mem_of_head? hp)).bind (ih (index + 1)
        (fun a ha => h a (List.mem_cons_of_mem arg ha)) fun p hp => hparams p (List.mem_of_mem_tail hp))

theorem checkArgs_follow (h : ∀ arg ∈ args, SparesArg head g arg) {signature? : Option Signature}
    (hsignature : ∀ s, signature? = some s → s.Avoids g.names) (span : Span) :
    Follow head g (checkArgs args signature? span) (checkArgs args signature? span) := by
  cases signature? with
  | none => exact checkArgList_follow 0 h (List.forall_mem_nil _)
  | some s =>
    unfold checkArgs
    dsimp only
    split
    · exact (error_follow _ _ _ _).bind (checkArgList_follow 0 h (hsignature s rfl).param)
    · exact checkArgList_follow 0 h (hsignature s rfl).param

theorem callResult_agree {callee : Ty} (hcallee : callee.Avoids g.names)
    (h : ∀ arg ∈ args, SparesArg head g arg) (span : Span) :
    Agree head g (Ty.Avoids g.names) (callResult callee args span) := by
  unfold callResult
  split
  · next s =>
    rw [Ty.Avoids] at hcallee
    refine (checkArgs_follow h (fun s' hs' => ?_) span).bind (Agree.pure ?_)
    · obtain rfl := Option.some.inj hs'
      exact hcallee
    · cases hresult : s.result with
      | none => trivial
      | some t => exact hcallee.result hresult
  · exact (checkArgs_follow h (by intro s hs; cases hs) span).bind (Agree.pure trivial)

theorem checkFirstArg_agree (name : String) (h : SparesArg head g arg) :
    Agree head g (Ty.Avoids g.names) (checkFirstArg name arg) := by
  unfold checkFirstArg
  split
  · split
    · exact checkTarget_agree h.tree h.check
    · exact (notAPlace_follow 0 .inOut h).bind (Agree.pure trivial)
  · exact h.check

/-- Running the checks of some values one after the other. -/
theorem forM_arguments_follow (h : ∀ arg ∈ args, SparesArg head g arg) :
    Follow head g (args.forM fun a => do let _ ← a.2; pure ())
      (args.forM fun a => do let _ ← a.2; pure ()) :=
  forM_follow fun arg harg => (h arg harg).check.bind fun _ _ => .pure trivial

theorem builtinResult_avoids {names : List String} (name : String) {first : Ty}
    (h : first.Avoids names) : (builtinResult name first).Avoids names := by
  unfold builtinResult
  split
  · trivial
  · split
    · trivial
    · split
      · trivial
      · split
        · trivial
        · split
          · trivial
          · split
            · exact h
            · trivial

theorem builtinCall_agree (name : String) (h : ∀ arg ∈ args, SparesArg head g arg) :
    Agree head g (Ty.Avoids g.names) (builtinCall name args) := by
  cases args with
  | nil => exact Agree.pure (builtinResult_avoids name trivial)
  | cons arg rest =>
    exact (checkFirstArg_agree name (h arg List.mem_cons_self)).bind fun first hfirst =>
      (forM_arguments_follow fun a ha => h a (List.mem_cons_of_mem arg ha)).bind
        (Agree.pure (builtinResult_avoids name hfirst))

theorem builtinCallee?_agree {callee : Expr} (hcallee : g.Spares (.expr callee)) :
    Agree head g (fun _ => True) (builtinCallee? callee) := by
  unfold builtinCallee?
  split
  · next id =>
    refine .table fun t v h => ?_
    rw [h.lookupId? (hcallee.child (.head _)).name, Option.isNone_map]
    split
    · exact Agree.pure trivial
    · exact Agree.pure trivial
  · exact Agree.pure trivial

theorem checkCall_agree {callee : Expr} (hcallee : g.Spares (.expr callee)) {check : Check Ty}
    (h : Agree head g (Ty.Avoids g.names) check) (hargs : ∀ arg ∈ args, SparesArg head g arg)
    (span : Span) : Agree head g (Ty.Avoids g.names) (checkCall callee check args span) := by
  refine (builtinCallee?_agree hcallee).bind fun name? _ => ?_
  cases name? with
  | some name => exact builtinCall_agree name hargs
  | none => exact h.bind fun type htype => callResult_agree htype hargs span

theorem methodCall_agree {check : Check Ty} (h : Agree head g (Ty.Avoids g.names) check)
    (method : Ident) (hargs : ∀ arg ∈ args, SparesArg head g arg) (span : Span) :
    Agree head g (Ty.Avoids g.names) (methodCall check method args span) :=
  h.bind fun _ htype => (memberType_agree htype method).bind fun _ hcallee =>
    callResult_agree hcallee hargs span

/-- The innermost object around is the same in both runs. -/
theorem head?_moveEnv (env : Env) :
    (g.moveEnv env).objects.head? = env.objects.head?.map g.moveContext := List.head?_map

theorem inheritedCall_agree (method : Ident) (hargs : ∀ arg ∈ args, SparesArg head g arg) :
    Agree head g (Ty.Avoids g.names) (inheritedCall method args) := by
  refine .readSame (fun env => ?_) fun env _ hfits => ?_
  · rw [head?_moveEnv]
    cases env.objects.head? with
    | none => rfl
    | some c =>
      cases hc : c.chainResolved <;> simp [Graft.moveContext, Option.filter, hc]
  · have unknown : Ty.unknown.Avoids g.names := trivial
    split
    · exact callResult_agree unknown hargs _
    · next o ho =>
      obtain ⟨c, hc, hobject⟩ := Option.bind_eq_some_iff.1 ho
      have hmem := List.mem_of_head? (Option.eq_some_of_filter_eq_some hc)
      refine (baseMethod_agree (hfits.object c hmem o hobject) method.name).bind fun base? hbase? => ?_
      cases base? with
      | some base => exact callResult_agree (hbase? base rfl).type hargs _
      | none => exact (error_follow _ _ _ _).bind (callResult_agree unknown hargs _)

theorem selfType_agree : Agree head g (Ty.Avoids g.names) selfType := by
  refine .readSame (fun env => ?_) fun env _ hfits => Agree.pure ?_
  · rw [head?_moveEnv]
    cases env.objects.head? <;> rfl
  · split
    · next o ho =>
      obtain ⟨c, hc, hobject⟩ := Option.bind_eq_some_iff.1 ho
      exact Ty.named_avoids (hfits.object c (List.mem_of_head? hc) o hobject).name
    · trivial

theorem fieldAccess_agree {base : Expr} (hbase : g.Spares (.expr base)) {check : Check Ty}
    (h : Agree head g (Ty.Avoids g.names) check) (member : Ident) :
    Agree head g (Ty.Avoids g.names) (fieldAccess base check member) := by
  unfold fieldAccess
  extract_lets rest
  have accessed {declared? : Option Ty} (hdeclared : ∀ t, declared? = some t → t.Avoids g.names) :
      Agree head g (Ty.Avoids g.names) (rest declared?) := by
    cases declared? with
    | some type => exact Agree.pure (hdeclared type rfl)
    | none => exact h.bind fun type htype => memberType_agree htype member
  split
  · exact (moduleMember_agree (hbase.child (.head _)).name member).bind fun _ h => accessed h
  · exact (Agree.pure (P := fun t? => ∀ t, t? = some t → t.Avoids g.names) (fun _ h => nomatch h)).bind
      fun _ h => accessed h

theorem firstType_agree (h : ∀ arg ∈ args, SparesArg head g arg) :
    Agree head g (Ty.Avoids g.names) (firstType args) := by
  cases args with
  | nil => exact Agree.pure trivial
  | cons arg rest =>
    exact (h arg List.mem_cons_self).check.bind fun first hfirst =>
      (forM_arguments_follow fun a ha => h a (List.mem_cons_of_mem arg ha)).bind (Agree.pure hfirst)

end Arguments

mutual

theorem checkExpr_agree : ∀ e : Expr, g.Spares (.expr e) →
    Agree head g (Ty.Avoids g.names) (checkExpr e)
  | .name id, h => by
    rw [checkExpr]
    exact readName_agree (h.child (.head _)).name
  | .integer _ _, _ | .real _ _, _ | .string _ _, _ | .char _ _, _ | .bool _ _, _ | .nil _ _, _
  | .missing _, _ => by
    rw [checkExpr]
    exact Agree.pure trivial
  | .selfRef _, _ => by
    rw [checkExpr]
    exact selfType_agree
  | .unary op operand _, h => by
    rw [checkExpr]
    refine (checkExpr_agree operand (h.child (.head _))).bind fun type htype => Agree.pure ?_
    split
    · trivial
    · exact htype
  | .binary op left right _, h => by
    rw [checkExpr]
    exact (checkExpr_agree left (h.child (.head _))).bind fun l hl =>
      (checkExpr_agree right (h.child (.tail _ (.head _)))).bind fun r hr => binaryType_agree op hl hr
  | .call callee args span, h => by
    rw [checkExpr]
    have hcallee := h.child (.head _)
    exact checkCall_agree hcallee (checkExpr_agree callee hcallee)
      (checkEach_agree args (h.mapped (List.subset_cons_self _ _))) span
  | .index base indices _, h => by
    rw [checkExpr]
    exact (checkExpr_agree base (h.child (.head _))).bind fun type htype =>
      (firstType_agree (checkEach_agree indices (h.mapped (List.subset_cons_self _ _)))).bind
        fun _ _ => elementType_agree htype
  | .field base member _, h => by
    rw [checkExpr]
    have hbase := h.child (.head _)
    exact fieldAccess_agree hbase (checkExpr_agree base hbase) member
  | .deref base _, h => by
    rw [checkExpr]
    refine (checkExpr_agree base (h.child (.head _))).bind fun type htype => ?_
    split
    · rw [Ty.Avoids] at htype
      exact Agree.pure htype
    · exact Agree.pure trivial
  | .set elements _, h => by
    rw [checkExpr]
    refine (firstType_agree (checkEach_agree elements (h.mapped (List.Subset.refl _)))).bind
      fun type htype => Agree.pure ?_
    rw [Ty.Avoids]
    exact htype
  | .range low high _, h => by
    rw [checkExpr]
    exact (checkExpr_agree low (h.child (.head _))).bind fun type htype =>
      (checkExpr_agree high (h.child (.tail _ (.head _)))).bind fun _ _ => Agree.pure htype
  | .ask call, h => by
    rw [checkExpr]
    exact checkMethodCall_agree call (h.child (.head _))
  | .inherited method args _, h => by
    rw [checkExpr]
    exact inheritedCall_agree method (checkEach_agree args (h.mapped (List.subset_cons_self _ _)))

theorem checkMethodCall_agree : ∀ call : MethodCall, g.Spares (.methodCall call) →
    Agree head g (Ty.Avoids g.names) (checkMethodCall call)
  | ⟨target, method, args, span⟩, h => by
    rw [checkMethodCall]
    exact methodCall_agree (checkExpr_agree target (h.child (.head _))) method
      (checkEach_agree args (h.mapped fun _ hn => .tail _ (.tail _ hn))) span

theorem checkEach_agree : ∀ es : List Expr, (∀ e ∈ es, g.Spares (.expr e)) →
    ∀ arg ∈ checkEach es, SparesArg head g arg
  | [], _ => by
    rw [checkEach]
    exact fun _ h => nomatch h
  | e :: es, h => by
    rw [checkEach]
    intro arg harg
    rcases List.mem_cons.1 harg with rfl | harg
    · exact ⟨h e List.mem_cons_self, checkExpr_agree e (h e List.mem_cons_self)⟩
    · exact checkEach_agree es (fun e' he' => h e' (List.mem_cons_of_mem e he')) arg harg

end

theorem checkValue_follow {e : Expr} (h : g.Spares (.expr e)) :
    Follow head g (checkValue e) (checkValue e) :=
  (checkExpr_agree e h).bind fun _ _ => .pure trivial

theorem checkPlace_agree {target : Expr} (h : g.Spares (.expr target)) :
    Agree head g (Ty.Avoids g.names) (checkPlace target) :=
  checkTarget_agree h (checkExpr_agree target h)

end Check

end SimFront
