import SimFront.Proofs.Check.AlikeExpr

/-!
# Statements and declarations with a graft

One lemma for each kind of statement, and one for each step of the checks of types and
declarations, in the order of the checks: on a tree that the graft spares the check does the same
in both runs, and the types that it comes to mention no name of the graft.
-/

namespace SimFront.Check

variable {head : ModuleHead} {g : Graft}

theorem checkCondition_follow {e : Expr} (h : g.Spares (.expr e)) :
    Follow head g (checkCondition e) (checkCondition e) := by
  refine (checkExpr_agree e h).bind fun t ht => (normalize_agree ht).bind fun type _ => ?_
  split
  · exact .pure trivial
  · exact error_follow _ _ _ _

theorem checkNumeric_follow (what : String) {e : Expr} (h : g.Spares (.expr e)) :
    Follow head g (checkNumeric what e) (checkNumeric what e) := by
  refine (checkExpr_agree e h).bind fun t ht => (normalize_agree ht).bind fun type _ => ?_
  split
  · exact .pure trivial
  · exact error_follow _ _ _ _

theorem checkAssign_follow {target value : Expr} (htarget : g.Spares (.expr target))
    (hvalue : g.Spares (.expr value)) :
    Follow head g (checkAssign target value) (checkAssign target value) := by
  refine (checkExpr_agree value hvalue).bind fun valueType hvalueType =>
    (checkPlace_agree htarget).bind fun targetType htargetType =>
      (assignable_agree htargetType hvalueType).bind fun fits _ => ?_
  split
  · exact .pure trivial
  · exact error_follow _ _ _ _

theorem checkReturn_follow {value : Expr} (h : g.Spares (.expr value)) (span : Span) :
    Follow head g (checkReturn value span) (checkReturn value span) := by
  refine (checkExpr_agree value h).bind fun type htype =>
    .readSame (fun _ => rfl) fun env _ hfits => ?_
  split
  · exact .pure trivial
  · exact error_follow _ _ _ _
  · next expected hexpected =>
    refine (assignable_agree (hfits.result expected hexpected) htype).bind fun fits _ => ?_
    split
    · exact .pure trivial
    · exact error_follow _ _ _ _

theorem writeLoopVar_follow {var : Ident} (h : g.Spares (.ident var)) :
    Follow head g (writeLoopVar var) (writeLoopVar var) :=
  (writeName_agree h.name).bind fun _ _ => .pure trivial

theorem checkCallOf_follow {call : MethodCall} (h : g.Spares (.methodCall call)) :
    Follow head g (checkCallOf call) (checkCallOf call) :=
  (checkMethodCall_agree call h).bind fun _ _ => .pure trivial

theorem checkWaitSubject_follow {subject : WaitSubject}
    (h : g.Spares (Node.ofWaitSubject subject)) :
    Follow head g (checkWaitSubject subject) (checkWaitSubject subject) := by
  cases subject with
  | method call => exact checkCallOf_follow h
  | duration time => exact checkNumeric_follow _ h

mutual

theorem checkStmt_follow : ∀ s : Stmt, g.Spares (.stmt s) → Follow head g (checkStmt s) (checkStmt s)
  | .assign target value _, h => by
    rw [checkStmt]
    exact checkAssign_follow (h.child (.head _)) (h.child (.tail _ (.head _)))
  | .call call _, h => by
    rw [checkStmt]
    exact checkValue_follow (h.child (.head _))
  | .if_ branches else? _, h => by
    rw [checkStmt]
    exact (checkBranches_follow branches (h.mapped (List.subset_append_left _ _))).bind
      (checkOptional_follow else? (h.mapped (List.subset_append_right _ _)))
  | .while_ condition body _, h => by
    rw [checkStmt]
    exact (checkCondition_follow (h.child (.head _))).bind
      (checkBlock_follow body (h.mapped (List.subset_cons_self _ _)))
  | .repeat_ body condition _, h => by
    rw [checkStmt]
    exact (checkBlock_follow body (h.mapped (List.subset_append_left _ _))).bind
      (checkCondition_follow (h.child (List.mem_append_right _ (.head _))))
  | .for_ var first _ last step body _, h => by
    rw [checkStmt]
    have hstep : ∀ e, step = some e → g.Spares (.expr e) := by
      rintro e rfl
      exact h.child (.tail _ (.tail _ (.tail _ (.head _))))
    exact (checkValue_follow (h.child (.tail _ (.head _)))).bind <|
      (checkValue_follow (h.child (.tail _ (.tail _ (.head _))))).bind <|
        (optionForM_follow fun e he => checkValue_follow (hstep e he)).bind <|
          (writeLoopVar_follow (h.child (.head _))).bind <| checkBlock_follow body <|
            h.mapped fun _ hn => .tail _ (.tail _ (.tail _ (List.mem_append_right _ hn)))
  | .forEach var group body _, h => by
    rw [checkStmt]
    exact (checkValue_follow (h.child (.tail _ (.head _)))).bind <|
      (writeLoopVar_follow (h.child (.head _))).bind <| checkBlock_follow body <|
        h.mapped fun _ hn => .tail _ (.tail _ hn)
  | .loop body _, h => by
    rw [checkStmt]
    exact checkBlock_follow body (h.mapped (List.Subset.refl _))
  | .case selector arms otherwise _, h => by
    rw [checkStmt]
    exact (checkValue_follow (h.child (.head _))).bind <|
      (checkArms_follow arms (h.mapped fun _ hn => .tail _ (List.mem_append_left _ hn))).bind <|
        checkOptional_follow otherwise (h.mapped fun _ hn => .tail _ (List.mem_append_right _ hn))
  | .return_ value span, h => by
    rw [checkStmt]
    refine optionForM_follow fun e he => checkReturn_follow ?_ span
    subst he
    exact h.child (.head _)
  | .exit _, _ | .terminate _, _ => by
    rw [checkStmt]
    exact .pure trivial
  | .new target _, h => by
    rw [checkStmt]
    exact (checkPlace_agree (h.child (.head _))).bind fun _ _ => .pure trivial
  | .dispose target _, h => by
    rw [checkStmt]
    exact checkValue_follow (h.child (.head _))
  | .ask call _, h => by
    rw [checkStmt]
    exact checkCallOf_follow (h.child (.head _))
  | .tell call delay _, h => by
    rw [checkStmt]
    refine (checkCallOf_follow (h.child (.head _))).bind (optionForM_follow fun e he => ?_)
    subst he
    exact checkNumeric_follow _ (h.child (.tail _ (.head _)))
  | .wait subject body interrupt _, h => by
    rw [checkStmt]
    exact (checkWaitSubject_follow (h.child (.head _))).bind <|
      (checkBlock_follow body (h.mapped fun _ hn => .tail _ (List.mem_append_left _ hn))).bind <|
        checkOptional_follow interrupt (h.mapped fun _ hn => .tail _ (List.mem_append_right _ hn))
  | .inherited method args _, h => by
    rw [checkStmt]
    exact (inheritedCall_agree method (checkEach_agree args
      (h.mapped (List.subset_cons_self _ _)))).bind fun _ _ => .pure trivial
  | .with_ subject body _, h => by
    rw [checkStmt]
    exact (checkValue_follow (h.child (.head _))).bind <|
      .withReader _ (fun _ => rfl) (fun _ => rfl) (fun _ => rfl) (fun _ => rfl)
        (fun _ hfits => ⟨hfits.object, hfits.result⟩)
        (checkBlock_follow body (h.mapped (List.subset_cons_self _ _)))

theorem checkBlock_follow : ∀ body : List Stmt, (∀ s ∈ body, g.Spares (.stmt s)) →
    Follow head g (checkBlock body) (checkBlock body)
  | [], _ => by
    rw [checkBlock]
    exact .pure trivial
  | s :: rest, h => by
    rw [checkBlock]
    exact (checkStmt_follow s (h s (.head _))).bind
      (checkBlock_follow rest fun s' hs' => h s' (.tail _ hs'))

theorem checkOptional_follow : ∀ body? : Option (List Stmt),
    (∀ s ∈ body?.getD [], g.Spares (.stmt s)) →
    Follow head g (checkOptional body?) (checkOptional body?)
  | none, _ => by
    rw [checkOptional]
    exact .pure trivial
  | some body, h => by
    rw [checkOptional]
    exact checkBlock_follow body h

theorem checkBranches_follow : ∀ branches : List CondBranch,
    (∀ b ∈ branches, g.Spares (.condBranch b)) →
    Follow head g (checkBranches branches) (checkBranches branches)
  | [], _ => by
    rw [checkBranches]
    exact .pure trivial
  | ⟨condition, body, span⟩ :: rest, h => by
    rw [checkBranches]
    have hbranch := h ⟨condition, body, span⟩ (.head _)
    exact (checkCondition_follow (hbranch.child (.head _))).bind <|
      (checkBlock_follow body (hbranch.mapped (List.subset_cons_self _ _))).bind <|
        checkBranches_follow rest fun b hb => h b (.tail _ hb)

theorem checkArms_follow : ∀ arms : List CaseArm, (∀ a ∈ arms, g.Spares (.caseArm a)) →
    Follow head g (checkArms arms) (checkArms arms)
  | [], _ => by
    rw [checkArms]
    exact .pure trivial
  | ⟨labels, body, span⟩ :: rest, h => by
    rw [checkArms]
    have harm := h ⟨labels, body, span⟩ (.head _)
    exact (forM_follow fun e he => checkValue_follow
        (harm.mapped (List.subset_append_left _ _) e he)).bind <|
      (checkBlock_follow body (harm.mapped (List.subset_append_right _ _))).bind <|
        checkArms_follow rest fun a ha => h a (.tail _ ha)

end

end SimFront.Check

namespace SimFront

/-- The type that is being declared, if there is one, has no name of the graft. -/
def Graft.SparesOwner (g : Graft) (owner? : Option Ident) : Prop :=
  ∀ o, owner? = some o → o.name ∉ g.names

namespace CheckState.Grafted

variable {g : Graft} {env : Env} {s u : CheckState}

/-- A type name is noted in both runs. -/
theorem note (h : s.Grafted g env u) {p q : PendingType} (hnotes : g.Notes s.table p q) :
    ({ s with pendingTypes := p :: s.pendingTypes } : CheckState).Grafted g env
      { u with pendingTypes := q :: u.pendingTypes } :=
  { h with
    faithful := h.faithful.of_same rfl rfl rfl
    faithful' := h.faithful'.of_same rfl rfl rfl
    pendingTypes := .both hnotes h.pendingTypes }

/-- An object type is noted in both runs. -/
theorem noteObject (h : s.Grafted g env u) {d e : ObjectDecl} (hdeclares : g.Declares s.table d e) :
    ({ s with objectDecls := s.objectDecls ++ [d] } : CheckState).Grafted g env
      { u with objectDecls := u.objectDecls ++ [e] } :=
  { h with
    faithful := h.faithful.of_same rfl rfl rfl
    faithful' := h.faithful'.of_same rfl rfl rfl
    objectDecls := h.objectDecls.append (.both hdeclares .nil) }

/-- The signature of a procedure is kept in both runs. -/
theorem keepSignature (h : s.Grafted g env u) (offset : Nat) {signature : Signature}
    (hsignature : signature.Avoids g.names) :
    ({ s with signatures := (offset, signature) :: s.signatures } : CheckState).Grafted g env
      { u with signatures := (offset, signature) :: u.signatures } :=
  { h with
    faithful := h.faithful.of_same rfl rfl rfl
    faithful' := h.faithful'.of_same rfl rfl rfl
    signatures := congrArg (List.cons _) h.signatures
    signatureTypes := fun e he => by
      rcases List.mem_cons.1 he with rfl | he
      · exact hsignature
      · exact h.signatureTypes e he }

end CheckState.Grafted

namespace Check

variable {α β : Type} {head : ModuleHead} {g : Graft}

/-! ## Members of types -/

theorem typeOfName_agree {q : QualIdent} (h : g.Spares (.qualIdent q)) :
    Agree head g (Ty.Avoids g.names) (typeOfName q) := by
  have hname : q.module?.map (·.name) = none → q.name.name ∉ g.names := by
    obtain ⟨module?, name, span⟩ := q
    cases module? with
    | none => exact fun _ => h.typeName rfl
    | some m => exact fun hnone => nomatch hnone
  unfold typeOfName
  dsimp only
  split
  · next b hb => exact Agree.pure (builtinType?_avoids hb)
  · intro env s u _ hs
    refine ⟨⟨rfl, Ty.named_avoids hname⟩, ?_, .refl _⟩
    exact hs.note ⟨congrArg (PendingType.mk _ _ _) hs.table.current, hname, hs.table.current_lt⟩

theorem checkArrayIndex_follow {index : ArrayIndex} (h : g.Spares (.arrayIndex index)) :
    Follow head g (checkArrayIndex index) (checkArrayIndex index) := by
  cases index with
  | range low high span =>
    exact (checkValue_follow (h.child (.head _))).bind (checkValue_follow (h.child (.tail _ (.head _))))
  | type name => exact (typeOfName_agree (h.child (.head _))).bind fun _ _ => .pure trivial

/-- Declaring something that is no type. -/
theorem define_follow {symbol : Symbol} (hname : g.Plain symbol.name)
    (htype : symbol.type.Avoids g.names) (hkind : symbol.kind ≠ .type) :
    Follow head g (do let _ ← define symbol; pure ()) (do let _ ← define symbol; pure ()) :=
  (define_alike hname htype fun h => absurd h hkind).bind fun _ _ _ => .pure trivial

variable {owner? : Option Ident}

theorem defineEnumValues_follow (howner : g.SparesOwner owner?) {values : List Ident}
    (h : ∀ v ∈ values, g.Spares (.ident v)) :
    Follow head g (defineEnumValues owner? values) (defineEnumValues owner? values) := by
  refine forM_follow fun v hv => ?_
  have htype : ((owner?.map fun o => Ty.named none o.name).getD .unknown).Avoids g.names := by
    cases owner? with
    | none => trivial
    | some o => exact howner o rfl
  exact define_follow (h v hv).name htype (fun h => nomatch h)

theorem defineFields_agree (owner? : Option Ident) (sect : SectionKind) {type : Ty}
    (htype : type.Avoids g.names) {names : List Ident} (h : ∀ n ∈ names, g.Spares (.ident n)) :
    Agree head g (fun fields => ∀ e ∈ fields, e.2.Avoids g.names)
      (defineFields owner? sect type names) := by
  induction names with
  | nil => exact Agree.pure (List.forall_mem_nil _)
  | cons n ns ih =>
    refine (define_alike (h n (.head _)).name htype (by intro h; cases h)).bind fun id? id?' hid => ?_
    subst hid
    refine (ih fun n' hn => h n' (.tail _ hn)).bind fun rest hrest => ?_
    rw [Option.isSome_map]
    refine Agree.pure fun e he => ?_
    split at he
    · rcases List.mem_cons.1 he with rfl | he
      · exact htype
      · exact hrest e he
    · exact hrest e he

theorem defineMethod_agree (owner? : Option Ident) (sect : SectionKind) (dispatch : Dispatch)
    {name : Ident} (hname : g.Plain name.name) {signature : Signature}
    (hsignature : signature.Avoids g.names) :
    Agree head g (fun methods => ∀ e ∈ methods, e.2.signature.Avoids g.names)
      (defineMethod owner? sect dispatch name signature) := by
  have htype : (Ty.procedure signature).Avoids g.names := by
    rw [Ty.Avoids]
    exact hsignature
  refine (define_alike hname htype (by intro h; cases h)).bind fun id? id?' hid => ?_
  subst hid
  rw [Option.isSome_map]
  refine Agree.pure fun e he => ?_
  split at he
  · rw [List.mem_singleton.1 he]
    exact hsignature
  · cases he

theorem noteObject_grafted (howner : g.SparesOwner owner?) {scope : Nat} {env : Env}
    {s u : CheckState} (hs : s.Grafted g env u) (hscope : s.table.kind? scope = some .object) :
    ((noteObject owner? scope).outcome env s).2.Grafted g env
        ((noteObject owner? (g.scope scope)).outcome (g.moveEnv env) u).2 ∧
      s.table.Returns ((noteObject owner? scope).outcome env s).2.table := by
  unfold noteObject
  cases owner? with
  | none => exact ⟨hs, .refl _⟩
  | some o =>
    have ho := howner o rfl
    dsimp only
    rw [outcome_bind, outcome_bind, show (table.outcome env s) = (s.table, s) from rfl,
      show (table.outcome (g.moveEnv env) u) = (u.table, u) from rfl,
      hs.table.lookupId? (Graft.plain_of_fresh ho)]
    cases hid : s.table.lookupId? o.name with
    | none => exact ⟨hs, .refl _⟩
    | some id =>
      obtain ⟨symbol, hsymbol, hname⟩ :=
        hs.table.name_of_declares (SymbolTable.declares_of_lookupFrom? hid)
      have hlt : id < s.table.symbols.size := (Array.getElem?_eq_some_iff.1 hsymbol).1
      dsimp only [Option.map_some]
      rw [hs.table.symbol, hsymbol]
      refine ⟨hs.noteObject ⟨rfl, ?_, hlt, hscope⟩, .refl _⟩
      show symbol.name ∉ g.names
      rw [hname]
      exact ho

/-- The members of an object type are declared in a scope of their own, which is noted. -/
theorem objectScope_agree {P : α → Prop} (howner : g.SparesOwner owner?) (span : Span)
    {p : Check α} (h : Agree head g P p) {f : α → β} {Q : β → Prop} (hf : ∀ a, P a → Q (f a)) :
    Agree head g Q (do
      modifyTable (·.enter .object span)
      let scope ← currentScope
      let a ← p
      modifyTable (·.leave)
      noteObject owner? scope
      pure (f a)) := by
  intro env s u henv hs
  have entered := hs.withTable (hs.table.enter .object span) (s.table.extends_enter .object span)
  obtain ⟨⟨hsame, hP⟩, hs', hreturns⟩ := h env _ _ henv entered
  have hback := SymbolTable.returns_leave hreturns
  have hextends := (s.table.extends_enter .object span).trans hreturns.toExtends
  have left := hs'.withTable (hs'.table.leave (SymbolTable.parent?_of_returns hreturns)
    (Nat.lt_of_lt_of_le hs.table.current_lt hextends.scopes) fun hinside j hj =>
      hs.table.outside hinside j (hextends.enclosing hs.table.current_lt ▸ hj))
    (SymbolTable.extends_leave _)
  have hscope : (p.outcome env { s with table := s.table.enter .object span }).2.table.leave.kind?
      s.table.scopes.size = some .object := by
    refine (hreturns.toExtends.trans (SymbolTable.extends_leave _)).kind ?_
    rw [SymbolTable.kind?_enter, if_pos rfl]
  have noted := noteObject_grafted howner left hscope
  rw [hs.table.scopes_eq] at noted
  simp only [outcome_bind]
  refine ⟨⟨?_, hf _ hP⟩, noted.1, hback.trans noted.2⟩
  exact congrArg f hsame

theorem paramTypes_avoids {names : List String} (mode : ParamMode) (ns : List Ident) {type : Ty}
    (htype : type.Avoids names) : ∀ p ∈ paramTypes mode ns type, p.type.Avoids names := by
  intro p hp
  obtain ⟨n, -, rfl⟩ := List.mem_map.1 hp
  exact htype

/-- The types of fields and the signatures of methods mention no name of the graft. -/
def SparesMembers (g : Graft) (ms : List (String × Ty) × List (String × MethodInfo)) : Prop :=
  (∀ e ∈ ms.1, e.2.Avoids g.names) ∧ ∀ e ∈ ms.2, e.2.signature.Avoids g.names

theorem SparesMembers.append {ms ms' : List (String × Ty) × List (String × MethodInfo)}
    (h : SparesMembers g ms) (h' : SparesMembers g ms') :
    SparesMembers g (ms.1 ++ ms'.1, ms.2 ++ ms'.2) :=
  ⟨fun e he => (List.mem_append.1 he).elim (h.1 e) (h'.1 e),
    fun e he => (List.mem_append.1 he).elim (h.2 e) (h'.2 e)⟩

theorem SparesMembers.object {bases : List Ty} (hbases : ∀ t ∈ bases, t.Avoids g.names)
    {ms : List (String × Ty) × List (String × MethodInfo)} (h : SparesMembers g ms) :
    (Ty.object ⟨bases, Members.ofList ms.1, Members.ofList ms.2⟩).Avoids g.names := by
  rw [Ty.Avoids, ObjectInfo.Avoids]
  exact ⟨typesAvoid_iff.2 hbases, fieldsAvoid_iff.2 fun e he => h.1 e (Members.mem_ofList he),
    methodsAvoid_iff.2 fun e he => h.2 e (Members.mem_ofList he)⟩

theorem signature_avoids {names : List String} {ps : List ParamType} {result : Option Ty}
    (hps : ∀ p ∈ ps, p.type.Avoids names) (hresult : ∀ t, result = some t → t.Avoids names) :
    (Signature.mk ps result).Avoids names := by
  rw [Signature.Avoids]
  refine ⟨paramsAvoid_iff.2 hps, ?_⟩
  cases result with
  | none => trivial
  | some t => exact hresult t rfl

mutual

theorem typeOfSpec_agree (owner? : Option Ident) : ∀ spec : TypeSpec, g.SparesOwner owner? →
    g.Spares (.typeSpec spec) → Agree head g (Ty.Avoids g.names) (typeOfSpec owner? spec)
  | .named name, _, h => by
    rw [typeOfSpec]
    exact typeOfName_agree (h.child (.head _))
  | .array indices element _, _, h => by
    rw [typeOfSpec]
    refine (forM_follow fun i hi => checkArrayIndex_follow
      (h.mapped (List.subset_append_left _ _) i hi)).bind ?_
    refine (typeOfSpec_agree none element (by intro o ho; cases ho)
      (h.child (List.mem_append_right _ (.head _)))).bind fun type htype => Agree.pure ?_
    rw [Ty.Avoids]
    exact htype
  | .record fields span, howner, h => by
    rw [typeOfSpec]
    refine (inScope_alike .record span (fieldsOf_agree owner? .public_ fields howner
      (h.mapped (List.Subset.refl _)))).bind fun members _ hmembers => ?_
    obtain ⟨rfl, hmembers⟩ := hmembers
    refine .pure ⟨rfl, ?_⟩
    rw [Ty.Avoids]
    exact fieldsAvoid_iff.2 fun e he => hmembers e (Members.mem_ofList he)
  | .pointer target _, _, h => by
    rw [typeOfSpec]
    refine (typeOfSpec_agree none target (by intro o ho; cases ho) (h.child (.head _))).bind
      fun type htype => Agree.pure ?_
    rw [Ty.Avoids]
    exact htype
  | .set element _, _, h => by
    rw [typeOfSpec]
    refine (typeOfSpec_agree none element (by intro o ho; cases ho) (h.child (.head _))).bind
      fun type htype => Agree.pure ?_
    rw [Ty.Avoids]
    exact htype
  | .enum values _, howner, h => by
    rw [typeOfSpec]
    exact (defineEnumValues_follow howner (h.mapped (List.Subset.refl _))).bind (Agree.pure trivial)
  | .subrange low high _, _, h => by
    rw [typeOfSpec]
    refine (checkExpr_agree low (h.child (.head _))).bind fun base hbase =>
      (checkValue_follow (h.child (.tail _ (.head _)))).bind (Agree.pure ?_)
    rw [Ty.Avoids]
    exact hbase
  | .procedure params result _, _, h => by
    rw [typeOfSpec]
    refine (paramsOf_agree params (h.mapped (List.subset_append_left _ _))).bind fun types htypes =>
      (resultOf_agree result fun spec hspec => h.child (List.mem_append_right _
        (List.mem_map_of_mem (Option.mem_toList.2 hspec)))).bind fun result hresult => Agree.pure ?_
    rw [Ty.Avoids]
    exact signature_avoids htypes hresult
  | .object ⟨bases, sections, span⟩, howner, h => by
    rw [typeOfSpec]
    refine (mapM_agree fun q hq => typeOfName_agree
      (h.mapped (List.subset_append_left _ _) q hq)).bind fun bases hbases => ?_
    exact objectScope_agree howner span (sectionsOf_agree owner? sections howner
      (h.mapped (List.subset_append_right _ _))) fun _ hmembers => hmembers.object hbases

theorem paramsOf_agree : ∀ params : List Param, (∀ p ∈ params, g.Spares (.param p)) →
    Agree head g (fun ps => ∀ p ∈ ps, p.type.Avoids g.names) (paramsOf params)
  | [], _ => by
    rw [paramsOf]
    exact Agree.pure (List.forall_mem_nil _)
  | ⟨mode, names, spec, span⟩ :: rest, h => by
    rw [paramsOf]
    have hspec := (h ⟨mode, names, spec, span⟩ (.head _)).child (List.mem_append_right _ (.head _))
    refine (typeOfSpec_agree none spec (by intro o ho; cases ho) hspec).bind fun type htype =>
      (paramsOf_agree rest fun p hp => h p (.tail _ hp)).bind fun types htypes =>
        Agree.pure fun p hp => ?_
    exact (List.mem_append.1 hp).elim (paramTypes_avoids mode names htype p) (htypes p)

theorem resultOf_agree : ∀ spec? : Option TypeSpec,
    (∀ spec, spec? = some spec → g.Spares (.typeSpec spec)) →
    Agree head g (fun t? => ∀ t, t? = some t → t.Avoids g.names) (resultOf spec?)
  | none, _ => by
    rw [resultOf]
    exact Agree.pure fun _ h => nomatch h
  | some spec, h => by
    rw [resultOf]
    refine (typeOfSpec_agree none spec (by intro o ho; cases ho) (h spec rfl)).bind
      fun type htype => Agree.pure fun t ht => ?_
    obtain rfl := Option.some.inj ht
    exact htype

theorem fieldsOf_agree (owner? : Option Ident) (sect : SectionKind) : ∀ fields : List FieldDecl,
    g.SparesOwner owner? → (∀ f ∈ fields, g.Spares (.fieldDecl f)) →
    Agree head g (fun fields => ∀ e ∈ fields, e.2.Avoids g.names) (fieldsOf owner? sect fields)
  | [], _, _ => by
    rw [fieldsOf]
    exact Agree.pure (List.forall_mem_nil _)
  | ⟨names, spec, span⟩ :: rest, howner, h => by
    rw [fieldsOf]
    have hfield := h ⟨names, spec, span⟩ (.head _)
    refine (typeOfSpec_agree none spec (by intro o ho; cases ho)
      (hfield.child (List.mem_append_right _ (.head _)))).bind fun type htype =>
        (defineFields_agree owner? sect htype (hfield.mapped (List.subset_append_left _ _))).bind
          fun fields hfields => (fieldsOf_agree owner? sect rest howner fun f hf =>
            h f (.tail _ hf)).bind fun others hothers => Agree.pure fun e he => ?_
    exact (List.mem_append.1 he).elim (hfields e) (hothers e)

theorem memberOf_agree (owner? : Option Ident) (sect : SectionKind) : ∀ m : ObjectMember,
    g.SparesOwner owner? → g.Spares (Node.ofMember m) →
    Agree head g (SparesMembers g) (memberOf owner? sect m)
  | .field ⟨names, spec, _⟩, _, h => by
    rw [memberOf]
    exact (typeOfSpec_agree none spec (by intro o ho; cases ho)
      (h.child (List.mem_append_right _ (.head _)))).bind fun type htype =>
        (defineFields_agree owner? sect htype (h.mapped (List.subset_append_left _ _))).bind
          fun fields hfields => Agree.pure ⟨hfields, List.forall_mem_nil _⟩
  | .method ⟨dispatch, name, params, result, _⟩, _, h => by
    rw [memberOf]
    exact (paramsOf_agree params (h.mapped fun _ hn => .tail _ (List.mem_append_left _ hn))).bind
      fun types htypes => (resultOf_agree result fun spec hspec => h.child (.tail _
        (List.mem_append_right _ (List.mem_map_of_mem (Option.mem_toList.2 hspec))))).bind
          fun result hresult => (defineMethod_agree owner? sect dispatch (h.child (.head _)).name
            (signature_avoids htypes hresult)).bind fun methods hmethods =>
              Agree.pure ⟨List.forall_mem_nil _, hmethods⟩

theorem membersOf_agree (owner? : Option Ident) (sect : SectionKind) :
    ∀ members : List ObjectMember, g.SparesOwner owner? →
    (∀ m ∈ members, g.Spares (Node.ofMember m)) →
    Agree head g (SparesMembers g) (membersOf owner? sect members)
  | [], _, _ => by
    rw [membersOf]
    exact Agree.pure ⟨List.forall_mem_nil _, List.forall_mem_nil _⟩
  | m :: rest, howner, h => by
    rw [membersOf]
    exact (memberOf_agree owner? sect m howner (h m (.head _))).bind fun _ hmembers =>
      (membersOf_agree owner? sect rest howner fun m' hm' => h m' (.tail _ hm')).bind
        fun _ hmembers' => Agree.pure (hmembers.append hmembers')

theorem sectionsOf_agree (owner? : Option Ident) : ∀ sections : List ObjectSection,
    g.SparesOwner owner? → (∀ s ∈ sections, g.Spares (.objectSection s)) →
    Agree head g (SparesMembers g) (sectionsOf owner? sections)
  | [], _, _ => by
    rw [sectionsOf]
    exact Agree.pure ⟨List.forall_mem_nil _, List.forall_mem_nil _⟩
  | ⟨kind, members, span⟩ :: rest, howner, h => by
    rw [sectionsOf]
    exact (membersOf_agree owner? kind members howner
      ((h ⟨kind, members, span⟩ (.head _)).mapped (List.Subset.refl _))).bind fun _ hmembers =>
        (sectionsOf_agree owner? rest howner fun s hs => h s (.tail _ hs)).bind
          fun _ hmembers' => Agree.pure (hmembers.append hmembers')

end

theorem signatureOf_agree {params : List Param} (hparams : ∀ p ∈ params, g.Spares (.param p))
    {result : Option TypeSpec} (hresult : ∀ spec, result = some spec → g.Spares (.typeSpec spec)) :
    Agree head g (Signature.Avoids g.names) (signatureOf params result) :=
  (paramsOf_agree params hparams).bind fun _ htypes => (resultOf_agree result hresult).bind
    fun _ hresult => Agree.pure (signature_avoids htypes hresult)

/-! ## Declarations -/

theorem retype_follow (id : Nat) {type : Ty} (htype : type.Avoids g.names) :
    Follow head g (modifyTable (·.modifySymbol id fun s => { s with type }))
      (modifyTable (·.modifySymbol (g.symbol id) fun s => { s with type })) :=
  .modifyTable fun _ _ h =>
    ⟨h.retype id htype, ⟨SymbolTable.extends_modifySymbol _ _ _, rfl⟩⟩

theorem declareType_follow {d : TypeDecl} (h : g.Spares d.node) :
    Follow head g (declareType d) (declareType d) := by
  have hname : d.name.name ∉ g.names := h.typeName rfl
  have howner : g.SparesOwner (some d.name) := by
    intro o ho
    obtain rfl := Option.some.inj ho
    exact hname
  refine (define_alike (Graft.plain_of_fresh hname) (by trivial) fun _ _ => hname).bind
    fun id? id?' hid => ?_
  subst hid
  refine (typeOfSpec_agree (some d.name) d.type howner (h.child (.tail _ (.head _)))).bind
    fun type htype => ?_
  cases id? with
  | none => exact .pure trivial
  | some id => exact retype_follow id htype

theorem constType_agree {d : ConstDecl} (h : g.Spares (.decl (.const d))) :
    Agree head g (Ty.Avoids g.names) (constType d) := by
  have hvalue : g.Spares (.expr d.value) :=
    h.child (.tail _ (List.mem_append_right _ (.head _)))
  refine (checkExpr_agree d.value hvalue).bind fun value htype => ?_
  split
  · exact Agree.pure htype
  · next spec hspec =>
    have hspec' : g.Spares (.typeSpec spec) := by
      refine h.child (.tail _ (List.mem_append_left _ ?_))
      rw [hspec]
      exact .head _
    refine (typeOfSpec_agree none spec (by intro o ho; cases ho) hspec').bind
      fun declared hdeclared => (assignable_agree hdeclared htype).bind fun fits _ => ?_
    dsimp only
    split
    · exact Agree.pure hdeclared
    · exact (error_follow _ _ _ _).bind (Agree.pure hdeclared)

theorem declareConst_follow {d : ConstDecl} (h : g.Spares (.decl (.const d))) :
    Follow head g (declareConst d) (declareConst d) :=
  (constType_agree h).bind fun _ htype =>
    define_follow (h.child (.head _)).name htype (by intro h; cases h)

theorem checkInit_follow {type : Ty} (htype : type.Avoids g.names) {init : Expr}
    (h : g.Spares (.expr init)) : Follow head g (checkInit type init) (checkInit type init) := by
  refine (checkExpr_agree init h).bind fun value hvalue =>
    (assignable_agree htype hvalue).bind fun fits _ => ?_
  split
  · exact .pure trivial
  · exact error_follow _ _ _ _

theorem declareVars_follow {d : VarDecl} (h : g.Spares (.decl (.var d))) :
    Follow head g (declareVars d) (declareVars d) := by
  refine (typeOfSpec_agree none d.type (by intro o ho; cases ho)
    (h.child (List.mem_append_right _ (.head _)))).bind fun type htype => ?_
  refine (optionForM_follow fun init hinit => checkInit_follow htype (h.child
    (List.mem_append_right _ (.tail _ (List.mem_map_of_mem (Option.mem_toList.2 hinit)))))).bind ?_
  exact forM_follow fun n hn => define_follow
    (h.mapped (List.subset_append_left _ _) n hn).name htype (by intro h; cases h)

theorem declareProcedure_follow {d : ProcDecl} (h : g.Spares (.decl (.procedure d))) :
    Follow head g (declareProcedure d) (declareProcedure d) := by
  have hheading : g.Spares (.procHeading d.heading) := h.child (.head _)
  refine (signatureOf_agree (hheading.mapped fun _ hn => .tail _ (List.mem_append_left _ hn))
    fun spec hspec => hheading.child (.tail _ (List.mem_append_right _
      (List.mem_map_of_mem (Option.mem_toList.2 hspec))))).bind fun signature hsignature => ?_
  refine Follow.bind (.modify fun _ _ _ _ hs => ⟨hs.keepSignature _ hsignature, .refl _⟩) ?_
  refine define_follow (hheading.child (.head _)).name ?_ (by intro h; cases h)
  rw [Ty.Avoids]
  exact hsignature

theorem declare_follow {d : Decl} (h : g.Spares (.decl d)) :
    Follow head g (declare d) (declare d) := by
  cases d with
  | type d => exact declareType_follow h
  | const d => exact declareConst_follow h
  | var d => exact declareVars_follow h
  | procedure d => exact declareProcedure_follow h
  | objectImpl d => exact .pure trivial

theorem declareAll_follow {ds : List Decl} (h : ∀ d ∈ ds, g.Spares (.decl d)) :
    Follow head g (declareAll ds) (declareAll ds) :=
  forM_follow fun d hd => declare_follow (h d hd)

end Check

end SimFront
