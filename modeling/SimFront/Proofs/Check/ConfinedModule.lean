import SimFront.Check.Module
import SimFront.Proofs.Check.ConfinedExpr
import SimFront.Proofs.Check.Declarations

/-!
# The modules that a module asks for

Types are written with the names of other modules in front (`Node.qualifiers`), and nowhere else
can a module that imports nothing name another one.  So where no other module is known it asks for
those alone (`checkModule_confines`), and a resolver that knows none of them is asked for no more
(`asked_of_unknown_qualifiers`).
-/

namespace SimFront

open Naming (NamesOnly)

variable {own : String} {qs : List String}

namespace Node

/-- The module that a node names a type of. -/
def qualifier? : Node → Option String
  | .qualIdent q => q.module?.map (·.name)
  | _ => none

/-- The modules that are named in front of types in a tree. -/
def qualifiers (n : Node) : List String := n.preorder.filterMap qualifier?

end Node

instance : Naming Node := ⟨fun qs n => n.qualifiers ⊆ qs⟩

section Nodes

variable {n c : Node}

theorem namesOnly_child (h : NamesOnly qs n) (hc : c ∈ n.children) : NamesOnly qs c := by
  intro m hm
  obtain ⟨k, hk, hname⟩ := List.mem_filterMap.1 hm
  exact h (List.mem_filterMap.2 ⟨k, Node.mem_preorder_of_child hc hk, hname⟩)

theorem namesOnly_mapped {α : Type} {f : α → Node} {as : List α} (h : NamesOnly qs n)
    (hsub : as.map f ⊆ n.children) : ∀ a ∈ as, NamesOnly qs (f a) :=
  fun _ ha => namesOnly_child h (hsub (List.mem_map_of_mem ha))

theorem namesOnly_qualIdent {q : QualIdent} (h : NamesOnly qs (Node.qualIdent q)) :
    NamesOnly qs (q.module?.map (·.name)) := fun _ hm =>
  h (List.mem_filterMap.2 ⟨.qualIdent q, Node.mem_preorder_self _, hm⟩)

end Nodes

namespace Check

/-! ## Type specifications -/

theorem define_confines {symbol : Symbol} (hsymbol : NamesOnly qs symbol)
    (hkind : symbol.kind = .module → symbol.name = own) :
    Confines own qs (fun _ => True) (define symbol) := by
  intro env s _ hs
  refine ⟨trivial, ?_⟩
  obtain ⟨id, t, hdefine, hstate⟩ | ⟨-, x, -, -, hstate⟩ := define_outcome symbol env s
  · rw [hstate]
    exact ⟨hs.table.define hsymbol hkind hdefine, hs.asked, hs.imports, hs.pending, hs.signatures⟩
  · rw [hstate]
    exact ⟨hs.table, hs.asked, hs.imports, hs.pending, hs.signatures⟩

/-- A symbol of the module itself. -/
theorem define_confines_of_kind {symbol : Symbol} (htype : NamesOnly qs symbol.type)
    (hown : symbol.origin? = none) (hkind : symbol.kind ≠ .module) :
    Confines own qs (fun _ => True) (define symbol) :=
  define_confines ⟨htype, hown ▸ namesOnly_none⟩ fun h => absurd h hkind

theorem inScope_confines {α : Type} {P : α → Prop} {p : Check α} (kind : ScopeKind) (span : Span)
    (hp : Confines own qs P p) : Confines own qs P (inScope kind span p) :=
  (modifyTable_confines fun _ ht => ht.enter kind span).bind fun _ _ => hp.bind fun _ ha =>
    (modifyTable_confines fun _ ht => ht.leave).bind fun _ _ => .pure ha

theorem typeOfName_confines {q : QualIdent} (h : NamesOnly qs (Node.qualIdent q)) :
    Confines own qs (NamesOnly qs) (typeOfName q) := by
  have hmodule := namesOnly_qualIdent h
  unfold typeOfName
  dsimp only
  split
  · next b hb => exact .pure (namesOnly_some.1 (hb ▸ namesOnly_builtinType? _ _))
  · refine currentScope_confines.bind fun scope _ => (Confines.modify fun s hs => ?_).bind
      fun _ _ => .pure (Ty.namesOnly_named.2 hmodule)
    refine ⟨hs.table, hs.asked, hs.imports, fun p hp => ?_, hs.signatures⟩
    rcases List.mem_cons.1 hp with rfl | hp
    · exact hmodule
    · exact hs.pending p hp

theorem checkArrayIndex_confines {index : ArrayIndex} (h : NamesOnly qs (Node.arrayIndex index)) :
    Confines own qs (fun _ => True) (checkArrayIndex index) := by
  cases index with
  | range low high span =>
    exact (checkValue_confines low).bind fun _ _ => checkValue_confines high
  | type name =>
    exact (typeOfName_confines (namesOnly_child h (.head _))).bind fun _ _ => .pure trivial

theorem defineEnumValues_confines (owner? : Option Ident) (values : List Ident) :
    Confines own qs (fun _ => True) (defineEnumValues owner? values) := by
  refine .forM fun v _ => (define_confines_of_kind ?_ rfl (by rintro ⟨⟩)).bind fun _ _ =>
    .pure trivial
  cases owner? with
  | none => exact Ty.namesOnly_unknown
  | some o => exact Ty.namesOnly_named.2 namesOnly_none

theorem defineFields_confines (owner? : Option Ident) (sect : SectionKind) {type : Ty}
    (htype : NamesOnly qs type) (names : List Ident) :
    Confines own qs (NamesOnly qs) (defineFields owner? sect type names) := by
  induction names with
  | nil => exact .pure namesOnly_nil
  | cons n ns ih =>
    refine (define_confines_of_kind htype rfl (by rintro ⟨⟩)).bind fun id? _ =>
      ih.bind fun rest hrest => .pure ?_
    split
    · exact namesOnly_cons.2 ⟨htype, hrest⟩
    · exact hrest

theorem defineMethod_confines (owner? : Option Ident) (sect : SectionKind) (dispatch : Dispatch)
    (name : Ident) {signature : Signature} (h : NamesOnly qs signature) :
    Confines own qs (NamesOnly qs) (defineMethod owner? sect dispatch name signature) := by
  refine (define_confines_of_kind (Ty.namesOnly_procedure.2 h) rfl (by rintro ⟨⟩)).bind
    fun id? _ => .pure ?_
  split
  · exact namesOnly_cons.2 ⟨h, namesOnly_nil⟩
  · exact namesOnly_nil

theorem noteObject_confines (owner? : Option Ident) (scope : Nat) :
    Confines own qs (fun _ => True) (noteObject owner? scope) := by
  cases owner? with
  | none => exact .pure trivial
  | some o =>
    refine .table fun t _ => ?_
    split
    · exact .pure trivial
    · exact .modify fun _ hs => ⟨hs.table, hs.asked, hs.imports, hs.pending, hs.signatures⟩

theorem namesOnly_paramTypes (mode : ParamMode) (names : List Ident) {type : Ty}
    (h : NamesOnly qs type) : NamesOnly qs (paramTypes mode names type) := by
  intro p hp
  obtain ⟨_, _, rfl⟩ := List.mem_map.1 hp
  exact h

/-- Fields and methods of an object type. -/
def MembersOnly (qs : List String) (ms : List (String × Ty) × List (String × MethodInfo)) : Prop :=
  NamesOnly qs ms.1 ∧ NamesOnly qs ms.2

theorem MembersOnly.append {ms ms' : List (String × Ty) × List (String × MethodInfo)}
    (h : MembersOnly qs ms) (h' : MembersOnly qs ms') :
    MembersOnly qs (ms.1 ++ ms'.1, ms.2 ++ ms'.2) :=
  ⟨namesOnly_append.2 ⟨h.1, h'.1⟩, namesOnly_append.2 ⟨h.2, h'.2⟩⟩

theorem MembersOnly.object {bases : List Ty} (hbases : NamesOnly qs bases)
    {ms : List (String × Ty) × List (String × MethodInfo)} (h : MembersOnly qs ms) :
    NamesOnly qs (Ty.object ⟨bases, Members.ofList ms.1, Members.ofList ms.2⟩) :=
  Ty.namesOnly_object.2 ⟨hbases, namesOnly_ofList h.1, namesOnly_ofList h.2⟩

mutual

theorem typeOfSpec_confines (owner? : Option Ident) : ∀ spec : TypeSpec,
    NamesOnly qs (Node.typeSpec spec) → Confines own qs (NamesOnly qs) (typeOfSpec owner? spec)
  | .named name, h => by
    rw [typeOfSpec]
    exact typeOfName_confines (namesOnly_child h (.head _))
  | .array indices element _, h => by
    rw [typeOfSpec]
    exact (Confines.forM fun i hi => checkArrayIndex_confines
      (namesOnly_mapped h (List.subset_append_left _ _) i hi)).bind fun _ _ =>
        (typeOfSpec_confines none element
          (namesOnly_child h (List.mem_append_right _ (.head _)))).bind fun _ htype =>
            .pure (Ty.namesOnly_array.2 htype)
  | .record fields span, h => by
    rw [typeOfSpec]
    exact (inScope_confines .record span (fieldsOf_confines owner? .public_ fields
      (namesOnly_mapped h (List.Subset.refl _)))).bind fun _ hmembers =>
        .pure (Ty.namesOnly_record.2 (namesOnly_ofList hmembers))
  | .pointer target _, h => by
    rw [typeOfSpec]
    exact (typeOfSpec_confines none target (namesOnly_child h (.head _))).bind fun _ htype =>
      .pure (Ty.namesOnly_pointer.2 htype)
  | .set element _, h => by
    rw [typeOfSpec]
    exact (typeOfSpec_confines none element (namesOnly_child h (.head _))).bind fun _ htype =>
      .pure (Ty.namesOnly_set.2 htype)
  | .enum values _, _ => by
    rw [typeOfSpec]
    exact (defineEnumValues_confines owner? values).bind fun _ _ => .pure Ty.namesOnly_enum
  | .subrange low high _, _ => by
    rw [typeOfSpec]
    exact (checkExpr_confines low).bind fun _ hbase => (checkValue_confines high).bind fun _ _ =>
      .pure (Ty.namesOnly_subrange.2 hbase)
  | .procedure params result _, h => by
    rw [typeOfSpec]
    exact (paramsOf_confines params (namesOnly_mapped h (List.subset_append_left _ _))).bind
      fun _ htypes => (resultOf_confines result fun spec hspec =>
        namesOnly_mapped h (List.subset_append_right _ _) spec (Option.mem_toList.2 hspec)).bind
          fun _ hresult =>
            .pure (Ty.namesOnly_procedure.2 (Signature.namesOnly_iff.2 ⟨htypes, hresult⟩))
  | .object ⟨bases, sections, span⟩, h => by
    rw [typeOfSpec]
    refine (Confines.mapM fun q hq => typeOfName_confines
      (namesOnly_mapped h (List.subset_append_left _ _) q hq)).bind fun baseTypes hbases => ?_
    refine (modifyTable_confines fun _ ht => ht.enter .object span).bind fun _ _ =>
      currentScope_confines.bind fun scope _ => (sectionsOf_confines owner? sections
        (namesOnly_mapped h (List.subset_append_right _ _))).bind fun ms hms => ?_
    exact (modifyTable_confines fun _ ht => ht.leave).bind fun _ _ =>
      (noteObject_confines owner? scope).bind fun _ _ => .pure (hms.object hbases)

theorem paramsOf_confines : ∀ params : List Param,
    (∀ p ∈ params, NamesOnly qs (Node.param p)) →
    Confines own qs (NamesOnly qs) (paramsOf params)
  | [], _ => by
    rw [paramsOf]
    exact .pure namesOnly_nil
  | ⟨mode, names, spec, span⟩ :: rest, h => by
    rw [paramsOf]
    have hspec := namesOnly_child (h ⟨mode, names, spec, span⟩ (.head _))
      (List.mem_append_right _ (.head _))
    exact (typeOfSpec_confines none spec hspec).bind fun _ htype =>
      (paramsOf_confines rest fun p hp => h p (.tail _ hp)).bind fun _ htypes =>
        .pure (namesOnly_append.2 ⟨namesOnly_paramTypes mode names htype, htypes⟩)

theorem resultOf_confines : ∀ spec? : Option TypeSpec,
    (∀ spec, spec? = some spec → NamesOnly qs (Node.typeSpec spec)) →
    Confines own qs (NamesOnly qs) (resultOf spec?)
  | none, _ => by
    rw [resultOf]
    exact .pure namesOnly_none
  | some spec, h => by
    rw [resultOf]
    exact (typeOfSpec_confines none spec (h spec rfl)).bind fun _ htype =>
      .pure (namesOnly_some.2 htype)

theorem fieldsOf_confines (owner? : Option Ident) (sect : SectionKind) :
    ∀ fields : List FieldDecl, (∀ f ∈ fields, NamesOnly qs (Node.fieldDecl f)) →
    Confines own qs (NamesOnly qs) (fieldsOf owner? sect fields)
  | [], _ => by
    rw [fieldsOf]
    exact .pure namesOnly_nil
  | ⟨names, spec, span⟩ :: rest, h => by
    rw [fieldsOf]
    have hspec := namesOnly_child (h ⟨names, spec, span⟩ (.head _))
      (List.mem_append_right _ (.head _))
    exact (typeOfSpec_confines none spec hspec).bind fun _ htype =>
      (defineFields_confines owner? sect htype names).bind fun _ hfields =>
        (fieldsOf_confines owner? sect rest fun f hf => h f (.tail _ hf)).bind fun _ hothers =>
          .pure (namesOnly_append.2 ⟨hfields, hothers⟩)

theorem memberOf_confines (owner? : Option Ident) (sect : SectionKind) : ∀ m : ObjectMember,
    NamesOnly qs (Node.ofMember m) → Confines own qs (MembersOnly qs) (memberOf owner? sect m)
  | .field ⟨names, spec, _⟩, h => by
    rw [memberOf]
    exact (typeOfSpec_confines none spec
      (namesOnly_child h (List.mem_append_right _ (.head _)))).bind fun _ htype =>
        (defineFields_confines owner? sect htype names).bind fun _ hfields =>
          .pure ⟨hfields, namesOnly_nil⟩
  | .method ⟨dispatch, name, params, result, _⟩, h => by
    rw [memberOf]
    exact (paramsOf_confines params
      (namesOnly_mapped h fun _ hn => .tail _ (List.mem_append_left _ hn))).bind fun _ htypes =>
        (resultOf_confines result fun spec hspec => namesOnly_child h (.tail _
          (List.mem_append_right _ (List.mem_map_of_mem (Option.mem_toList.2 hspec))))).bind
            fun _ hresult => (defineMethod_confines owner? sect dispatch name
              (Signature.namesOnly_iff.2 ⟨htypes, hresult⟩)).bind fun _ hmethods =>
                .pure ⟨namesOnly_nil, hmethods⟩

theorem membersOf_confines (owner? : Option Ident) (sect : SectionKind) :
    ∀ members : List ObjectMember, (∀ m ∈ members, NamesOnly qs (Node.ofMember m)) →
    Confines own qs (MembersOnly qs) (membersOf owner? sect members)
  | [], _ => by
    rw [membersOf]
    exact .pure ⟨namesOnly_nil, namesOnly_nil⟩
  | m :: rest, h => by
    rw [membersOf]
    exact (memberOf_confines owner? sect m (h m (.head _))).bind fun _ hms =>
      (membersOf_confines owner? sect rest fun m' hm' => h m' (.tail _ hm')).bind fun _ hms' =>
        .pure (hms.append hms')

theorem sectionsOf_confines (owner? : Option Ident) : ∀ sections : List ObjectSection,
    (∀ s ∈ sections, NamesOnly qs (Node.objectSection s)) →
    Confines own qs (MembersOnly qs) (sectionsOf owner? sections)
  | [], _ => by
    rw [sectionsOf]
    exact .pure ⟨namesOnly_nil, namesOnly_nil⟩
  | ⟨kind, members, span⟩ :: rest, h => by
    rw [sectionsOf]
    exact (membersOf_confines owner? kind members
      (namesOnly_mapped (h ⟨kind, members, span⟩ (.head _)) (List.Subset.refl _))).bind
        fun _ hms => (sectionsOf_confines owner? rest fun s hs => h s (.tail _ hs)).bind
          fun _ hms' => .pure (hms.append hms')

end

theorem signatureOf_confines {params : List Param}
    (hparams : ∀ p ∈ params, NamesOnly qs (Node.param p)) {result : Option TypeSpec}
    (hresult : ∀ spec, result = some spec → NamesOnly qs (Node.typeSpec spec)) :
    Confines own qs (NamesOnly qs) (signatureOf params result) :=
  (paramsOf_confines params hparams).bind fun _ htypes =>
    (resultOf_confines result hresult).bind fun _ hresult =>
      .pure (Signature.namesOnly_iff.2 ⟨htypes, hresult⟩)

/-! ## Declarations -/

theorem declareType_confines {d : TypeDecl} (h : NamesOnly qs (Node.decl (.type d))) :
    Confines own qs (fun _ => True) (declareType d) := by
  refine (define_confines_of_kind Ty.namesOnly_unknown rfl (by rintro ⟨⟩)).bind fun id? _ =>
    (typeOfSpec_confines (some d.name) d.type (namesOnly_child h (.tail _ (.head _)))).bind
      fun type htype => ?_
  cases id? with
  | some id => exact modifyTable_confines fun _ ht => ht.retype id htype
  | none => exact .pure trivial

theorem constType_confines {d : ConstDecl} (h : NamesOnly qs (Node.decl (.const d))) :
    Confines own qs (NamesOnly qs) (constType d) := by
  refine (checkExpr_confines d.value).bind fun value hvalue => ?_
  split
  · exact .pure hvalue
  · next spec hspec =>
    have hspec : NamesOnly qs (Node.typeSpec spec) := by
      refine namesOnly_child h (.tail _ (List.mem_append_left _ ?_))
      rw [hspec]
      exact .head _
    refine (typeOfSpec_confines none spec hspec).bind fun declared hdeclared =>
      (assignable_confines hdeclared hvalue).bind fun fits _ => ?_
    dsimp only
    split
    · exact .pure hdeclared
    · exact (error_confines _ _ _).bind fun _ _ => .pure hdeclared

theorem declareConst_confines {d : ConstDecl} (h : NamesOnly qs (Node.decl (.const d))) :
    Confines own qs (fun _ => True) (declareConst d) :=
  (constType_confines h).bind fun _ htype =>
    (define_confines_of_kind htype rfl (by rintro ⟨⟩)).bind fun _ _ => .pure trivial

theorem checkInit_confines {type : Ty} (htype : NamesOnly qs type) (init : Expr) :
    Confines own qs (fun _ => True) (checkInit type init) := by
  refine (checkExpr_confines init).bind fun value hvalue =>
    (assignable_confines htype hvalue).bind fun fits _ => ?_
  split
  · exact .pure trivial
  · exact error_confines _ _ _

theorem declareVars_confines {d : VarDecl} (h : NamesOnly qs (Node.decl (.var d))) :
    Confines own qs (fun _ => True) (declareVars d) :=
  (typeOfSpec_confines none d.type (namesOnly_child h (List.mem_append_right _ (.head _)))).bind
    fun _ htype => (Confines.optionForM fun init _ => checkInit_confines htype init).bind
      fun _ _ => .forM fun n _ =>
        (define_confines_of_kind htype rfl (by rintro ⟨⟩)).bind fun _ _ => .pure trivial

theorem declareProcedure_confines {d : ProcDecl} (h : NamesOnly qs (Node.decl (.procedure d))) :
    Confines own qs (fun _ => True) (declareProcedure d) := by
  have hheading : NamesOnly qs (Node.procHeading d.heading) := namesOnly_child h (.head _)
  refine (signatureOf_confines
    (namesOnly_mapped hheading fun _ hn => .tail _ (List.mem_append_left _ hn))
    fun spec hspec => namesOnly_child hheading (.tail _ (List.mem_append_right _
      (List.mem_map_of_mem (Option.mem_toList.2 hspec))))).bind fun signature hsignature =>
        (Confines.modify fun s hs => ?_).bind fun _ _ => (define_confines_of_kind
          (Ty.namesOnly_procedure.2 hsignature) rfl (by rintro ⟨⟩)).bind fun _ _ => .pure trivial
  refine ⟨hs.table, hs.asked, hs.imports, hs.pending, fun e he => ?_⟩
  rcases List.mem_cons.1 he with rfl | he
  · exact hsignature
  · exact hs.signatures e he

theorem declare_confines {d : Decl} (h : NamesOnly qs (Node.decl d)) :
    Confines own qs (fun _ => True) (declare d) := by
  cases d with
  | type d => exact declareType_confines h
  | const d => exact declareConst_confines h
  | var d => exact declareVars_confines h
  | procedure d => exact declareProcedure_confines h
  | objectImpl d => exact .pure trivial

theorem declareAll_confines {ds : List Decl} (h : ∀ d ∈ ds, NamesOnly qs (Node.decl d)) :
    Confines own qs (fun _ => True) (declareAll ds) := .forM fun d hd => declare_confines (h d hd)

/-- A type name that was noted is looked up where it stands in the tree. -/
theorem checkPendingType_confines {p : PendingType} (hp : NamesOnly qs p.module?) :
    Confines own qs (fun _ => True) (checkPendingType p) := by
  refine (lookup_confines (fun m hm _ => hp m hm) p.name p.scope).bind fun found hfound => ?_
  cases found with
  | found b =>
    refine (isPlaceholder_confines b).bind fun known _ => ?_
    split
    · exact .pure trivial
    · refine (bindingSymbol?_confines (hfound b rfl)).bind fun s? _ => ?_
      cases s? with
      | none => exact .pure trivial
      | some s =>
        dsimp only
        split
        · split
          · exact modifyTable_confines fun _ ht => ht.refer _ _ _
          · exact .pure trivial
        · exact error_confines _ _ _
  | unknowable => exact .pure trivial
  | missing => exact error_confines _ _ _

theorem checkPendingTypes_confines : Confines own qs (fun _ => True) checkPendingTypes :=
  .get fun _ hs => .forM fun p hp =>
    checkPendingType_confines (hs.pending p (List.mem_reverse.1 hp))

/-! ## Routines -/

theorem defineParams_confines (mode : ParamMode) (names : List Ident) {types : List ParamType}
    (htypes : NamesOnly qs types) :
    Confines own qs (fun r => NamesOnly qs r.2) (defineParams mode names types) := by
  induction names generalizing types with
  | nil => exact .pure htypes
  | cons n ns ih =>
    have hfirst : NamesOnly qs ((types.head?.map (·.type)).getD .unknown) := by
      cases types with
      | nil => exact Ty.namesOnly_unknown
      | cons p ps => exact (namesOnly_cons.1 htypes).1
    exact (define_confines_of_kind hfirst rfl (by rintro ⟨⟩)).bind fun _ _ =>
      (ih fun p hp => htypes p (List.mem_of_mem_tail hp)).bind fun _ hrest => .pure hrest

theorem defineAllParams_confines (params : List Param) {types : List ParamType}
    (htypes : NamesOnly qs types) :
    Confines own qs (fun _ => True) (defineAllParams params types) := by
  induction params generalizing types with
  | nil => exact .pure trivial
  | cons p rest ih =>
    obtain ⟨mode, names, spec, span⟩ := p
    refine (defineParams_confines mode names htypes).bind fun _ hleft => ?_
    exact (ih hleft).bind fun _ _ => .pure trivial

theorem reportUnused_confines (id : Nat) : Confines own qs (fun _ => True) (reportUnused id) := by
  refine (symbol?_confines id).bind fun s? _ => ?_
  cases s? with
  | none => exact .pure trivial
  | some s =>
    dsimp only
    split
    · refine .get fun st _ => ?_
      split
      · exact warning_confines _ _ _
      · refine .table fun t _ => ?_
        split
        · exact warning_confines _ _ _
        · exact .pure trivial
    · exact .pure trivial

theorem inRoutine_confines {result? : Option Ty} (hresult : NamesOnly qs result?) (outs : List Nat)
    {step : Check Unit} (hstep : Confines own qs (fun _ => True) step) :
    Confines own qs (fun _ => True) (inRoutine result? outs step) := by
  have setOuts (outs : List (Nat × OutState)) :
      Confines own qs (fun _ => True) (modify fun s => { s with outParams := outs }) :=
    .modify fun _ hs => ⟨hs.table, hs.asked, hs.imports, hs.pending, hs.signatures⟩
  refine .get fun around _ => (setOuts _).bind fun _ _ =>
    (Confines.withReader (fun env henv => ?_) hstep).bind fun _ _ =>
      (Confines.table fun _ _ => .forM fun id _ => reportUnused_confines id).bind
        fun _ _ => setOuts _
  exact ⟨henv.resolver, henv.name, henv.kind, henv.objects, namesOnly_some.2 hresult⟩

theorem checkRoutine_confines (params : List Param) {signature : Signature}
    (hsignature : NamesOnly qs signature) {locals : List Decl}
    (hlocals : ∀ d ∈ locals, NamesOnly qs (Node.decl d)) {bodies : Check Unit}
    (hbodies : Confines own qs (fun _ => True) bodies) (body : List Stmt) :
    Confines own qs (fun _ => True) (checkRoutine params signature locals bodies body) := by
  obtain ⟨hparams, hresult⟩ := Signature.namesOnly_iff.1 hsignature
  exact (defineAllParams_confines params hparams).bind fun outs _ =>
    inRoutine_confines hresult outs <| (declareAll_confines hlocals).bind fun _ _ =>
      hbodies.bind fun _ _ => checkBlock_confines body

/-! ## Methods -/

theorem checkMethodName_confines (name : Ident) :
    Confines own qs (fun _ => True) (checkMethodName name) := by
  refine .read fun env _ => ?_
  split
  · exact .pure trivial
  · next o _ =>
    split
    · split
      · refine (memberSymbol?_confines o.name name.name).bind fun id? _ => ?_
        cases id? with
        | some id => exact refer_confines id name.span
        | none => exact .pure trivial
      · exact .pure trivial
    · exact error_confines _ _ _

theorem implementedObject_confines (name : Ident) :
    Confines own qs (NamesOnly qs) (implementedObject name) := by
  refine (findObject_confines namesOnly_none name.name).bind fun o? ho => ?_
  extract_lets _ rest
  have referred (done : Unit) (_ : True) : Confines own qs (NamesOnly qs) (rest done) := by
    refine .table fun t _ => ?_
    split
    · split
      · exact (refer_confines _ _).bind fun _ _ => .pure ho
      · exact .pure ho
    · exact .pure ho
  split
  · refine suppressUnknown_confines.bind fun suppressed _ => ?_
    split
    · exact referred () trivial
    · exact (error_confines _ _ _).bind referred
  · exact referred () trivial

theorem inObject_confines {o? : Option ResolvedObject} (ho : NamesOnly qs o?) (span : Span)
    {step : Check Unit} (hstep : Confines own qs (fun _ => True) step) :
    Confines own qs (fun _ => True) (inObject o? span step) := by
  have inside (resolved : Bool) (_ : True) : Confines own qs (fun _ => True)
      (inScope .object span do
        let context : ObjectContext := ⟨← currentScope, o?, resolved⟩
        withReader (fun env => { env with objects := context :: env.objects }) step) := by
    refine inScope_confines .object span (currentScope_confines.bind fun scope _ =>
      .withReader (fun env henv => ?_) hstep)
    exact ⟨henv.resolver, henv.name, henv.kind, List.forall_mem_cons.2 ⟨ho, henv.objects⟩,
      henv.routine⟩
  cases o? with
  | none => exact (Confines.pure trivial).bind inside
  | some o => exact (chainResolved_confines (namesOnly_some.1 ho)).bind inside

/-! ## Bodies -/

mutual

theorem checkBodyOf_confines : ∀ d : Decl, NamesOnly qs (Node.decl d) →
    Confines own qs (fun _ => True) (checkBodyOf d)
  | .procedure ⟨heading, locals, body, isForward, span⟩, h => by
    rw [checkBodyOf]
    split
    · exact .pure trivial
    · have hlocals := namesOnly_mapped h fun _ hn => .tail _ (List.mem_append_left _ hn)
      refine .get fun s hs => inScope_confines .procedure span (checkRoutine_confines _ ?_ hlocals
        (checkBodies_confines locals hlocals) body)
      refine namesOnly_getD (fun signature hfind => ?_)
        (Signature.namesOnly_iff.2 ⟨namesOnly_nil, namesOnly_none⟩)
      obtain ⟨l, r, hl, -⟩ := List.lookup_eq_some_iff.1 hfind
      refine hs.signatures (heading.span.start.offset, signature) ?_
      rw [hl]
      exact List.mem_append_right _ (.head _)
  | .objectImpl ⟨name, methods, span⟩, h => by
    rw [checkBodyOf]
    exact (implementedObject_confines name).bind fun _ ho => inObject_confines ho span
      (checkMethods_confines methods (namesOnly_mapped h (List.subset_cons_self _ _)))
  | .type _, _ | .const _, _ | .var _, _ => by
    rw [checkBodyOf]
    exact .pure trivial

theorem checkBodies_confines : ∀ ds : List Decl, (∀ d ∈ ds, NamesOnly qs (Node.decl d)) →
    Confines own qs (fun _ => True) (checkBodies ds)
  | [], _ => by
    rw [checkBodies]
    exact .pure trivial
  | d :: ds, h => by
    rw [checkBodies]
    exact (checkBodyOf_confines d (h d (.head _))).bind fun _ _ =>
      checkBodies_confines ds fun d' hd' => h d' (.tail _ hd')

theorem checkMethods_confines : ∀ methods : List MethodImpl,
    (∀ m ∈ methods, NamesOnly qs (Node.methodImpl m)) →
    Confines own qs (fun _ => True) (checkMethods methods)
  | [], _ => by
    rw [checkMethods]
    exact .pure trivial
  | ⟨heading, locals, body, span⟩ :: rest, h => by
    rw [checkMethods]
    have hmethod := h ⟨heading, locals, body, span⟩ (.head _)
    have hheading : NamesOnly qs (Node.methodHeading heading) := namesOnly_child hmethod (.head _)
    have hlocals := namesOnly_mapped hmethod fun _ hn => .tail _ (List.mem_append_left _ hn)
    exact (checkMethodName_confines heading.name).bind fun _ _ => (signatureOf_confines
      (namesOnly_mapped hheading fun _ hn => .tail _ (List.mem_append_left _ hn))
      fun spec hspec => namesOnly_child hheading (.tail _ (List.mem_append_right _
        (List.mem_map_of_mem (Option.mem_toList.2 hspec))))).bind fun _ hsignature =>
          (inScope_confines .method span (checkRoutine_confines _ hsignature hlocals
            (checkBodies_confines locals hlocals) body)).bind fun _ _ =>
              checkMethods_confines rest fun m hm => h m (.tail _ hm)

end

/-! ## The rules for object types -/

theorem mismatch_confines (name : String) (span : Span) (s : Signature) (base : Member)
    (baseSignature : Signature) :
    Confines own qs (fun _ => True) (mismatch name span s base baseSignature) := by
  unfold mismatch
  extract_lets _ _ rest
  have placed (declared? : Option Nat) (_ : True) :
      Confines own qs (fun _ => True) (rest declared?) := by
    cases declared? with
    | none => exact (Confines.pure (P := fun _ => True) trivial).bind fun _ _ => .pure trivial
    | some id => exact (symbol?_confines id).bind fun _ _ => .pure trivial
  split
  · exact (Confines.pure trivial).bind placed
  · exact (memberSymbol?_confines _ _).bind placed

theorem checkOverride_confines {o : ResolvedObject} (ho : NamesOnly qs o) (resolved : Bool)
    (span : Span) (name : String) (method : MethodInfo) :
    Confines own qs (fun _ => True) (checkOverride o resolved span name method) := by
  refine (baseMethod_confines ho name).bind fun base? _ => ?_
  cases base? with
  | none =>
    dsimp only
    split
    · exact error_confines _ _ _
    · exact .pure trivial
  | some base =>
    dsimp only
    split
    · exact .pure trivial
    · split
      · exact warning_confines _ _ _
      · split
        · exact (mismatch_confines _ _ _ _ _).bind fun _ _ => report_confines _
        · exact .pure trivial

theorem checkOverrides_confines {o : ResolvedObject} (ho : NamesOnly qs o) (resolved : Bool)
    (decl : ObjectDecl) (span : Span) (methods : List (String × MethodInfo)) :
    Confines own qs (fun _ => True) (checkOverrides o resolved decl span methods) := by
  induction methods with
  | nil => exact .pure trivial
  | cons m rest ih =>
    exact .table fun _ _ => (checkOverride_confines ho resolved _ _ _).bind fun _ _ => ih

theorem checkObjectType_confines (decl : ObjectDecl) :
    Confines own qs (fun _ => True) (checkObjectType decl) := by
  refine (symbol?_confines decl.symbol).bind fun s? hs => ?_
  cases s? with
  | none => exact .pure trivial
  | some s =>
    dsimp only
    split
    · next info hinfo =>
      have htype : NamesOnly qs s.type := (hs s rfl).1
      have ho : NamesOnly qs (⟨decl.name, info, none⟩ : ResolvedObject) :=
        ⟨show NamesOnly qs (Ty.object info) from hinfo ▸ htype, namesOnly_none⟩
      refine (inheritsItself_confines ho).bind fun circular _ => ?_
      split
      · exact error_confines _ _ _
      · exact (chainResolved_confines ho).bind fun _ _ => checkOverrides_confines ho _ _ _ _
    · exact .pure trivial

theorem checkObjectTypes_confines : Confines own qs (fun _ => True) checkObjectTypes :=
  .get fun _ _ => .forM fun d _ => checkObjectType_confines d

/-! ## Modules -/

theorem checkExport_confines (e : Export) : Confines own qs (fun _ => True) (checkExport e) := by
  refine .forM fun n _ => .table fun t _ => ?_
  split
  · exact refer_confines _ _
  · exact error_confines _ _ _

/-- A module that imports nothing asks for no modules but those that it names in front of types. -/
theorem checkModule_confines {m : Module} (himports : m.imports = []) :
    Confines m.name.name (Node.module m).qualifiers (fun _ => True) (checkModule m) := by
  have hm : NamesOnly (Node.module m).qualifiers (Node.module m) := List.Subset.refl _
  have hdecls : ∀ d ∈ m.decls, NamesOnly (Node.module m).qualifiers (Node.decl d) :=
    namesOnly_mapped hm fun _ hn =>
      .tail _ (List.mem_append_left _ (List.mem_append_right _ hn))
  have named : Confines m.name.name (Node.module m).qualifiers (fun _ => True)
      (define { name := m.name.name, kind := .module, span := m.name.span }) :=
    define_confines ⟨Ty.namesOnly_unknown, namesOnly_none⟩ fun _ => rfl
  unfold checkModule
  rw [himports]
  exact named.bind fun _ _ => (Confines.forM nofun).bind fun _ _ =>
    (declareAll_confines hdecls).bind fun _ _ => (checkBodies_confines m.decls hdecls).bind
      fun _ _ => checkObjectTypes_confines.bind fun _ _ =>
        (Confines.optionForM fun body _ => checkBlock_confines body).bind fun _ _ =>
          (Confines.forM fun e _ => checkExport_confines e).bind fun _ _ =>
            checkPendingTypes_confines

end Check

/-- What a module that imports nothing remembers of others, if none is known. -/
theorem confined_after {m : Module} (himports : m.imports = []) (hkind : m.kind ≠ .implementation) :
    (CheckState.after none m).Confined m.name.name (Node.module m).qualifiers := by
  have henv : (Env.ofModule none m).Confined m.name.name (Node.module m).qualifiers :=
    ⟨rfl, rfl, hkind, (fun _ h => nomatch h), namesOnly_none⟩
  have hs : (CheckState.ofModule m).Confined m.name.name (Node.module m).qualifiers :=
    ⟨SymbolTable.confined_new _ _, (fun _ h => nomatch h), rfl, (fun _ h => nomatch h),
      (fun _ h => nomatch h)⟩
  exact (Check.checkModule_confines himports _ _ henv hs).2

/-- A module that imports nothing asks for no modules but those that it names in front of types, if
none of them is known. -/
theorem asked_of_unknown_qualifiers {m : Module} {r : Resolver} (himports : m.imports = [])
    (hkind : m.kind ≠ .implementation)
    (hunknown : ∀ name ∈ (Node.module m).qualifiers, name ≠ m.name.name → r.find? name = none) :
    ∀ name ∈ (analyze (some r) m).asked,
      name ∈ (Node.module m).qualifiers ∧ name ≠ m.name.name := by
  have hconfined := (confined_after himports hkind).asked
  have hsame : CheckState.after (some r) m = (CheckState.after none m).askedOf (some r) := by
    refine after_of_answers { (Env.ofModule none m).head with alone := true } rfl
      (fun _ => himports) (fun h => Bool.noConfusion h) fun e he => ?_
    obtain ⟨hqualifier, hown, hnone⟩ := hconfined e he
    rw [hnone]
    exact hunknown e.1 hqualifier hown
  intro name hname
  rw [analyze_asked, List.mem_reverse, hsame] at hname
  obtain ⟨e, he, rfl⟩ := List.mem_map.1 hname
  exact ⟨(hconfined e he).1, (hconfined e he).2.1⟩

end SimFront
