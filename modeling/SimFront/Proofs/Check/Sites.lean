import SimFront.Proofs.Check.Uses

/-!
# Sites of types

One lemma for each step of the checks of type specifications, in the order of the steps: it
records at most at the nodes of the tree that it checks.
-/

namespace SimFront.Check

open CheckState (Quiet Recorded)
open Node (all)

variable {head : ModuleHead}

/-! ## Type specifications -/

theorem typeOfName_records (q : QualIdent) : Records head (all [.qualIdent q]) (typeOfName q) := by
  have noted : Records head (all [.ident q.name]) (typeOfName q) := by
    unfold typeOfName
    dsimp only
    split
    · exact .pure _
    · refine currentScope_query.still.after fun scope => ?_
      have note : Records head (all [.ident q.name]) _ :=
        note_records ⟨q.module?.map (·.name), q.name.name, q.name.span, scope⟩
      exact note.then fun _ => .nothing _
  exact (noted.within (List.sublist_append_right _ _).subperm).node

theorem checkArrayIndex_records (index : ArrayIndex) :
    Records head (all [.arrayIndex index]) (checkArrayIndex index) := by
  cases index with
  | range low high span =>
    exact ((checkValue_records low).seq fun _ => checkValue_records high).node
  | type name => exact ((typeOfName_records name).then fun _ => .nothing _).node

theorem defineEnumValues_records (owner? : Option Ident) (values : List Ident) :
    Records head (all (values.map .ident)) (defineEnumValues owner? values) :=
  forM_map_records (fun _ => (define_records rfl rfl).then fun _ => .nothing _) values

theorem defineFields_records (owner? : Option Ident) (sect : SectionKind) (type : Ty)
    (names : List Ident) :
    Records head (all (names.map .ident)) (defineFields owner? sect type names) := by
  induction names with
  | nil => exact .pure _
  | cons n ns ih => exact (define_records rfl rfl).seq fun _ => ih.then fun _ => .nothing _

theorem defineMethod_records (owner? : Option Ident) (sect : SectionKind) (dispatch : Dispatch)
    (name : Ident) (signature : Signature) :
    Records head (all [.ident name]) (defineMethod owner? sect dispatch name signature) :=
  (define_records rfl rfl).then fun _ => .nothing _

theorem noteObject_still (owner? : Option Ident) (scope : Nat) :
    Still head (noteObject owner? scope) := by
  refine (noteObject_byName owner? scope).still fun env s => ?_
  cases owner? with
  | none => exact .refl s
  | some o =>
    unfold noteObject
    rw [outcome_bind]
    split
    · exact .refl s
    · exact ⟨rfl, rfl⟩

/-! ### Parameters -/

/-- The types of some parameters. -/
def typeNodes (params : List Param) : List Node := params.map (.typeSpec ·.type)

/-- The names of some parameters. -/
def nameNodes (params : List Param) : List Node := params.flatMap (·.names.map .ident)

/-- The names and the types of parameters are different nodes of theirs. -/
theorem params_split (params : List Param) :
    all (typeNodes params) + all (nameNodes params) ≤ all (params.map .param) := by
  induction params with
  | nil => exact le_of_eq rfl
  | cons p ps ih =>
    have heads : all [.typeSpec p.type] + all (p.names.map .ident) ≤ all [.param p] := by
      rw [Node.all_singleton (.param p), add_comm, ← Node.all_append]
      exact Multiset.le_cons_self _ _
    have htypes : typeNodes (p :: ps) = [.typeSpec p.type] ++ typeNodes ps := rfl
    have hnames : nameNodes (p :: ps) = p.names.map .ident ++ nameNodes ps := rfl
    rw [htypes, hnames, List.map_cons, Node.all_cons, Node.all_append, Node.all_append,
      add_add_add_comm]
    exact add_le_add heads ih

theorem typeNodes_le (params : List Param) : all (typeNodes params) ≤ all (params.map .param) :=
  le_trans (Multiset.le_add_right _ _) (params_split params)

theorem signature_le (params : List Param) (result : List Node) :
    all (typeNodes params ++ result) ≤ all (params.map .param ++ result) := by
  rw [Node.all_append, Node.all_append]
  exact add_le_add_left (typeNodes_le params) _

mutual

theorem typeOfSpec_records (owner? : Option Ident) : ∀ spec : TypeSpec,
    Records head (all [.typeSpec spec]) (typeOfSpec owner? spec)
  | .named name => by
    rw [typeOfSpec]
    exact (typeOfName_records name).node
  | .array indices element _ => by
    rw [typeOfSpec]
    exact ((forM_map_records checkArrayIndex_records indices).seq fun _ =>
      (typeOfSpec_records none element).then fun _ => .nothing _).node
  | .record fields span => by
    rw [typeOfSpec]
    have inside : Records head (all [.typeSpec (.record fields span)])
        (inScope .record (Node.typeSpec (.record fields span)).span (fieldsOf owner? .public_ fields)) :=
      inScope_node (fieldsOf_records owner? .public_ fields)
    exact inside.then fun _ => .nothing _
  | .pointer target _ => by
    rw [typeOfSpec]
    exact ((typeOfSpec_records none target).then fun _ => .nothing _).node
  | .set element _ => by
    rw [typeOfSpec]
    exact ((typeOfSpec_records none element).then fun _ => .nothing _).node
  | .enum values _ => by
    rw [typeOfSpec]
    exact ((defineEnumValues_records owner? values).then fun _ => .nothing _).node
  | .subrange low high _ => by
    rw [typeOfSpec]
    exact ((checkExpr_records low).seq fun _ => (checkValue_records high).then fun _ =>
      .nothing _).node
  | .procedure params result _ => by
    rw [typeOfSpec]
    have types : Records head (all (typeNodes params ++ result.toList.map .typeSpec)) (do
        let types ← paramsOf params
        let resultType ← resultOf result
        pure (Ty.procedure ⟨types, resultType⟩)) :=
      (paramsOf_records params).seq fun _ => (resultOf_records result).then fun _ => .nothing _
    exact (types.weaken (signature_le params _)).node
  | .object ⟨bases, sections, span⟩ => by
    rw [typeOfSpec]
    let n : Node := .typeSpec (.object ⟨bases, sections, span⟩)
    have below : ∀ m ∈ all (sections.map .objectSection), m ∈ n.preorder := by
      intro m hm
      rw [← Node.mem_all_singleton, Node.all_singleton]
      refine Multiset.mem_cons_of_mem ?_
      rw [show n.children = bases.map .qualIdent ++ sections.map .objectSection from rfl,
        Node.all_append]
      exact Multiset.mem_add.2 (.inr hm)
    have members : Records head (all (sections.map .objectSection)) (do
        let scope ← currentScope
        let members ← sectionsOf owner? sections
        pure (scope, members)) :=
      currentScope_query.still.after fun scope =>
        (sectionsOf_records owner? sections).then fun _ => .nothing _
    have inside (baseTypes : List Ty) : Records head (n ::ₘ all (sections.map .objectSection) + 0)
        (do
          modifyTable (·.enter .object n.span)
          let r ← (do
            let scope ← currentScope
            let members ← sectionsOf owner? sections
            pure (scope, members))
          modifyTable (·.leave)
          noteObject owner? r.1
          pure (Ty.object ⟨baseTypes, Members.ofList r.2.1, Members.ofList r.2.2⟩)) :=
      members.scoped below fun r => (noteObject_still owner? r.1).after fun _ => .pure _
    have whole := (mapM_records typeOfName_records bases).bind inside
    refine RecordsWhen.weaken whole (le_of_eq ?_)
    rw [Node.all_singleton n,
      show n.children = bases.map .qualIdent ++ sections.map .objectSection from rfl,
      Node.all_append, add_zero, Multiset.add_cons]

theorem paramsOf_records : ∀ params : List Param,
    Records head (all (typeNodes params)) (paramsOf params)
  | [] => by
    rw [paramsOf]
    exact .pure _
  | ⟨mode, names, spec, _⟩ :: rest => by
    rw [paramsOf]
    exact (typeOfSpec_records none spec).seq fun _ => (paramsOf_records rest).then fun _ => .nothing _

theorem resultOf_records : ∀ spec? : Option TypeSpec,
    Records head (all (spec?.toList.map .typeSpec)) (resultOf spec?)
  | none => by
    rw [resultOf]
    exact .pure _
  | some spec => by
    rw [resultOf]
    exact (typeOfSpec_records none spec).then fun _ => .nothing _

theorem fieldsOf_records (owner? : Option Ident) (sect : SectionKind) :
    ∀ fields : List FieldDecl, Records head (all (fields.map .fieldDecl)) (fieldsOf owner? sect fields)
  | [] => by
    rw [fieldsOf]
    exact .pure _
  | ⟨names, spec, span⟩ :: rest => by
    rw [fieldsOf]
    have field : Records head (all [.fieldDecl ⟨names, spec, span⟩]) (do
        let type ← typeOfSpec none spec
        defineFields owner? sect type names) :=
      (((typeOfSpec_records none spec).seq fun type =>
        defineFields_records owner? sect type names).perm List.perm_append_comm).node
    exact field.seq fun _ => (fieldsOf_records owner? sect rest).then fun _ => .nothing _

theorem memberOf_records (owner? : Option Ident) (sect : SectionKind) :
    ∀ m : ObjectMember, Records head (all [Node.ofMember m]) (memberOf owner? sect m)
  | .field ⟨names, spec, _⟩ => by
    rw [memberOf]
    exact (((typeOfSpec_records none spec).seq fun type =>
      (defineFields_records owner? sect type names).then fun _ => .nothing _).perm
        List.perm_append_comm).node
  | .method ⟨dispatch, name, params, result, _⟩ => by
    rw [memberOf]
    have method : Records head (all ((typeNodes params ++ result.toList.map .typeSpec) ++
        [.ident name])) (do
          let types ← paramsOf params
          let resultType ← resultOf result
          pure (([] : List (String × Ty)),
            ← defineMethod owner? sect dispatch name ⟨types, resultType⟩)) := by
      rw [List.append_assoc]
      exact (paramsOf_records params).seq fun _ => (resultOf_records result).seq fun _ =>
        (defineMethod_records owner? sect dispatch name _).then fun _ => .nothing _
    refine (method.weaken ?_).node
    show _ ≤ all ([.ident name] ++ (params.map .param ++ result.toList.map .typeSpec))
    rw [Node.all_append, Node.all_append [_], add_comm]
    exact add_le_add_right (signature_le params _) _

theorem membersOf_records (owner? : Option Ident) (sect : SectionKind) :
    ∀ members : List ObjectMember,
      Records head (all (members.map Node.ofMember)) (membersOf owner? sect members)
  | [] => by
    rw [membersOf]
    exact .pure _
  | m :: rest => by
    rw [membersOf]
    exact (memberOf_records owner? sect m).seq fun _ =>
      (membersOf_records owner? sect rest).then fun _ => .nothing _

theorem sectionsOf_records (owner? : Option Ident) :
    ∀ sections : List ObjectSection,
      Records head (all (sections.map .objectSection)) (sectionsOf owner? sections)
  | [] => by
    rw [sectionsOf]
    exact .pure _
  | ⟨kind, members, span⟩ :: rest => by
    rw [sectionsOf]
    have first : Records head (all [.objectSection ⟨kind, members, span⟩])
        (membersOf owner? kind members) := (membersOf_records owner? kind members).node
    exact first.seq fun _ => (sectionsOf_records owner? rest).then fun _ => .nothing _

end

theorem signatureOf_records (params : List Param) (result : Option TypeSpec) :
    Records head (all (typeNodes params ++ result.toList.map .typeSpec)) (signatureOf params result) :=
  (paramsOf_records params).seq fun _ => (resultOf_records result).then fun _ => .nothing _

end SimFront.Check
