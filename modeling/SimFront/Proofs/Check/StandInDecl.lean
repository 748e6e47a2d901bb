import SimFront.Proofs.Check.StandIn
import SimFront.Proofs.Check.TouchesStmt
import SimFront.Check.Decl

/-!
# Declarations beside a stand-in

A declaration of other names leaves the name to its stand-in (`declare_leaves`), and reports
on it stand beside the uses of the name.
-/

namespace SimFront

namespace Missing

variable {k : Missing} {env : Env} {s : CheckState} {n c : Node}

/-- A tree in which the name is not declared, and in which reports are allowed beside its
uses. -/
structure Spares (k : Missing) (n : Node) : Prop where
  covers : Check.Covers k.place (some k.name) n
  others : ∀ m ∈ n.preorder, ∀ i ∈ m.declares, i.name ≠ k.name
  mentioned : ∀ m ∈ n.preorder, ∀ i ∈ m.mentions, i.name = k.name → k.mentioned i.span

/-- An identifier that may be declared. -/
structure Allows (k : Missing) (i : Ident) : Prop where
  ne : i.name ≠ k.name
  span : k.place i.span

namespace Spares

theorem child (h : k.Spares n) (hc : c ∈ n.children)
    (huse : Node.isUse (some k.name) n c = false) : k.Spares c where
  covers := h.covers.child hc huse
  others m hm := h.others m (Node.mem_preorder_of_child hc hm)
  mentioned m hm := h.mentioned m (Node.mem_preorder_of_child hc hm)

theorem mapped {α : Type} {f : α → Node} {as : List α} (h : k.Spares n)
    (hsub : as.map f ⊆ n.children) (huse : ∀ a ∈ as, Node.isUse (some k.name) n (f a) = false) :
    ∀ a ∈ as, k.Spares (f a) :=
  fun a ha => h.child (hsub (List.mem_map_of_mem ha)) (huse a ha)

theorem allows (h : k.Spares n) {i : Ident} (hc : .ident i ∈ n.children) (hi : i ∈ n.declares)
    (huse : Node.isUse (some k.name) n (.ident i) = false) : k.Allows i where
  ne := h.others n n.mem_preorder_self i hi
  span := (h.covers.child hc huse).self rfl

end Spares

namespace Holds

theorem withTable (h : k.Holds env s) {t : SymbolTable} (ht : t.StandIn k.name k.id? k.place)
    (hsize : s.table.scopes.size ≤ t.scopes.size) : k.Holds env { s with table := t } :=
  { h with
    faithful := h.faithful.of_same rfl rfl rfl
    table := ht
    pending := fun p hp => ⟨Nat.lt_of_lt_of_le (h.pending p hp).1 hsize, (h.pending p hp).2⟩ }

theorem report (h : k.Holds env s) {d : Diagnostic} (hd : k.place d.span) :
    k.Holds env { s with reports := d :: s.reports } :=
  { h with
    faithful := h.faithful.of_same rfl rfl rfl
    reports := List.forall_mem_cons.2 ⟨hd, h.reports⟩ }

/-- A type name is noted, which is the name or one on which reports are allowed. -/
theorem note (h : k.Holds env s) {p : PendingType} (hscope : p.scope < s.table.scopes.size)
    (hname : p.module? = none ∧ p.name = k.name ∧ k.mentioned p.span ∨ k.place p.span) :
    k.Holds env { s with pendingTypes := p :: s.pendingTypes } :=
  { h with
    faithful := h.faithful.of_same rfl rfl rfl
    pending := List.forall_mem_cons.2 ⟨⟨hscope, hname⟩, h.pending⟩ }

theorem withOutParams (h : k.Holds env s) {outs : List (Nat × OutState)}
    (houts : ∀ id, k.id? = some id → List.lookup id outs = none) :
    k.Holds env { s with outParams := outs } :=
  { h with
    faithful := h.faithful.of_same rfl rfl rfl
    outs := houts }

end Holds

end Missing

namespace Check

variable {α β : Type} {k : Missing}

/-- Every run of the step leaves the name to the stand-in, and comes to a value as `P` says. -/
abbrev Leaves (k : Missing) (P : α → Prop) (p : Check α) : Prop := Leads k.standing k.standing P p

/-! ## Declaring -/

/-- A symbol of another name is declared, which is not the stand-in. -/
theorem define_leaves {symbol : Symbol} (hname : symbol.name ≠ k.name) (hspan : k.place symbol.span)
    (htype : symbol.kind = .type → symbol.type.LacksMember k.name) :
    Leaves k (fun id? => ∀ id, id? = some id → k.id? ≠ some id) (define symbol) := by
  intro env s hs
  unfold define
  rw [outcome_bind, show table.outcome env s = (s.table, s) from rfl]
  dsimp only
  cases hdefine : s.table.define symbol with
  | error d => exact ⟨hs.report hspan, fun _ h => by cases h⟩
  | ok result =>
    obtain ⟨id, t⟩ := result
    refine ⟨hs.withTable (hs.table.define hname hspan htype hdefine)
      (SymbolTable.extends_defineIn hdefine).scopes, fun i hi => ?_⟩
    obtain rfl := Option.some.inj hi
    exact hs.table.define_ne hdefine

/-- The declaration of an identifier that may be declared. -/
theorem defineIdent_leaves {symbol : Symbol} {i : Ident} (hi : k.Allows i)
    (hname : symbol.name = i.name) (hspan : symbol.span = i.span) (hkind : symbol.kind = .type → False) :
    Leaves k (fun id? => ∀ id, id? = some id → k.id? ≠ some id) (define symbol) :=
  define_leaves (hname ▸ hi.ne) (hspan ▸ hi.span) fun h => (hkind h).elim

theorem enter_leaves (kind : ScopeKind) (span : Span) :
    Leaves k (fun _ => True) (modifyTable (·.enter kind span)) :=
  .modify fun _ s hs => hs.withTable (hs.table.enter kind span) (s.table.extends_enter kind span).scopes

theorem leave_leaves : Leaves k (fun _ => True) (modifyTable (·.leave)) :=
  .modify fun _ s hs => hs.withTable hs.table.leave (SymbolTable.extends_leave s.table).scopes

theorem inScope_leaves {p : Check α} {P : α → Prop} (hp : Leaves k P p) (kind : ScopeKind)
    (span : Span) : Leaves k P (inScope kind span p) :=
  (enter_leaves kind span).bind fun _ _ => hp.bind fun _ ha => leave_leaves.bind fun _ _ => .pure ha

/-! ## Types -/

theorem typeOfName_leaves {q : QualIdent} (h : k.Spares (.qualIdent q)) :
    Leaves k (Ty.LacksMember k.name) (typeOfName q) := by
  unfold typeOfName
  dsimp only
  split
  · next hbuiltin => exact .pure (builtinType?_lacks hbuiltin)
  · intro env s hs
    refine ⟨hs.note hs.table.consistent.current ?_, trivial⟩
    cases hon : q.isOn (some k.name) with
    | true =>
      obtain ⟨hmodule, hname⟩ := Bool.and_eq_true_iff.1 hon
      obtain ⟨module?, name, span⟩ := q
      obtain rfl : module? = none := Option.isNone_iff_eq_none.1 hmodule
      have hsame : name.name = k.name := (Option.some.inj (of_decide_eq_true hname)).symm
      exact .inl ⟨rfl, hsame, h.mentioned _ (Node.mem_preorder_self _) name (.head _) hsame⟩
    | false =>
      exact .inr ((h.covers.child (List.mem_append_right _ (.head _)) hon).self rfl)

theorem checkArrayIndex_leaves (hI : k.Silent) {index : ArrayIndex}
    (h : k.Spares (.arrayIndex index)) :
    Leaves k (fun _ => True) (checkArrayIndex index) := by
  cases index with
  | range low high span =>
    exact (checkValue_touches hI (h.child (.head _) rfl).covers).leads.bind fun _ _ =>
      (checkValue_touches hI (h.child (.tail _ (.head _)) rfl).covers).leads
  | type name => exact (typeOfName_leaves (h.child (.head _) rfl)).bind fun _ _ => .pure trivial

theorem defineEnumValues_leaves (owner? : Option Ident) {values : List Ident}
    (h : ∀ v ∈ values, k.Allows v) : Leaves k (fun _ => True) (defineEnumValues owner? values) :=
  forM_leads fun v hv => (defineIdent_leaves (h v hv) rfl rfl (by intro h; cases h)).bind fun _ _ =>
    .pure trivial

/-- No member has the name. -/
def Unnamed (k : Missing) (members : List (String × α)) : Prop := ∀ m ∈ members, m.1 ≠ k.name

theorem defineFields_leaves (owner? : Option Ident) (sect : SectionKind) (type : Ty)
    {names : List Ident} (h : ∀ n ∈ names, k.Allows n) :
    Leaves k (Unnamed k) (defineFields owner? sect type names) := by
  induction names with
  | nil => exact .pure (List.forall_mem_nil _)
  | cons n ns ih =>
    refine (defineIdent_leaves (h n (.head _)) rfl rfl (by intro h; cases h)).bind fun id? _ => ?_
    refine (ih fun n' hn => h n' (.tail _ hn)).bind fun rest hrest => .pure ?_
    split
    · exact List.forall_mem_cons.2 ⟨(h n (.head _)).ne, hrest⟩
    · exact hrest

theorem defineMethod_leaves (owner? : Option Ident) (sect : SectionKind) (dispatch : Dispatch)
    {name : Ident} (h : k.Allows name) (signature : Signature) :
    Leaves k (Unnamed k) (defineMethod owner? sect dispatch name signature) := by
  refine (defineIdent_leaves h rfl rfl (by intro h; cases h)).bind fun id? _ => .pure ?_
  split
  · exact List.forall_mem_singleton.2 h.ne
  · exact List.forall_mem_nil _

theorem noteObject_leaves (owner? : Option Ident) (scope : Nat) :
    Leaves k (fun _ => True) (noteObject owner? scope) := by
  intro env s hs
  cases owner? with
  | none => exact ⟨hs, trivial⟩
  | some o =>
    unfold noteObject
    dsimp only
    rw [outcome_bind, show table.outcome env s = (s.table, s) from rfl]
    dsimp only
    split
    · exact ⟨hs, trivial⟩
    · exact ⟨{ hs with faithful := hs.faithful.of_same rfl rfl rfl }, trivial⟩

/-- The members of an object type, fields and methods apart. -/
abbrev MembersOther (k : Missing) (members : List (String × Ty) × List (String × MethodInfo)) : Prop :=
  Unnamed k members.1 ∧ Unnamed k members.2

theorem MembersOther.append {ms ms' : List (String × Ty) × List (String × MethodInfo)}
    (h : MembersOther k ms) (h' : MembersOther k ms') :
    MembersOther k (ms.1 ++ ms'.1, ms.2 ++ ms'.2) :=
  ⟨List.forall_mem_append.2 ⟨h.1, h'.1⟩, List.forall_mem_append.2 ⟨h.2, h'.2⟩⟩

mutual

/-- An object type that is written out gives no member the name. -/
theorem typeOfSpec_leaves (hI : k.Silent) (owner? : Option Ident) : ∀ spec : TypeSpec,
    k.Spares (.typeSpec spec) → Leaves k (Ty.LacksMember k.name) (typeOfSpec owner? spec)
  | .named name, h => by
    rw [typeOfSpec]
    exact typeOfName_leaves (h.child (.head _) rfl)
  | .array indices element _, h => by
    rw [typeOfSpec]
    exact (forM_leads fun i hi => checkArrayIndex_leaves hI
        (h.mapped (List.subset_append_left _ _) (fun _ _ => rfl) i hi)).bind fun _ _ =>
      (typeOfSpec_leaves hI none element (h.child (List.mem_append_right _ (.head _)) rfl)).bind
        fun _ _ => .pure trivial
  | .record fields span, h => by
    rw [typeOfSpec]
    exact (inScope_leaves (fieldsOf_leaves hI owner? .public_ fields
      (h.mapped (List.Subset.refl _) fun _ _ => rfl)) .record span).bind fun _ _ => .pure trivial
  | .pointer target _, h => by
    rw [typeOfSpec]
    exact (typeOfSpec_leaves hI none target (h.child (.head _) rfl)).bind fun _ _ => .pure trivial
  | .set element _, h => by
    rw [typeOfSpec]
    exact (typeOfSpec_leaves hI none element (h.child (.head _) rfl)).bind fun _ _ => .pure trivial
  | .enum values _, h => by
    rw [typeOfSpec]
    exact (defineEnumValues_leaves owner? fun v hv =>
      h.allows (List.mem_map_of_mem hv) hv rfl).bind fun _ _ => .pure trivial
  | .subrange low high _, h => by
    rw [typeOfSpec]
    exact (checkExpr_yields hI low (h.child (.head _) rfl).covers).leads.bind fun _ _ =>
      (checkValue_touches hI (h.child (.tail _ (.head _)) rfl).covers).leads.bind
        fun _ _ => .pure trivial
  | .procedure params result _, h => by
    rw [typeOfSpec]
    exact (paramsOf_leaves hI params (h.mapped (List.subset_append_left _ _) fun _ _ => rfl)).bind
      fun _ _ => (resultOf_leaves hI result fun spec hspec => h.child (List.mem_append_right _
        (List.mem_map_of_mem (Option.mem_toList.2 hspec))) rfl).bind fun _ _ => .pure trivial
  | .object ⟨bases, sections, span⟩, h => by
    rw [typeOfSpec]
    refine (mapM_leads fun q hq => (typeOfName_leaves
      (h.mapped (List.subset_append_left _ _) (fun _ _ => rfl) q hq)).any).bind fun baseTypes _ => ?_
    refine (enter_leaves .object span).bind fun _ _ =>
      (Query.touches currentScope_query).leads.bind fun scope _ => ?_
    refine (sectionsOf_leaves hI owner? sections
      (h.mapped (List.subset_append_right _ _) fun _ _ => rfl)).bind fun members hmembers => ?_
    exact leave_leaves.bind fun _ _ => (noteObject_leaves owner? scope).bind fun _ _ =>
      .pure ⟨Members.find?_ofList hmembers.1, Members.find?_ofList hmembers.2⟩

theorem paramsOf_leaves (hI : k.Silent) : ∀ params : List Param,
    (∀ p ∈ params, k.Spares (.param p)) →
    Leaves k (fun _ => True) (paramsOf params)
  | [], _ => by
    rw [paramsOf]
    exact .pure trivial
  | ⟨mode, names, spec, span⟩ :: rest, h => by
    rw [paramsOf]
    exact (typeOfSpec_leaves hI none spec ((h ⟨mode, names, spec, span⟩ (.head _)).child
        (List.mem_append_right _ (.head _)) rfl)).bind fun _ _ =>
      (paramsOf_leaves hI rest fun p hp => h p (.tail _ hp)).bind fun _ _ => .pure trivial

theorem resultOf_leaves (hI : k.Silent) : ∀ spec? : Option TypeSpec,
    (∀ spec, spec? = some spec → k.Spares (.typeSpec spec)) →
    Leaves k (fun _ => True) (resultOf spec?)
  | none, _ => by
    rw [resultOf]
    exact .pure trivial
  | some spec, h => by
    rw [resultOf]
    exact (typeOfSpec_leaves hI none spec (h spec rfl)).bind fun _ _ => .pure trivial

theorem fieldsOf_leaves (hI : k.Silent) (owner? : Option Ident) (sect : SectionKind) :
    ∀ fields : List FieldDecl,
    (∀ f ∈ fields, k.Spares (.fieldDecl f)) → Leaves k (Unnamed k) (fieldsOf owner? sect fields)
  | [], _ => by
    rw [fieldsOf]
    exact .pure (List.forall_mem_nil _)
  | ⟨names, spec, span⟩ :: rest, h => by
    rw [fieldsOf]
    have hfield := h ⟨names, spec, span⟩ (.head _)
    refine (typeOfSpec_leaves hI none spec
      (hfield.child (List.mem_append_right _ (.head _)) rfl)).bind fun type _ => ?_
    refine (defineFields_leaves owner? sect type fun n hn => hfield.allows
      (List.mem_append_left _ (List.mem_map_of_mem hn)) hn rfl).bind fun fields hfields => ?_
    exact (fieldsOf_leaves hI owner? sect rest fun f hf => h f (.tail _ hf)).bind fun others hothers =>
      .pure (List.forall_mem_append.2 ⟨hfields, hothers⟩)

theorem memberOf_leaves (hI : k.Silent) (owner? : Option Ident) (sect : SectionKind) :
    ∀ m : ObjectMember,
    k.Spares (Node.ofMember m) → Leaves k (MembersOther k) (memberOf owner? sect m)
  | .field ⟨names, spec, _⟩, h => by
    rw [memberOf]
    refine (typeOfSpec_leaves hI none spec
      (h.child (List.mem_append_right _ (.head _)) rfl)).bind fun type _ => ?_
    exact (defineFields_leaves owner? sect type fun n hn => h.allows
      (List.mem_append_left _ (List.mem_map_of_mem hn)) hn rfl).bind fun fields hfields =>
        .pure ⟨hfields, List.forall_mem_nil _⟩
  | .method ⟨dispatch, name, params, result, _⟩, h => by
    rw [memberOf]
    refine (paramsOf_leaves hI params (h.mapped (fun _ hn => .tail _ (List.mem_append_left _ hn))
      fun _ _ => rfl)).bind fun types _ => ?_
    refine (resultOf_leaves hI result fun spec hspec => h.child (.tail _ (List.mem_append_right _
      (List.mem_map_of_mem (Option.mem_toList.2 hspec)))) rfl).bind fun resultType _ => ?_
    exact (defineMethod_leaves owner? sect dispatch (h.allows (.head _) (.head _) rfl) _).bind
      fun methods hmethods => .pure ⟨List.forall_mem_nil _, hmethods⟩

theorem membersOf_leaves (hI : k.Silent) (owner? : Option Ident) (sect : SectionKind) :
    ∀ ms : List ObjectMember,
    (∀ m ∈ ms, k.Spares (Node.ofMember m)) → Leaves k (MembersOther k) (membersOf owner? sect ms)
  | [], _ => by
    rw [membersOf]
    exact .pure ⟨List.forall_mem_nil _, List.forall_mem_nil _⟩
  | m :: rest, h => by
    rw [membersOf]
    exact (memberOf_leaves hI owner? sect m (h m (.head _))).bind fun ms hms =>
      (membersOf_leaves hI owner? sect rest fun m' hm => h m' (.tail _ hm)).bind fun ms' hms' =>
        .pure (MembersOther.append hms hms')

theorem sectionsOf_leaves (hI : k.Silent) (owner? : Option Ident) : ∀ sections : List ObjectSection,
    (∀ s ∈ sections, k.Spares (.objectSection s)) →
    Leaves k (MembersOther k) (sectionsOf owner? sections)
  | [], _ => by
    rw [sectionsOf]
    exact .pure ⟨List.forall_mem_nil _, List.forall_mem_nil _⟩
  | ⟨kind, members, span⟩ :: rest, h => by
    rw [sectionsOf]
    have hsection := h ⟨kind, members, span⟩ (.head _)
    exact (membersOf_leaves hI owner? kind members
        (hsection.mapped (List.Subset.refl _) fun m _ => by cases m <;> rfl)).bind fun ms hms =>
      (sectionsOf_leaves hI owner? rest fun s hs => h s (.tail _ hs)).bind fun ms' hms' =>
        .pure (MembersOther.append hms hms')

end

theorem signatureOf_leaves (hI : k.Silent) {params : List Param} {result : Option TypeSpec}
    (hparams : ∀ p ∈ params, k.Spares (.param p))
    (hresult : ∀ spec, result = some spec → k.Spares (.typeSpec spec)) :
    Leaves k (fun _ => True) (signatureOf params result) :=
  (paramsOf_leaves hI params hparams).bind fun _ _ =>
    (resultOf_leaves hI result hresult).bind fun _ _ => .pure trivial

/-! ## Declarations -/

theorem declareType_leaves (hI : k.Silent) {d : TypeDecl} (h : k.Spares (.decl (.type d))) :
    Leaves k (fun _ => True) (declareType d) := by
  have hname : k.Allows d.name := h.allows (.head _) (.head _) rfl
  let symbol : Symbol := { name := d.name.name, kind := .type, span := d.name.span }
  have hdefine : Leaves k (fun id? => ∀ id, id? = some id → k.id? ≠ some id) (define symbol) :=
    define_leaves hname.ne hname.span fun _ => trivial
  refine hdefine.bind fun id? hother => ?_
  refine (typeOfSpec_leaves hI (some d.name) d.type (h.child (.tail _ (.head _)) rfl)).bind
    fun type htype => ?_
  cases id? with
  | none => exact .pure trivial
  | some id =>
    exact .modify fun _ s hs =>
      hs.withTable (hs.table.retype (hother id rfl) htype) (Nat.le_refl _)

theorem constType_leaves (hI : k.Silent) {d : ConstDecl} (h : k.Spares (.decl (.const d))) :
    Leaves k (fun _ => True) (constType d) := by
  have hvalue : k.Spares (.expr d.value) :=
    h.child (.tail _ (List.mem_append_right _ (.head _))) rfl
  refine (checkExpr_yields hI d.value hvalue.covers).leads.bind fun value hvague => ?_
  split
  · exact .pure trivial
  · next spec hspec =>
    have hspec' : k.Spares (.typeSpec spec) := by
      refine h.child (.tail _ (List.mem_append_left _ ?_)) rfl
      rw [hspec]
      exact .head _
    refine (typeOfSpec_leaves hI none spec hspec').bind fun declared _ => ?_
    refine (assignable_yields declared (hvague.excused hvalue.covers)).leads.bind fun fits hfits => ?_
    dsimp only
    split
    · exact .pure trivial
    · next hfit =>
      exact (error_touches (hfits.resolve_left hfit) _ _).leads.bind fun _ _ => .pure trivial

theorem declareConst_leaves (hI : k.Silent) {d : ConstDecl} (h : k.Spares (.decl (.const d))) :
    Leaves k (fun _ => True) (declareConst d) :=
  (constType_leaves hI h).bind fun _ _ => (defineIdent_leaves
    (h.allows (.head _) (.head _) rfl) rfl rfl (by intro h; cases h)).bind fun _ _ => .pure trivial

theorem checkInit_leaves (hI : k.Silent) (type : Ty) {init : Expr} (h : k.Spares (.expr init)) :
    Leaves k (fun _ => True) (checkInit type init) := by
  refine (checkExpr_yields hI init h.covers).leads.bind fun value hvague => ?_
  refine (assignable_yields type (hvague.excused h.covers)).leads.bind fun fits hfits => ?_
  split
  · exact .pure trivial
  · next hfit => exact (error_touches (hfits.resolve_left hfit) _ _).leads

theorem declareVars_leaves (hI : k.Silent) {d : VarDecl} (h : k.Spares (.decl (.var d))) :
    Leaves k (fun _ => True) (declareVars d) := by
  refine (typeOfSpec_leaves hI none d.type
    (h.child (List.mem_append_right _ (.head _)) rfl)).bind fun type _ => ?_
  refine (optionForM_leads fun init hinit => checkInit_leaves hI type (h.child
    (List.mem_append_right _ (.tail _ (List.mem_map_of_mem (Option.mem_toList.2 hinit)))) rfl)).bind
      fun _ _ => ?_
  exact forM_leads fun n hn => (defineIdent_leaves (h.allows
    (List.mem_append_left _ (List.mem_map_of_mem hn)) hn rfl) rfl rfl (by intro h; cases h)).bind
      fun _ _ => .pure trivial

theorem declareProcedure_leaves (hI : k.Silent) {d : ProcDecl}
    (h : k.Spares (.decl (.procedure d))) :
    Leaves k (fun _ => True) (declareProcedure d) := by
  have hheading : k.Spares (.procHeading d.heading) := h.child (.head _) rfl
  refine (signatureOf_leaves hI
    (hheading.mapped (fun _ hn => .tail _ (List.mem_append_left _ hn)) fun _ _ => rfl)
    fun spec hspec => hheading.child (.tail _ (List.mem_append_right _
      (List.mem_map_of_mem (Option.mem_toList.2 hspec)))) rfl).bind fun signature _ => ?_
  refine Leads.bind (J := k.standing) (.modify fun _ _ hs => ?_) fun _ _ => ?_
  · exact { hs with faithful := hs.faithful.of_same rfl rfl rfl }
  exact (defineIdent_leaves (hheading.allows (.head _) (.head _) rfl) rfl rfl
    (by intro h; cases h)).bind fun _ _ => .pure trivial

theorem declare_leaves (hI : k.Silent) {d : Decl} (h : k.Spares (.decl d)) :
    Leaves k (fun _ => True) (declare d) := by
  cases d with
  | type d => exact declareType_leaves hI h
  | const d => exact declareConst_leaves hI h
  | var d => exact declareVars_leaves hI h
  | procedure d => exact declareProcedure_leaves hI h
  | objectImpl d => exact .pure trivial

theorem declareAll_leaves (hI : k.Silent) {ds : List Decl} (h : ∀ d ∈ ds, k.Spares (.decl d)) :
    Leaves k (fun _ => True) (declareAll ds) :=
  forM_leads fun d hd => declare_leaves hI (h d hd)

end Check

end SimFront
