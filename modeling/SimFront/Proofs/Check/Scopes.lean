import SimFront.Proofs.Check.AlikeModule
import SimFront.Proofs.Check.ModuleSites
import SimFront.Proofs.Check.TouchesStmt
import SimFront.Proofs.Symbol.Layout
import SimFront.Proofs.Tree.Scopes

/-!
# Which scopes the steps of an analysis open

`Opens head resolver? F p` says that every run of the step `p` opens the scopes of the trees
`F`, in that order, below the scope that is current; and that without a resolver it declares
types as the module's own.  It follows the construction of steps.  Names, expressions and
statements open no scopes; type specifications open those of their types
(`typeOfSpec_opens`).
-/

namespace SimFront.Check

open SymbolTable (Opened)
open CheckState (Quiet)

variable {α β : Type} {head : ModuleHead} {resolver? : Option Resolver} {F G : List ScopeTree}

/-- Every run of the step opens the scopes. -/
def Opens (head : ModuleHead) (resolver? : Option Resolver) (F : List ScopeTree) (p : Check α) :
    Prop :=
  ∀ env s, env.head = head → env.resolver? = resolver? → s.Faithful env →
    Opened (resolver? = none) F s.table (p.outcome env s).2.table ∧ (p.outcome env s).2.Faithful env

/-! ## Rules -/

section Rules

variable {p : Check α}

theorem Still.opens (h : Still head p) : Opens head resolver? [] p := by
  intro env s henv _ hs
  obtain ⟨⟨htable, -⟩, hfaithful, -⟩ := h env s henv hs
  rw [htable]
  exact ⟨.refl _, hfaithful⟩

/-- Steps that do no more than touch the state open no scopes, wherever they report. -/
theorem Touches.opens (h : Touches (Standing.plain head fun _ => True) p) :
    Opens head resolver? [] p := by
  intro env s henv _ hs
  obtain ⟨htouched, hfaithful, -⟩ := h env s ⟨henv, hs⟩
  obtain ⟨rs, hrs, -⟩ := htouched.table
  rw [hrs]
  exact ⟨.refer _ rs, hfaithful⟩

theorem Query.opens (h : Query head p) : Opens head resolver? [] p := h.still.opens

/-- A step that leaves the table alone. -/
theorem ByName.opens (h : ByName head p) (htable : ∀ env s, (p.outcome env s).2.table = s.table) :
    Opens head resolver? [] p := by
  intro env s henv _ hs
  rw [htable]
  exact ⟨.refl _, (h.faithful henv hs).1⟩

theorem Opens.pure (a : α) : Opens head resolver? [] (pure a : Check α) := (Finds.nothing a).opens

theorem Opens.seq {f : α → Check β} (hp : Opens head resolver? F p)
    (hf : ∀ a, Opens head resolver? G (f a)) : Opens head resolver? (F ++ G) (p >>= f) := by
  intro env s henv hresolver hs
  obtain ⟨hopened, hfaithful⟩ := hp env s henv hresolver hs
  obtain ⟨hopened', hfaithful'⟩ := hf (p.outcome env s).1 env _ henv hresolver hfaithful
  exact ⟨hopened.seq hopened', hfaithful'⟩

theorem Opens.then {f : α → Check β} (hp : Opens head resolver? F p)
    (hf : ∀ a, Opens head resolver? [] (f a)) : Opens head resolver? F (p >>= f) := by
  rw [← List.append_nil F]
  exact hp.seq hf

theorem Opens.after {f : α → Check β} (hp : Opens head resolver? [] p)
    (hf : ∀ a, Opens head resolver? F (f a)) : Opens head resolver? F (p >>= f) := hp.seq hf

theorem Opens.read {f : Env → Check α} (h : ∀ env, Opens head resolver? F (f env)) :
    Opens head resolver? F (read >>= f) := fun env s => h env env s

theorem Opens.get {f : CheckState → Check α} (h : ∀ s, Opens head resolver? F (f s)) :
    Opens head resolver? F (get >>= f) := fun env s => h s env s

theorem Opens.withReader {f : Env → Env} (hf : ∀ env, (f env).resolver? = env.resolver?)
    (hhead : ∀ env, (f env).head = env.head) (h : Opens head resolver? F p) :
    Opens head resolver? F (withReader f p : Check α) := by
  intro env s henv hresolver hs
  obtain ⟨hopened, hfaithful⟩ := h (f env) s ((hhead env).trans henv) ((hf env).trans hresolver)
    (hs.of_resolver (hf env) (hhead env))
  exact ⟨hopened, hfaithful.of_resolver (hf env).symm (hhead env).symm⟩

theorem forM_opens {f : α → Check Unit} {view : α → List ScopeTree}
    (h : ∀ a, Opens head resolver? (view a) (f a)) (as : List α) :
    Opens head resolver? (as.flatMap view) (as.forM f) := by
  induction as with
  | nil => exact .pure ()
  | cons a as ih => exact (h a).seq fun _ => ih

theorem forM_opens_nothing {f : α → Check Unit} (h : ∀ a, Opens head resolver? [] (f a))
    (as : List α) : Opens head resolver? [] (as.forM f) := by
  induction as with
  | nil => exact .pure ()
  | cons a as ih => exact (h a).then fun _ => ih

theorem optionForM_opens_nothing {f : α → Check Unit} (h : ∀ a, Opens head resolver? [] (f a))
    (a? : Option α) : Opens head resolver? [] (a?.forM f) := by
  cases a? with
  | none => exact .pure ()
  | some a => exact h a

theorem mapM_opens_nothing {f : α → Check β} (h : ∀ a, Opens head resolver? [] (f a))
    (as : List α) : Opens head resolver? [] (as.mapM f) := by
  induction as with
  | nil => exact .pure []
  | cons a as ih =>
    rw [List.mapM_cons]
    exact (h a).then fun _ => ih.then fun _ => .pure _

/-- A step that runs between the opening of a scope and its closing. -/
theorem Opens.scoped {kind : ScopeKind} {span : Span} {f : α → Check β}
    (hp : Opens head resolver? F p) (hf : ∀ a, Opens head resolver? [] (f a)) :
    Opens head resolver? [.node span F] (do
      modifyTable (·.enter kind span)
      let a ← p
      modifyTable (·.leave)
      f a) := by
  intro env s henv hresolver hs
  have entered := ((modifyTable_byName (·.enter kind span)).faithful henv hs).1
  obtain ⟨hopened, hfaithful⟩ := hp env _ henv hresolver entered
  have left := ((modifyTable_byName (·.leave)).faithful henv hfaithful).1
  obtain ⟨hopened', hfaithful'⟩ := hf _ env _ henv hresolver left
  exact ⟨(Opened.scope kind span hopened).seq hopened', hfaithful'⟩

theorem inScope_opens (kind : ScopeKind) (span : Span) (hp : Opens head resolver? F p) :
    Opens head resolver? [.node span F] (inScope kind span p) :=
  hp.scoped fun a => .pure a

end Rules

/-! ## Single changes -/

/-- Without a resolver no types of other modules are declared. -/
def OwnType (resolver? : Option Resolver) (symbol : Symbol) : Prop :=
  resolver? = none → symbol.kind = .type → symbol.origin? = none

theorem define_opens {symbol : Symbol} (hown : OwnType resolver? symbol) :
    Opens head resolver? [] (define symbol) := by
  intro env s henv _ hs
  refine ⟨?_, ((define_byName symbol).faithful henv hs).1⟩
  obtain ⟨id, t, hdefine, hstate⟩ | ⟨htable, -⟩ := define_cases symbol env s
  · rw [hstate]
    exact .declare hown hdefine
  · rw [htable]
    exact .refl _

/-- Symbols that are no types may come from anywhere. -/
theorem define_opens_of_kind {symbol : Symbol} (hkind : symbol.kind ≠ .type) :
    Opens head resolver? [] (define symbol) := define_opens fun _ htype => absurd htype hkind

theorem retype_opens (id : Nat) (type : Ty) :
    Opens head resolver? [] (modifyTable (·.modifySymbol id fun s => { s with type })) :=
  fun _ s henv _ hs => ⟨.retype s.table id type, ((modifyTable_byName _).faithful henv hs).1⟩

theorem report_opens (d : Diagnostic) : Opens head resolver? [] (report d) := (report_still d).opens

/-! ## Expressions and statements -/

theorem covers_all (n : Node) : Covers (fun _ => True) none n := fun _ _ => trivial

theorem checkExpr_opens (e : Expr) : Opens head resolver? [] (checkExpr e) :=
  (checkExpr_yields (.none _) e (covers_all _)).touches.opens

theorem checkValue_opens (e : Expr) : Opens head resolver? [] (checkValue e) :=
  (checkValue_touches (.none _) (covers_all _)).opens

theorem checkBlock_opens (body : List Stmt) : Opens head resolver? [] (checkBlock body) :=
  (checkBlock_touches (.none _) body fun _ _ => covers_all _).opens

/-! ## Type specifications -/

theorem typeOfName_opens (q : QualIdent) : Opens head resolver? [] (typeOfName q) := by
  refine (typeOfName_byName q).opens fun env s => ?_
  unfold typeOfName
  dsimp only
  split <;> rfl

theorem checkArrayIndex_opens (index : ArrayIndex) :
    Opens head resolver? [] (checkArrayIndex index) := by
  cases index with
  | range low high span => exact (checkValue_opens low).then fun _ => checkValue_opens high
  | type name => exact (typeOfName_opens name).then fun _ => .pure _

theorem defineEnumValues_opens (owner? : Option Ident) (values : List Ident) :
    Opens head resolver? [] (defineEnumValues owner? values) :=
  forM_opens_nothing (fun _ => (define_opens_of_kind (by rintro ⟨⟩)).then fun _ => .pure _) values

theorem defineFields_opens (owner? : Option Ident) (sect : SectionKind) (type : Ty)
    (names : List Ident) : Opens head resolver? [] (defineFields owner? sect type names) := by
  induction names with
  | nil => exact .pure _
  | cons n ns ih =>
    exact (define_opens_of_kind (by rintro ⟨⟩)).then fun _ => ih.then fun _ => .pure _

theorem defineMethod_opens (owner? : Option Ident) (sect : SectionKind) (dispatch : Dispatch)
    (name : Ident) (signature : Signature) :
    Opens head resolver? [] (defineMethod owner? sect dispatch name signature) :=
  (define_opens_of_kind (by rintro ⟨⟩)).then fun _ => .pure _

mutual

theorem typeOfSpec_opens (owner? : Option Ident) : ∀ spec : TypeSpec,
    Opens head resolver? (Node.typeSpec spec).scopes (typeOfSpec owner? spec)
  | .named name => by
    rw [typeOfSpec, Node.scopes_through rfl rfl, Node.children, Node.childrenOfType,
      Node.flatMap_scopes_of_isPlain (List.forall_mem_singleton.2 rfl)]
    exact typeOfName_opens name
  | .array indices element _ => by
    rw [typeOfSpec, Node.scopes_through rfl rfl, Node.children, Node.childrenOfType,
      Node.flatMap_scopes_map (fun _ => rfl), List.flatMap_singleton]
    exact (forM_opens_nothing checkArrayIndex_opens indices).after fun _ =>
      (typeOfSpec_opens none element).then fun _ => .pure _
  | .record fields span => by
    rw [typeOfSpec, Node.scopes_around rfl rfl]
    exact (inScope_opens .record span (fieldsOf_opens owner? .public_ fields)).then fun _ => .pure _
  | .pointer target _ => by
    rw [typeOfSpec, Node.scopes_through rfl rfl, Node.children, Node.childrenOfType,
      List.flatMap_singleton]
    exact (typeOfSpec_opens none target).then fun _ => .pure _
  | .set element _ => by
    rw [typeOfSpec, Node.scopes_through rfl rfl, Node.children, Node.childrenOfType,
      List.flatMap_singleton]
    exact (typeOfSpec_opens none element).then fun _ => .pure _
  | .enum values _ => by
    rw [typeOfSpec, Node.scopes_through rfl rfl, Node.children, Node.childrenOfType,
      Node.flatMap_scopes_of_isPlain (List.forall_mem_map.2 fun _ _ => rfl)]
    exact (defineEnumValues_opens owner? values).then fun _ => .pure _
  | .subrange low high _ => by
    rw [typeOfSpec, Node.scopes_through rfl rfl, Node.children, Node.childrenOfType,
      Node.flatMap_scopes_of_isPlain (by simp [Node.isPlain])]
    exact (checkExpr_opens low).after fun _ => (checkValue_opens high).then fun _ => .pure _
  | .procedure params result _ => by
    rw [typeOfSpec, Node.scopes_through rfl rfl, Node.children, Node.childrenOfType,
      List.flatMap_append]
    exact (paramsOf_opens params).seq fun _ => (resultOf_opens result).then fun _ => .pure _
  | .object ⟨bases, sections, span⟩ => by
    rw [typeOfSpec, Node.scopes_around rfl rfl, Node.children, Node.childrenOfType,
      Node.flatMap_scopes_map fun _ => rfl]
    have members : Opens head resolver? ((sections.map Node.objectSection).flatMap Node.scopes) (do
        let scope ← currentScope
        let members ← sectionsOf owner? sections
        pure (scope, members)) :=
      currentScope_query.opens.after fun _ =>
        (sectionsOf_opens owner? sections).then fun _ => .pure _
    have inside (baseTypes : List Ty) : Opens head resolver?
        [.node span ((sections.map Node.objectSection).flatMap Node.scopes)] (do
          modifyTable (·.enter .object span)
          let r ← (do
            let scope ← currentScope
            let members ← sectionsOf owner? sections
            pure (scope, members))
          modifyTable (·.leave)
          noteObject owner? r.1
          pure (Ty.object ⟨baseTypes, Members.ofList r.2.1, Members.ofList r.2.2⟩)) :=
      members.scoped fun r => (noteObject_still owner? r.1).opens.then fun _ => .pure _
    exact (mapM_opens_nothing typeOfName_opens bases).after inside

theorem paramsOf_opens : ∀ params : List Param,
    Opens head resolver? ((params.map Node.param).flatMap Node.scopes) (paramsOf params)
  | [] => by
    rw [paramsOf]
    exact .pure _
  | ⟨mode, names, spec, span⟩ :: rest => by
    rw [paramsOf, List.map_cons, List.flatMap_cons, Node.scopes_param]
    exact (typeOfSpec_opens none spec).seq fun _ => (paramsOf_opens rest).then fun _ => .pure _

theorem resultOf_opens : ∀ spec? : Option TypeSpec,
    Opens head resolver? ((spec?.toList.map Node.typeSpec).flatMap Node.scopes) (resultOf spec?)
  | none => by
    rw [resultOf]
    exact .pure _
  | some spec => by
    rw [resultOf, Option.toList_some, List.map_singleton, List.flatMap_singleton]
    exact (typeOfSpec_opens none spec).then fun _ => .pure _

theorem fieldsOf_opens (owner? : Option Ident) (sect : SectionKind) : ∀ fields : List FieldDecl,
    Opens head resolver? ((fields.map Node.fieldDecl).flatMap Node.scopes)
      (fieldsOf owner? sect fields)
  | [] => by
    rw [fieldsOf]
    exact .pure _
  | ⟨names, spec, span⟩ :: rest => by
    rw [fieldsOf, List.map_cons, List.flatMap_cons, Node.scopes_fieldDecl]
    exact (typeOfSpec_opens none spec).seq fun type =>
      (defineFields_opens owner? sect type names).after fun _ =>
        (fieldsOf_opens owner? sect rest).then fun _ => .pure _

theorem memberOf_opens (owner? : Option Ident) (sect : SectionKind) : ∀ m : ObjectMember,
    Opens head resolver? (Node.ofMember m).scopes (memberOf owner? sect m)
  | .field ⟨names, spec, span⟩ => by
    rw [memberOf, Node.ofMember, Node.scopes_fieldDecl]
    exact (typeOfSpec_opens none spec).then fun type =>
      (defineFields_opens owner? sect type names).then fun _ => .pure _
  | .method ⟨dispatch, name, params, result, span⟩ => by
    rw [memberOf, Node.ofMember, Node.scopes_methodHeading, Node.signatureScopes]
    exact (paramsOf_opens params).seq fun _ => (resultOf_opens result).then fun _ =>
      (defineMethod_opens owner? sect dispatch name _).then fun _ => .pure _

theorem membersOf_opens (owner? : Option Ident) (sect : SectionKind) :
    ∀ members : List ObjectMember,
      Opens head resolver? ((members.map Node.ofMember).flatMap Node.scopes)
        (membersOf owner? sect members)
  | [] => by
    rw [membersOf]
    exact .pure _
  | m :: rest => by
    rw [membersOf, List.map_cons, List.flatMap_cons]
    exact (memberOf_opens owner? sect m).seq fun _ =>
      (membersOf_opens owner? sect rest).then fun _ => .pure _

theorem sectionsOf_opens (owner? : Option Ident) : ∀ sections : List ObjectSection,
    Opens head resolver? ((sections.map Node.objectSection).flatMap Node.scopes)
      (sectionsOf owner? sections)
  | [] => by
    rw [sectionsOf]
    exact .pure _
  | ⟨kind, members, span⟩ :: rest => by
    rw [sectionsOf, List.map_cons, List.flatMap_cons, Node.scopes_through rfl rfl]
    exact (membersOf_opens owner? kind members).seq fun _ =>
      (sectionsOf_opens owner? rest).then fun _ => .pure _

end

theorem signatureOf_opens (params : List Param) (result : Option TypeSpec) :
    Opens head resolver? (Node.signatureScopes params result) (signatureOf params result) :=
  (paramsOf_opens params).seq fun _ => (resultOf_opens result).then fun _ => .pure _

end SimFront.Check
