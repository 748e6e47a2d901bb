import SimFront.Proofs.Check.PerformsStmt
import SimFront.Proofs.Check.Scopes

/-!
# What declarations do with an OUT parameter

Declarations change the table: they declare, and they open the scopes of types.  From the state that
a declaration starts in, all of them reach the parameter as before (`OutParam.grown`), so each part
performs its accesses in the state that the parts before it lead to (`Carries`).
-/

namespace SimFront

namespace SymbolTable

variable {t t' t'' : SymbolTable}

/-- A step of an analysis leads from a table to another. -/
def Grows (t t' : SymbolTable) : Prop := ∃ F, Opened False F t t'

theorem Grows.refl (t : SymbolTable) : t.Grows t := ⟨_, .refl t⟩

theorem Grows.trans (h : t.Grows t') (h' : t'.Grows t'') : t.Grows t'' :=
  let ⟨_, hF⟩ := h
  let ⟨_, hG⟩ := h'
  ⟨_, hF.seq hG⟩

theorem Grows.references (t : SymbolTable) (rs : References) : t.Grows { t with references := rs } :=
  ⟨_, .refer t rs⟩

theorem Grows.declare {symbol : Symbol} {id : Nat} (h : t.define symbol = .ok (id, t')) :
    t.Grows t' := ⟨_, .declare nofun h⟩

theorem Grows.retype (t : SymbolTable) (id : Nat) (type : Ty) :
    t.Grows (t.modifySymbol id fun s => { s with type }) := ⟨_, .retype t id type⟩

theorem Grows.scope {kind : ScopeKind} {span : Span} (h : (t.enter kind span).Grows t') :
    t.Grows t'.leave :=
  let ⟨_, hF⟩ := h
  ⟨_, .scope kind span hF⟩

/-- A symbol stays what it is, but for its type; a procedure may be completed. -/
def KeepsSymbols (t t' : SymbolTable) : Prop :=
  ∀ id x, t.symbol? id = some x → ∃ x', t'.symbol? id = some x' ∧ x'.name = x.name ∧
    x'.kind = x.kind ∧ x'.scope = x.scope ∧ (x.kind ≠ .procedure → ∃ type, x' = { x with type })

theorem KeepsSymbols.refl (t : SymbolTable) : t.KeepsSymbols t :=
  fun _ x hx => ⟨x, hx, rfl, rfl, rfl, fun _ => ⟨x.type, rfl⟩⟩

theorem KeepsSymbols.trans (h : t.KeepsSymbols t') (h' : t'.KeepsSymbols t'') :
    t.KeepsSymbols t'' := by
  intro id x hx
  obtain ⟨y, hy, hname, hkind, hscope, hsame⟩ := h id x hx
  obtain ⟨z, hz, hname', hkind', hscope', hsame'⟩ := h' id y hy
  refine ⟨z, hz, hname'.trans hname, hkind'.trans hkind, hscope'.trans hscope, fun hne => ?_⟩
  obtain ⟨type, rfl⟩ := hsame hne
  obtain ⟨type', rfl⟩ := hsame' hne
  exact ⟨type', rfl⟩

theorem Opened.keepsSymbols {alone : Prop} {F : List ScopeTree} (h : Opened alone F t t')
    (ht : t.Reachable) : t.KeepsSymbols t' := by
  induction h with
  | refer t rs => exact .refl t
  | @declare t t' symbol id _ hdefine =>
    intro i x hx
    rw [symbol?_defineIn hdefine]
    by_cases hi : i = id
    · subst hi
      obtain ⟨hname, hscope⟩ := ht.consistent.completed hdefine hx
      obtain ⟨-, rfl, -⟩ | ⟨_, -, hprevious, -, hkind, hkind', -⟩ := defineIn_cases hdefine
      · exact absurd (Array.getElem?_eq_some_iff.1 hx).1 (Nat.lt_irrefl _)
      · rw [hx] at hprevious
        cases hprevious
        exact ⟨_, if_pos rfl, hname.symm, hkind'.trans hkind.symm, hscope.symm,
          fun hne => absurd hkind hne⟩
    · exact ⟨x, by rw [if_neg hi, hx], rfl, rfl, rfl, fun _ => ⟨x.type, rfl⟩⟩
  | retype t id type =>
    intro i x hx
    rw [symbol?_retype, hx]
    split
    · exact ⟨_, rfl, rfl, rfl, rfl, fun _ => ⟨type, rfl⟩⟩
    · exact ⟨x, rfl, rfl, rfl, rfl, fun _ => ⟨x.type, rfl⟩⟩
  | @scope t t' F kind span h ih =>
    obtain ⟨scope, hleave⟩ := t'.leave_eq
    rw [hleave]
    exact ih (ht.enter kind span)
  | seq h h' ih ih' => exact (ih ht).trans (ih' (h.reachable ht).1)

/-- The scope that is entered lies in those that lay around before. -/
theorem Consistent.enclosing_enter (h : t.Consistent) (kind : ScopeKind) (span : Span) :
    (t.enter kind span).enclosing (t.enter kind span).current =
      t.scopes.size :: t.enclosing t.current := by
  have hparent : (t.enter kind span).parent? t.scopes.size = some t.current := by
    rw [parent?_enter, if_pos rfl]
  exact ((h.enter kind span).enclosing_of_parent hparent).trans
    (congrArg (_ :: ·) ((t.extends_enter kind span).enclosing h.current))

end SymbolTable

namespace Check

variable {α β : Type} {env : Env} {s s' : CheckState} {p : Nat} {name : String}
  {as bs : CheckState → List Access}

/-- The parameter is seen after a step as it was before. -/
theorem OutParam.grown (hp : OutParam env s p name) (hgrows : s.table.Grows s'.table)
    (hfaithful : s'.Faithful env)
    (houts : s'.outParams.map Prod.fst = s.outParams.map Prod.fst) : OutParam env s' p name := by
  obtain ⟨F, hopened⟩ := hgrows
  obtain ⟨hreachable, hextends, hcurrent⟩ := hopened.reachable hp.reachable
  have hnames := hopened.keepsNames hp.reachable
  have hsymbols := hopened.keepsSymbols hp.reachable
  refine ⟨hfaithful, hreachable, ?_, ?_, fun q hq => ?_⟩
  · obtain ⟨scope, hmem, hdeclared, hobjects⟩ := hp.declared
    rw [hcurrent, hextends.enclosing hp.reachable.consistent.current]
    exact ⟨scope, hmem, hnames _ _ _ hdeclared, hobjects⟩
  · obtain ⟨x, hx, hkind⟩ := hp.kind
    obtain ⟨x', hx', -, hkind', -⟩ := hsymbols p x hx
    exact ⟨x', hx', hkind'.trans hkind⟩
  · obtain ⟨x, hx, hname⟩ := hp.others q (houts ▸ hq)
    obtain ⟨x', hx', hname', -⟩ := hsymbols q x hx
    exact ⟨x', hx', fun h => hname (hname'.symm.trans h)⟩

/-- From every state in which the parameter is seen, the step leads on to such a state, and it
accesses the parameter as `as` says of the first. -/
def Carries (env : Env) (p : Nat) (name : String) (as : CheckState → List Access)
    (step : Check α) : Prop :=
  ∀ s, OutParam env s p name → s.table.Grows (stateAfter env step s).table ∧
    (stateAfter env step s).Faithful env ∧ s.Accessed p name (as s) (stateAfter env step s)

/-! ## Rules -/

section Rules

variable {step : Check α}

theorem Carries.seen (h : Carries env p name as step) (hp : OutParam env s p name) :
    OutParam env (stateAfter env step s) p name :=
  hp.grown (h s hp).1 (h s hp).2.1 (h s hp).2.2.outs

/-- Steps that look at what is declared, and declare nothing. -/
theorem Carries.of_performs
    (h : ∀ s, OutParam env s p name → Performs env s p name (as s) step) :
    Carries env p name as step := by
  intro s hp
  obtain ⟨-, hbeside, haccessed⟩ := h s hp s (.refl hp.faithful)
  obtain ⟨rs, hrs⟩ := hbeside.agrees.table
  refine ⟨?_, hbeside.faithful, haccessed⟩
  rw [stateAfter, hrs]
  exact .references _ rs

theorem Carries.pure (a : α) : Carries env p name (fun _ => []) (Pure.pure a : Check α) :=
  .of_performs fun _ _ => .pure a

theorem Carries.bind {f : α → Check β} (h : Carries env p name as step)
    (hf : ∀ a, Carries env p name bs (f a)) :
    Carries env p name (fun s => as s ++ bs (stateAfter env step s)) (step >>= f) := by
  intro s hp
  obtain ⟨hgrows, -, haccessed⟩ := h s hp
  obtain ⟨hgrows', hfaithful', haccessed'⟩ := hf (step.outcome env s).1 _ (h.seen hp)
  exact ⟨hgrows.trans hgrows', hfaithful', haccessed.trans haccessed'⟩

theorem Carries.then {f : α → Check β} (h : Carries env p name as step)
    (hf : ∀ a, Carries env p name (fun _ => []) (f a)) : Carries env p name as (step >>= f) := by
  have hboth := h.bind hf
  simp only [List.append_nil] at hboth
  exact hboth

theorem Carries.after {f : α → Check β} (h : Carries env p name (fun _ => []) step)
    (hf : ∀ a, Carries env p name as (f a)) :
    Carries env p name (fun s => as (stateAfter env step s)) (step >>= f) := h.bind hf

/-- Changes of the table, and of what is noted of types. -/
theorem modify_carries {f : CheckState → CheckState} (htable : ∀ s : CheckState, s.table.Grows (f s).table)
    (hsame : ∀ s : CheckState, (f s).modules = s.modules ∧ (f s).asked = s.asked ∧
      (f s).wholeImports = s.wholeImports ∧ (f s).outParams = s.outParams ∧
      (f s).reports = s.reports) : Carries env p name (fun _ => []) (modify f : Check Unit) := by
  intro s hp
  obtain ⟨hmodules, hasked, himports, houts, hreports⟩ := hsame s
  exact ⟨htable s, hp.faithful.of_same hmodules hasked himports, .of_same houts hreports⟩

theorem retype_carries (id : Nat) (type : Ty) : Carries env p name (fun _ => [])
    (modifyTable (·.modifySymbol id fun s => { s with type })) :=
  modify_carries (fun s => .retype s.table id type) fun _ => ⟨rfl, rfl, rfl, rfl, rfl⟩

theorem table_carries {f : SymbolTable → Check α} (h : ∀ t, Carries env p name as (f t)) :
    Carries env p name as (table >>= f) := fun s hp => h s.table s hp

theorem define_carries (symbol : Symbol) :
    Carries env p name (fun _ => []) (define symbol) := by
  intro s hp
  have hfaithful := ((define_byName symbol).faithful rfl hp.faithful).1
  obtain ⟨id, t, hdefine, hstate⟩ | ⟨-, x, -, hcode, hstate⟩ := define_outcome symbol env s
  · rw [hstate] at hfaithful
    rw [stateAfter, hstate]
    exact ⟨.declare hdefine, hfaithful, .of_same rfl rfl⟩
  · have hearly : x.isReadEarly name = false := decide_eq_false fun h => by
      rw [h] at hcode
      cases hcode
    have hreported := report_performs (p := p) (hcode ▸ by decide) hearly s (.refl hp.faithful)
    rw [hstate] at hfaithful
    rw [stateAfter, hstate]
    exact ⟨.refl _, hfaithful, hreported.2.2⟩

/-- Inside a new scope the parameter is seen as before. -/
theorem OutParam.entered (hp : OutParam env s p name) (kind : ScopeKind) (span : Span) :
    OutParam env (Check.entered kind span s) p name where
  faithful := hp.faithful.of_same rfl rfl rfl
  reachable := hp.reachable.enter kind span
  declared := by
    obtain ⟨scope, hmem, hdeclared, hobjects⟩ := hp.declared
    refine ⟨scope, ?_, (SymbolTable.declared?_enter_eq s.table kind span scope name).trans hdeclared,
      hobjects⟩
    rw [show (Check.entered kind span s).table = s.table.enter kind span from rfl,
      hp.reachable.consistent.enclosing_enter]
    exact List.mem_cons_of_mem _ hmem
  kind := hp.kind
  others := hp.others

theorem inScope_carries (kind : ScopeKind) (span : Span) (h : Carries env p name as step) :
    Carries env p name (fun s => as (Check.entered kind span s)) (inScope kind span step) := by
  intro s hp
  obtain ⟨hgrows, hfaithful, haccessed⟩ := h _ (hp.entered kind span)
  have hentered : s.Accessed p name [] (Check.entered kind span s) := .of_same rfl rfl
  have hleft : (stateAfter env step (Check.entered kind span s)).Accessed p name []
      (stateAfter env (inScope kind span step) s) := .of_same rfl rfl
  have hall := (hentered.trans haccessed).trans hleft
  rw [List.nil_append, List.append_nil] at hall
  exact ⟨.scope hgrows, hfaithful.of_same rfl rfl rfl, hall⟩

theorem forM_carries {f : α → Check Unit} (h : ∀ a, Carries env p name (fun _ => []) (f a))
    (xs : List α) : Carries env p name (fun _ => []) (xs.forM f) := by
  induction xs with
  | nil => exact .pure ()
  | cons x xs ih => exact (h x).then fun _ => ih

theorem mapM_carries {f : α → Check β} (h : ∀ a, Carries env p name (fun _ => []) (f a))
    (xs : List α) : Carries env p name (fun _ => []) (xs.mapM f) := by
  induction xs with
  | nil => exact .pure []
  | cons x xs ih =>
    rw [List.mapM_cons]
    exact (h x).then fun _ => ih.then fun _ => .pure _

end Rules

/-! ## Parts of declarations -/

theorem checkExpr_carries (e : Expr) :
    Carries env p name (fun s => exprAccesses env s p false e) (checkExpr e) :=
  .of_performs fun _ hp => checkExpr_performs hp e

theorem currentScope_carries : Carries env p name (fun _ => []) currentScope :=
  .of_performs fun _ hp => currentScope_query.performs currentScope_sees hp.faithful

theorem typeOfName_carries (q : QualIdent) : Carries env p name (fun _ => []) (typeOfName q) := by
  unfold typeOfName
  dsimp only
  split
  · exact .pure _
  · refine currentScope_carries.then fun scope => Carries.then ?_ fun _ => .pure _
    exact modify_carries (fun s => .refl s.table) fun _ => ⟨rfl, rfl, rfl, rfl, rfl⟩

theorem indices_carries (indices : List ArrayIndex) :
    Carries env p name (fun s => indexAccesses env p s indices) (indices.forM checkArrayIndex) := by
  induction indices with
  | nil => exact .pure ()
  | cons index rest ih =>
    refine Carries.bind ?_ fun _ => ih
    cases index with
    | range low high span =>
      exact .of_performs fun s hp => (checkValue_performs hp low).bind hp.faithful
        (checkValue_performs hp high)
    | type q => exact (typeOfName_carries q).then fun _ => .pure _

theorem defineEnumValues_carries (owner? : Option Ident) (values : List Ident) :
    Carries env p name (fun _ => []) (defineEnumValues owner? values) :=
  forM_carries (fun _ => (define_carries _).then fun _ => .pure _) values

theorem defineFields_carries (owner? : Option Ident) (sect : SectionKind) (type : Ty)
    (names : List Ident) : Carries env p name (fun _ => []) (defineFields owner? sect type names) := by
  induction names with
  | nil => exact .pure _
  | cons n ns ih => exact (define_carries _).then fun _ => ih.then fun _ => .pure _

theorem defineMethod_carries (owner? : Option Ident) (sect : SectionKind) (dispatch : Dispatch)
    (method : Ident) (signature : Signature) :
    Carries env p name (fun _ => []) (defineMethod owner? sect dispatch method signature) :=
  (define_carries _).then fun _ => .pure _

theorem noteObject_carries (owner? : Option Ident) (scope : Nat) :
    Carries env p name (fun _ => []) (noteObject owner? scope) := by
  cases owner? with
  | none => exact .pure _
  | some owner =>
    refine table_carries fun t => ?_
    split
    · exact .pure _
    · exact modify_carries (fun s => .refl s.table) fun _ => ⟨rfl, rfl, rfl, rfl, rfl⟩

/-! ## Type specifications -/

mutual

theorem typeOfSpec_carries (owner? : Option Ident) : ∀ spec : TypeSpec,
    Carries env p name (fun s => specAccesses env p owner? s spec) (typeOfSpec owner? spec)
  | .named q => by
    simp only [typeOfSpec, specAccesses]
    exact typeOfName_carries q
  | .array indices element _ => by
    simp only [typeOfSpec, specAccesses]
    exact (indices_carries indices).bind fun _ =>
      (typeOfSpec_carries none element).then fun _ => .pure _
  | .record fields span => by
    simp only [typeOfSpec, specAccesses]
    exact (inScope_carries .record span (fieldsOf_carries owner? .public_ fields)).then fun _ => .pure _
  | .pointer target _ => by
    simp only [typeOfSpec, specAccesses]
    exact (typeOfSpec_carries none target).then fun _ => .pure _
  | .set element _ => by
    simp only [typeOfSpec, specAccesses]
    exact (typeOfSpec_carries none element).then fun _ => .pure _
  | .enum values _ => by
    simp only [typeOfSpec, specAccesses]
    exact (defineEnumValues_carries owner? values).then fun _ => .pure _
  | .subrange low high _ => by
    simp only [typeOfSpec, specAccesses]
    exact .of_performs fun s hp => (checkExpr_performs hp low).bind hp.faithful
      ((checkValue_performs hp high).then hp.faithful fun _ => .pure _)
  | .procedure params result _ => by
    simp only [typeOfSpec, specAccesses]
    exact (paramsOf_carries params).bind fun _ => (resultOf_carries result).then fun _ => .pure _
  | .object ⟨bases, sections, span⟩ => by
    simp only [typeOfSpec, specAccesses]
    have members : Carries env p name (fun s => sectionAccesses env p owner? s sections) (do
        let scope ← currentScope
        let members ← sectionsOf owner? sections
        pure (scope, members)) :=
      currentScope_carries.after fun _ => (sectionsOf_carries owner? sections).then fun _ => .pure _
    have inside (baseTypes : List Ty) : Carries env p name
        (fun s => sectionAccesses env p owner? (entered .object span s) sections) (do
          let r ← inScope .object span (do
            let scope ← currentScope
            let members ← sectionsOf owner? sections
            pure (scope, members))
          noteObject owner? r.1
          pure (Ty.object ⟨baseTypes, Members.ofList r.2.1, Members.ofList r.2.2⟩)) :=
      (inScope_carries .object span members).then fun r =>
        (noteObject_carries owner? r.1).then fun _ => .pure _
    exact (mapM_carries typeOfName_carries bases).after inside

theorem paramsOf_carries : ∀ params : List Param,
    Carries env p name (fun s => paramAccesses env p s params) (paramsOf params)
  | [] => by
    simp only [paramsOf, paramAccesses]
    exact .pure _
  | ⟨mode, names, spec, _⟩ :: rest => by
    simp only [paramsOf, paramAccesses]
    exact (typeOfSpec_carries none spec).bind fun _ => (paramsOf_carries rest).then fun _ => .pure _

theorem resultOf_carries : ∀ spec? : Option TypeSpec,
    Carries env p name (fun s => resultAccesses env p s spec?) (resultOf spec?)
  | none => by
    simp only [resultOf, resultAccesses]
    exact .pure _
  | some spec => by
    simp only [resultOf, resultAccesses]
    exact (typeOfSpec_carries none spec).then fun _ => .pure _

theorem fieldsOf_carries (owner? : Option Ident) (sect : SectionKind) : ∀ fields : List FieldDecl,
    Carries env p name (fun s => fieldAccesses env p owner? sect s fields)
      (fieldsOf owner? sect fields)
  | [] => by
    simp only [fieldsOf, fieldAccesses]
    exact .pure _
  | ⟨names, spec, _⟩ :: rest => by
    simp only [fieldsOf, fieldAccesses]
    rw [← bind_assoc]
    have fields : Carries env p name (fun s => specAccesses env p none s spec)
        (do defineFields owner? sect (← typeOfSpec none spec) names) :=
      (typeOfSpec_carries none spec).then fun type => defineFields_carries owner? sect type names
    exact fields.bind fun _ => (fieldsOf_carries owner? sect rest).then fun _ => .pure _

theorem memberOf_carries (owner? : Option Ident) (sect : SectionKind) : ∀ m : ObjectMember,
    Carries env p name (fun s => memberAccesses env p s m) (memberOf owner? sect m)
  | .field ⟨names, spec, _⟩ => by
    simp only [memberOf, memberAccesses]
    exact (typeOfSpec_carries none spec).then fun type =>
      (defineFields_carries owner? sect type names).then fun _ => .pure _
  | .method ⟨dispatch, method, params, result, _⟩ => by
    simp only [memberOf, memberAccesses]
    exact (paramsOf_carries params).bind fun _ => (resultOf_carries result).then fun _ =>
      (defineMethod_carries owner? sect dispatch method _).then fun _ => .pure _

theorem membersOf_carries (owner? : Option Ident) (sect : SectionKind) :
    ∀ members : List ObjectMember,
      Carries env p name (fun s => membersAccesses env p owner? sect s members)
        (membersOf owner? sect members)
  | [] => by
    simp only [membersOf, membersAccesses]
    exact .pure _
  | m :: rest => by
    simp only [membersOf, membersAccesses]
    exact (memberOf_carries owner? sect m).bind fun _ =>
      (membersOf_carries owner? sect rest).then fun _ => .pure _

theorem sectionsOf_carries (owner? : Option Ident) : ∀ sections : List ObjectSection,
    Carries env p name (fun s => sectionAccesses env p owner? s sections)
      (sectionsOf owner? sections)
  | [] => by
    simp only [sectionsOf, sectionAccesses]
    exact .pure _
  | ⟨kind, members, _⟩ :: rest => by
    simp only [sectionsOf, sectionAccesses]
    exact (membersOf_carries owner? kind members).bind fun _ =>
      (sectionsOf_carries owner? rest).then fun _ => .pure _

end

/-! ## Declarations -/

theorem declareType_carries (d : TypeDecl) :
    Carries env p name (fun s => declAccesses env p s (.type d)) (declareType d) := by
  refine (define_carries _).after fun id? => (typeOfSpec_carries (some d.name) d.type).then
    fun type => ?_
  cases id? with
  | some id => exact retype_carries id type
  | none => exact .pure _

theorem declareConst_carries (d : ConstDecl) :
    Carries env p name (fun s => declAccesses env p s (.const d)) (declareConst d) := by
  have written : Carries env p name (fun s => declAccesses env p s (.const d)) (constType d) := by
    refine (checkExpr_carries d.value).bind (?_ : ∀ value,
      Carries env p name (fun s => d.type.toList.flatMap (specAccesses env p none s)) _)
    intro value
    cases d.type with
    | none => exact .pure _
    | some spec =>
      simp only [Option.toList_some, List.flatMap_singleton]
      refine (typeOfSpec_carries none spec).then fun declared => .of_performs fun s hp =>
        (assignable_performs hp.faithful declared value).then hp.faithful fun fits => ?_
      split
      · exact .pure _
      · exact (error_performs (by decide) _ _).then hp.faithful fun _ => .pure _
  exact written.then fun type => (define_carries _).then fun _ => .pure _

theorem checkInit_performs (hp : OutParam env s p name) (type : Ty) (init : Expr) :
    Performs env s p name (exprAccesses env s p false init) (checkInit type init) := by
  have hs := hp.faithful
  refine (checkExpr_performs hp init).then hs fun value =>
    (assignable_performs hs type value).then hs fun fits => ?_
  split
  · exact .pure _
  · exact error_performs (by decide) _ _

theorem declareVars_carries (d : VarDecl) :
    Carries env p name (fun s => declAccesses env p s (.var d)) (declareVars d) := by
  refine (typeOfSpec_carries none d.type).bind (?_ : ∀ type,
    Carries env p name (fun s => d.init.toList.flatMap (exprAccesses env s p false)) _)
  intro type
  exact Carries.then (.of_performs fun s hp => optionForM_performs (checkInit_performs hp type))
    fun _ => forM_carries (fun n => (define_carries _).then fun _ => .pure _) d.names

theorem declareProcedure_carries (d : ProcDecl) :
    Carries env p name (fun s => declAccesses env p s (.procedure d)) (declareProcedure d) := by
  have heading : Carries env p name (fun s => declAccesses env p s (.procedure d))
      (signatureOf d.heading.params d.heading.result) :=
    (paramsOf_carries d.heading.params).bind fun _ =>
      (resultOf_carries d.heading.result).then fun _ => .pure _
  refine heading.then fun signature => Carries.then ?_ fun _ => (define_carries _).then fun _ => .pure _
  exact modify_carries (fun s => .refl s.table) fun _ => ⟨rfl, rfl, rfl, rfl, rfl⟩

theorem declare_carries : ∀ d : Decl,
    Carries env p name (fun s => declAccesses env p s d) (declare d)
  | .type d => declareType_carries d
  | .const d => declareConst_carries d
  | .var d => declareVars_carries d
  | .procedure d => declareProcedure_carries d
  | .objectImpl _ => .pure _

theorem declareAll_carries (ds : List Decl) :
    Carries env p name (fun s => declsAccesses env p s ds) (declareAll ds) := by
  induction ds with
  | nil => exact .pure _
  | cons d ds ih => exact (declare_carries d).bind fun _ => ih

end Check

end SimFront
