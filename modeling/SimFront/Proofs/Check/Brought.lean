import SimFront.Proofs.Check.Noted

/-!
# The names that types bring in

A specification of a type brings the values of its enumerations into the scope that it stands in,
and members bring their names into the scope of their type.  Which names these are can be told
from the tree (`ObjectType.entries`).  A scope keeps what a name was declared as first
(`SymbolTable.Brought`); `Brings head entries p` says of a step that it declares the entries, and
there is one lemma for each step of the checks of types.
-/

namespace SimFront

/-! ## Trees -/

/-- A declaration in a scope: the identifier, and whether it is a method that is to override. -/
structure Entry where
  ident : Ident
  isOverride : Bool

namespace Entry

/-- A declaration of anything but a method that is to override. -/
def plain (ident : Ident) : Entry := ⟨ident, false⟩

/-- The first declaration of a name. -/
def first? (entries : List Entry) (name : String) : Option Entry :=
  entries.find? (·.ident.name = name)

variable {entries entries' : List Entry} {name : String}

theorem first?_append : first? (entries ++ entries') name =
    (first? entries name).or (first? entries' name) := List.find?_append

theorem first?_singleton (e : Entry) (name : String) :
    first? [e] name = if e.ident.name = name then some e else none := by
  unfold first?
  rw [List.find?_singleton]
  simp only [decide_eq_true_eq]

theorem first?_plain_eq_none {idents : List Ident} (h : ∀ i ∈ idents, i.name ≠ name) :
    first? (idents.map plain) name = none := by
  refine List.find?_eq_none.2 fun e he => ?_
  obtain ⟨i, hi, rfl⟩ := List.mem_map.1 he
  exact fun heq => h i hi (of_decide_eq_true heq)

theorem first?_plain_ne (idents : List Ident) (name : String) (i : Ident) :
    first? (idents.map plain) name ≠ some ⟨i, true⟩ := by
  intro h
  obtain ⟨_, -, hplain⟩ := List.mem_map.1 (List.mem_of_find?_eq_some h)
  cases hplain

end Entry

mutual

/-- The values of enumerations that a specification declares in the scope that it stands in. -/
def TypeSpec.values : TypeSpec → List Ident
  | .array _ element _ => element.values
  | .pointer target _ => target.values
  | .set element _ => element.values
  | .enum values _ => values
  | .procedure params result _ => paramValues params ++ resultValues result
  | .named _ | .record .. | .subrange .. | .object _ => []

def paramValues : List Param → List Ident
  | [] => []
  | ⟨_, _, spec, _⟩ :: rest => spec.values ++ paramValues rest

def resultValues : Option TypeSpec → List Ident
  | none => []
  | some spec => spec.values

end

/-- What fields bring in. -/
def FieldDecl.entries (d : FieldDecl) : List Entry := (d.type.values ++ d.names).map .plain

def ObjectMember.entries (sect : SectionKind) : ObjectMember → List Entry
  | .field d => d.entries
  | .method h => (paramValues h.params ++ resultValues h.result).map .plain ++
      [⟨h.name, sect = .override⟩]

def ObjectSection.entries (s : ObjectSection) : List Entry :=
  s.members.flatMap (·.entries s.kind)

/-- What the members of an object type bring into its scope, in order. -/
def ObjectType.entries (o : ObjectType) : List Entry := o.sections.flatMap (·.entries)

/-! ## Tables -/

namespace SymbolTable

variable {t t' : SymbolTable}

/-- Where the declaration of a name in a scope stands. -/
def spanAt? (t : SymbolTable) (scope : Nat) (name : String) : Option Span :=
  ((t.declared? scope name).bind t.symbol?).map (·.span)

theorem Consistent.spanAt?_eq_none (h : t.Consistent) {scope : Nat} {name : String} :
    t.spanAt? scope name = none ↔ t.declared? scope name = none := by
  unfold spanAt?
  cases hid : t.declared? scope name with
  | none => simp
  | some id =>
    obtain ⟨symbol, hsymbol, -⟩ := h.of_declares ⟨scope, hid⟩
    simp [hsymbol]

/-- Declarations whose symbols are kept stand where they stood. -/
theorem Consistent.spanAt?_congr (h : t.Consistent) {scope : Nat} {name : String}
    (hdeclared : t'.declared? scope name = t.declared? scope name)
    (hkept : ∀ id symbol, t.symbol? id = some symbol → t'.symbol? id = some symbol) :
    t'.spanAt? scope name = t.spanAt? scope name := by
  unfold spanAt?
  rw [hdeclared]
  cases hid : t.declared? scope name with
  | none => rfl
  | some id =>
    obtain ⟨symbol, hsymbol, -⟩ := h.of_declares ⟨scope, hid⟩
    rw [Option.bind_some, Option.bind_some, hsymbol, hkept id symbol hsymbol]

theorem symbol?_append_of_some {scope id : Nat} {symbol other : Symbol}
    (h : t.symbol? id = some other) : (t.append scope symbol).symbol? id = some other := by
  obtain ⟨hlt, -⟩ := Array.getElem?_eq_some_iff.1 h
  rw [symbol?_append_eq, if_neg (Nat.ne_of_lt hlt), h]

theorem Consistent.spanAt?_append (h : t.Consistent) {scope : Nat} (hscope : scope < t.scopes.size)
    (symbol : Symbol) (name : String) : (t.append scope symbol).spanAt? scope name =
      if symbol.name = name then some symbol.span else t.spanAt? scope name := by
  have hdeclared := declared?_append hscope symbol name
  split
  · next hname =>
    rw [if_pos hname] at hdeclared
    unfold spanAt?
    rw [hdeclared, Option.bind_some, symbol?_append]
    rfl
  · next hname =>
    rw [if_neg hname] at hdeclared
    exact h.spanAt?_congr hdeclared fun _ _ => symbol?_append_of_some

theorem spanAt?_retype (t : SymbolTable) (id : Nat) (type : Ty) (scope : Nat) (name : String) :
    (t.modifySymbol id fun s => { s with type }).spanAt? scope name = t.spanAt? scope name := by
  have hdeclared : (t.modifySymbol id fun s => { s with type }).declared? scope name =
      t.declared? scope name := rfl
  unfold spanAt?
  rw [hdeclared]
  cases t.declared? scope name with
  | none => rfl
  | some i =>
    rw [Option.bind_some, Option.bind_some, symbol?_retype]
    split
    · rw [Option.map_map]
      rfl
    · rfl

/-- Nothing is declared yet in a scope that was just opened. -/
theorem spanAt?_enter (t : SymbolTable) (kind : ScopeKind) (span : Span) (name : String) :
    (t.enter kind span).spanAt? (t.enter kind span).current name = none := by
  show (t.enter kind span).spanAt? t.scopes.size name = none
  have hscope : t.scope? t.scopes.size = none := Array.getElem?_eq_none (Nat.le_refl _)
  unfold spanAt?
  rw [declared?_enter_eq]
  unfold declared?
  rw [hscope]
  rfl

/-- Between two tables the entries were declared in the current scope, where their names were not
taken.  Scopes may have been opened below and left; nothing else has changed. -/
structure Brought (entries : List Entry) (t t' : SymbolTable) : Prop where
  returns : t.Returns t'
  symbol : ∀ id symbol, t.symbol? id = some symbol → t'.symbol? id = some symbol
  keeps : t.KeepsNames t'
  here : ∀ name, t'.spanAt? t.current name =
    (t.spanAt? t.current name).or ((Entry.first? entries name).map (·.ident.span))
  elsewhere : ∀ i < t.scopes.size, i ≠ t.current → ∀ name, t'.declared? i name = t.declared? i name

namespace Brought

variable {t'' : SymbolTable} {entries entries' : List Entry}

/-- Nothing is declared where uses are recorded. -/
theorem references (t : SymbolTable) (rs : References) :
    t.Brought [] { t with references := rs } :=
  ⟨⟨.of_scopes rfl (Nat.le_refl _), rfl⟩, fun _ _ h => h, fun _ _ _ h => h,
    fun _ => Option.or_none.symm, fun _ _ _ _ => rfl⟩

theorem trans (h : t.Brought entries t') (h' : t'.Brought entries' t'') :
    t.Brought (entries ++ entries') t'' where
  returns := h.returns.trans h'.returns
  symbol id symbol hsymbol := h'.symbol id symbol (h.symbol id symbol hsymbol)
  keeps i name id hid := h'.keeps i name id (h.keeps i name id hid)
  here name := by
    have hhere := h'.here name
    rw [h.returns.current] at hhere
    rw [hhere, h.here, Entry.first?_append, Option.map_or, Option.or_assoc]
  elsewhere i hi hne name := by
    rw [h'.elsewhere i (Nat.lt_of_lt_of_le hi h.returns.scopes) (h.returns.current ▸ hne),
      h.elsewhere i hi hne]

/-- Names that were free and are not brought in are free. -/
theorem free_iff (h : t.Brought entries t') (name : String) :
    t'.spanAt? t'.current name = none ↔
      t.spanAt? t.current name = none ∧ Entry.first? entries name = none := by
  rw [h.returns.current, h.here, Option.or_eq_none_iff, Option.map_eq_none_iff]

/-- In scopes that are not current nothing is brought in. -/
theorem spanAt?_elsewhere (h : t.Brought entries t') (ht : t.Consistent) {i : Nat}
    (hi : i < t.scopes.size) (hne : i ≠ t.current) (name : String) :
    t'.spanAt? i name = t.spanAt? i name :=
  ht.spanAt?_congr (h.elsewhere i hi hne name) h.symbol

/-- What is brought into a scope below the current one is not brought into the current one. -/
theorem leave (ht : t.Consistent) {kind : ScopeKind} {span : Span}
    (h : Brought entries (t.enter kind span) t') : t.Brought [] t'.leave := by
  have hbelow (i : Nat) (hi : i < t.scopes.size) (name : String) :
      t'.declared? i name = t.declared? i name := by
    refine (h.elsewhere i ?_ (Nat.ne_of_lt hi) name).trans (t.declared?_enter_eq _ _ _ _)
    exact Nat.lt_of_lt_of_le hi (t.extends_enter kind span).scopes
  have hreturns := returns_leave h.returns
  obtain ⟨scope, hleave⟩ := t'.leave_eq
  rw [hleave] at hreturns ⊢
  refine ⟨hreturns, h.symbol, fun i name id hid => ?_, fun name => ?_, fun i hi _ => hbelow i hi⟩
  · exact h.keeps i name id ((t.declared?_enter_eq _ _ _ _).trans hid)
  · exact (ht.spanAt?_congr (hbelow _ ht.current name) h.symbol).trans Option.or_none.symm

/-- A symbol that was not there gets its type. -/
theorem retype (h : t.Brought entries t') {id : Nat} (hid : t.symbol? id = none) (type : Ty) :
    t.Brought entries (t'.modifySymbol id fun symbol => { symbol with type }) where
  returns := h.returns.trans ⟨t'.extends_modifySymbol id _, rfl⟩
  symbol i symbol hsymbol := by
    have hne : id ≠ i := fun heq => by
      rw [← heq, hid] at hsymbol
      cases hsymbol
    rw [symbol?_retype, if_neg hne]
    exact h.symbol i symbol hsymbol
  keeps := h.keeps
  here name := (t'.spanAt?_retype id type _ name).trans (h.here name)
  elsewhere := h.elsewhere

/-- A declaration where its name is free. -/
theorem append (ht : t.Reachable) {symbol : Symbol} {e : Entry}
    (hname : symbol.name = e.ident.name) (hspan : symbol.span = e.ident.span)
    (hfree : t.spanAt? t.current symbol.name = none)
    (hdefine : t.define symbol = .ok (t.symbols.size, t.append t.current symbol)) :
    t.Brought [e] (t.append t.current symbol) where
  returns := ⟨t.extends_append _ _, rfl⟩
  symbol _ _ := symbol?_append_of_some
  keeps := keepsNames_defineIn ht.consistent.current hdefine
  here name := by
    rw [ht.consistent.spanAt?_append ht.consistent.current, Entry.first?_singleton, ← hname]
    split
    · next heq =>
      rw [← heq, hfree, hspan]
      rfl
    · exact Option.or_none.symm
  elsewhere _ _ hne := declared?_defineIn_of_ne hdefine hne

/-- A declaration where its name is taken. -/
theorem taken {e : Entry} (htaken : t.spanAt? t.current e.ident.name ≠ none) :
    t.Brought [e] t where
  returns := .refl t
  symbol _ _ h := h
  keeps _ _ _ h := h
  here name := by
    rw [Entry.first?_singleton]
    split
    · next heq =>
      obtain ⟨span, hspan⟩ := Option.ne_none_iff_exists'.1 htaken
      rw [← heq, hspan]
      rfl
    · exact Option.or_none.symm
  elsewhere _ _ _ _ := rfl

end Brought

end SymbolTable

namespace Check

variable {α β : Type} {head : ModuleHead} {env : Env} {s : CheckState}
  {entries entries' : List Entry}

/-! ## Steps that bring names in -/

/-- Every run of the step declares the entries in the current scope, and notes no object types. -/
def Brings (head : ModuleHead) (entries : List Entry) (p : Check α) : Prop :=
  ∀ env s, env.head = head → s.Faithful env → s.table.Reachable →
    s.table.Brought entries (p.outcome env s).2.table ∧
      (p.outcome env s).2.objectDecls = s.objectDecls ∧ (p.outcome env s).2.Faithful env ∧
      (p.outcome env s).2.table.Reachable

section Rules

variable {p : Check α} {f : α → Check β}

theorem Brings.seq (hp : Brings head entries p) (hf : ∀ a, Brings head entries' (f a)) :
    Brings head (entries ++ entries') (p >>= f) := by
  intro env s henv hs htable
  obtain ⟨hbrought, hdecls, hs', htable'⟩ := hp env s henv hs htable
  obtain ⟨hbrought', hdecls', hrest⟩ := hf _ env _ henv hs' htable'
  rw [outcome_bind]
  exact ⟨hbrought.trans hbrought', hdecls'.trans hdecls, hrest⟩

theorem Brings.then (hp : Brings head entries p) (hf : ∀ a, Brings head [] (f a)) :
    Brings head entries (p >>= f) := by
  rw [← List.append_nil entries]
  exact hp.seq hf

theorem Brings.after (hp : Brings head [] p) (hf : ∀ a, Brings head entries (f a)) :
    Brings head entries (p >>= f) := hp.seq hf

/-- Steps that do no more than touch the state. -/
theorem Touches.brings {place : Span → Prop} (h : Touches (Standing.plain head place) p) :
    Brings head [] p := by
  intro env s henv hs htable
  obtain ⟨htouched, hs', -⟩ := h env s ⟨henv, hs⟩
  obtain ⟨rs, hrs, -⟩ := htouched.table
  rw [hrs]
  exact ⟨.references _ rs, htouched.objectDecls, hs', htable.references rs⟩

theorem Query.brings (h : Query head p) : Brings head [] p := by
  have touches : Touches (Standing.plain head fun _ => False) p := h.touches
  exact touches.brings

theorem Brings.pure (a : α) : Brings head [] (pure a : Check α) := (Query.pure a).brings

theorem Brings.get {f : CheckState → Check α} (h : ∀ s, Brings head entries (f s)) :
    Brings head entries (get >>= f) := fun env s => h s env s

theorem Brings.withReader {f : Env → Env} (hf : ∀ env, (f env).resolver? = env.resolver?)
    (hhead : ∀ env, (f env).head = env.head) (h : Brings head entries p) :
    Brings head entries (withReader f p : Check α) := by
  intro env s henv hs htable
  obtain ⟨hbrought, hdecls, hs', htable'⟩ := h (f env) s ((hhead env).trans henv)
    (hs.of_resolver (hf env) (hhead env)) htable
  exact ⟨hbrought, hdecls, hs'.of_resolver (hf env).symm (hhead env).symm, htable'⟩

/-- Expressions and statements bring nothing in. -/
theorem brings_composes : ComposesTouches head fun _ p => Brings head [] p where
  bind hp hf := hp.then hf
  get h := .get h
  read h := fun env s henv => h env henv env s henv
  withReader _ hf hhead h := h.withReader hf hhead
  touch h := h.brings
  report {d} _ := fun _ _ henv hs htable =>
    ⟨.references _ _, rfl, ((report_byName d).faithful henv hs).1, htable⟩

theorem forM_brings {f : α → Check Unit} {view : α → List Entry}
    (h : ∀ a, Brings head (view a) (f a)) (as : List α) :
    Brings head (as.flatMap view) (as.forM f) := by
  induction as with
  | nil => exact .pure ()
  | cons a as ih => exact (h a).seq fun _ => ih

theorem inScope_brings (kind : ScopeKind) (span : Span) (hp : Brings head entries p) :
    Brings head [] (inScope kind span p) := by
  intro env s henv hs htable
  have entered := ((modifyTable_byName (·.enter kind span)).faithful henv hs).1
  obtain ⟨hbrought, hdecls, hs', htable'⟩ := hp env _ henv entered (htable.enter kind span)
  have left := ((modifyTable_byName (·.leave)).faithful henv hs').1
  exact ⟨hbrought.leave htable.consistent, hdecls, left, htable'.leave⟩

end Rules

/-! ## Declarations -/

/-- A symbol that completes nothing is declared where its name is free, and else is not. -/
theorem define_cases_of_kind (symbol : Symbol) (env : Env) (hkind : symbol.kind ≠ .procedure)
    (htable : s.table.Reachable) :
    (s.table.spanAt? s.table.current symbol.name = none ∧
      s.table.define symbol =
        .ok (s.table.symbols.size, s.table.append s.table.current symbol) ∧
      (define symbol).outcome env s = (some s.table.symbols.size,
        { s with table := s.table.append s.table.current symbol })) ∨
    s.table.spanAt? s.table.current symbol.name ≠ none ∧
      ∃ x, (define symbol).outcome env s = (none, { s with reports := x :: s.reports }) := by
  rw [Ne, htable.consistent.spanAt?_eq_none]
  obtain ⟨id, t, hdefine, hstate⟩ | ⟨_, x, hdefine, -, hstate⟩ := define_outcome symbol env s
  · obtain ⟨hfree, rfl, rfl⟩ | ⟨_, -, -, -, -, hprocedure, -⟩ := SymbolTable.defineIn_cases hdefine
    · exact .inl ⟨hfree, hdefine, hstate⟩
    · exact absurd hprocedure hkind
  · refine .inr ⟨fun hfree => ?_, x, hstate⟩
    unfold SymbolTable.define SymbolTable.defineIn at hdefine
    rw [hfree] at hdefine
    cases hdefine

theorem define_brings {symbol : Symbol} {e : Entry} (hname : symbol.name = e.ident.name)
    (hspan : symbol.span = e.ident.span) (hkind : symbol.kind ≠ .procedure) :
    Brings head [e] (define symbol) := by
  intro env s henv hs htable
  obtain ⟨hfree, hdefine, hstate⟩ | ⟨htaken, x, hstate⟩ :=
    define_cases_of_kind symbol env hkind htable
  · rw [hstate]
    exact ⟨.append htable hname hspan hfree hdefine, rfl, hs.of_same rfl rfl rfl,
      htable.defineIn htable.consistent.current hdefine⟩
  · rw [hstate]
    exact ⟨.taken (hname ▸ htaken), rfl, hs.of_same rfl rfl rfl, htable⟩

/-! ## Type specifications -/

theorem typeOfName_brings (q : QualIdent) : Brings head [] (typeOfName q) := by
  intro env s henv hs htable
  have htable' : ((typeOfName q).outcome env s).2.table = s.table := by
    unfold typeOfName
    dsimp only
    split <;> rfl
  have hdecls : ((typeOfName q).outcome env s).2.objectDecls = s.objectDecls := by
    unfold typeOfName
    dsimp only
    split <;> rfl
  refine ⟨?_, hdecls, ((typeOfName_byName q).faithful henv hs).1, ?_⟩
  · rw [htable']
    exact .references _ _
  · rw [htable']
    exact htable

theorem typesOfNames_brings (qs : List QualIdent) : Brings head [] (qs.mapM typeOfName) := by
  induction qs with
  | nil => exact .pure []
  | cons q qs ih =>
    rw [List.mapM_cons]
    exact (typeOfName_brings q).then fun _ => ih.then fun _ => .pure _

theorem length_typesOfNames (qs : List QualIdent) (env : Env) (s : CheckState) :
    ((qs.mapM typeOfName).outcome env s).1.length = qs.length := by
  induction qs generalizing s with
  | nil => rfl
  | cons q qs ih =>
    rw [List.mapM_cons]
    exact congrArg Nat.succ (ih _)

theorem checkArrayIndex_brings (index : ArrayIndex) : Brings head [] (checkArrayIndex index) := by
  cases index with
  | range low high span =>
    exact (checkValue_composes brings_composes.composes low).then fun _ =>
      checkValue_composes brings_composes.composes high
  | type name => exact (typeOfName_brings name).then fun _ => .pure _

theorem defineEnumValues_brings (owner? : Option Ident) (values : List Ident) :
    Brings head (values.map .plain) (defineEnumValues owner? values) := by
  rw [List.map_eq_flatMap]
  exact forM_brings (fun v => (define_brings rfl rfl (by rintro ⟨⟩)).then fun _ => .pure _) values

theorem defineFields_brings (owner? : Option Ident) (sect : SectionKind) (type : Ty)
    (names : List Ident) :
    Brings head (names.map .plain) (defineFields owner? sect type names) := by
  induction names with
  | nil => exact .pure _
  | cons n ns ih =>
    exact (define_brings rfl rfl (by rintro ⟨⟩)).seq fun _ => ih.then fun _ => .pure _

theorem defineMethod_brings (owner? : Option Ident) (sect : SectionKind) (dispatch : Dispatch)
    (name : Ident) (signature : Signature) (isOverride : Bool) :
    Brings head [⟨name, isOverride⟩] (defineMethod owner? sect dispatch name signature) :=
  (define_brings rfl rfl (by rintro ⟨⟩)).then fun _ => .pure _

mutual

theorem typeOfSpec_brings : ∀ spec : TypeSpec,
    Brings head (spec.values.map .plain) (typeOfSpec none spec)
  | .named name => by
    rw [typeOfSpec, TypeSpec.values]
    exact typeOfName_brings name
  | .array indices element _ => by
    rw [typeOfSpec, TypeSpec.values]
    have hindices : Brings head [] (indices.forM checkArrayIndex) := by
      have h : Brings head _ _ := forM_brings checkArrayIndex_brings indices
      rwa [List.flatMap_eq_nil_iff.2 fun _ _ => rfl] at h
    exact hindices.after fun _ => (typeOfSpec_brings element).then fun _ => .pure _
  | .record fields span => by
    rw [typeOfSpec, TypeSpec.values]
    exact (inScope_brings .record span (fieldsOf_brings none .public_ fields)).then
      fun _ => .pure _
  | .pointer target _ => by
    rw [typeOfSpec, TypeSpec.values]
    exact (typeOfSpec_brings target).then fun _ => .pure _
  | .set element _ => by
    rw [typeOfSpec, TypeSpec.values]
    exact (typeOfSpec_brings element).then fun _ => .pure _
  | .enum values _ => by
    rw [typeOfSpec, TypeSpec.values]
    exact (defineEnumValues_brings none values).then fun _ => .pure _
  | .subrange low high _ => by
    rw [typeOfSpec, TypeSpec.values]
    exact (checkExpr_composes brings_composes.composes low).after fun _ =>
      (checkValue_composes brings_composes.composes high).then fun _ => .pure _
  | .procedure params result _ => by
    rw [typeOfSpec, TypeSpec.values, List.map_append]
    exact (paramsOf_brings params).seq fun _ => (resultOf_brings result).then fun _ => .pure _
  | .object ⟨bases, sections, span⟩ => by
    rw [typeOfSpec, TypeSpec.values]
    have inside (baseTypes : List Ty) : Brings head [] (do
        let r ← inScope .object span (do
          let scope ← currentScope
          let members ← sectionsOf none sections
          pure (scope, members))
        noteObject none r.1
        pure (Ty.object ⟨baseTypes, Members.ofList r.2.1, Members.ofList r.2.2⟩)) :=
      (inScope_brings .object span (currentScope_query.brings.after fun _ =>
        (sectionsOf_brings none sections).then fun _ => .pure _)).then fun _ =>
          (Brings.pure ()).then fun _ => .pure _
    exact (typesOfNames_brings bases).after inside

theorem paramsOf_brings : ∀ params : List Param,
    Brings head ((paramValues params).map .plain) (paramsOf params)
  | [] => by
    rw [paramsOf, paramValues]
    exact .pure _
  | ⟨mode, names, spec, span⟩ :: rest => by
    rw [paramsOf, paramValues, List.map_append]
    exact (typeOfSpec_brings spec).seq fun _ => (paramsOf_brings rest).then fun _ => .pure _

theorem resultOf_brings : ∀ spec? : Option TypeSpec,
    Brings head ((resultValues spec?).map .plain) (resultOf spec?)
  | none => by
    rw [resultOf, resultValues]
    exact .pure _
  | some spec => by
    rw [resultOf, resultValues]
    exact (typeOfSpec_brings spec).then fun _ => .pure _

theorem fieldsOf_brings (owner? : Option Ident) (sect : SectionKind) : ∀ fields : List FieldDecl,
    Brings head (fields.flatMap (·.entries)) (fieldsOf owner? sect fields)
  | [] => by
    rw [fieldsOf]
    exact .pure _
  | ⟨names, spec, span⟩ :: rest => by
    rw [fieldsOf, List.flatMap_cons, FieldDecl.entries, List.map_append, List.append_assoc]
    exact (typeOfSpec_brings spec).seq fun type =>
      (defineFields_brings owner? sect type names).seq fun _ =>
        (fieldsOf_brings owner? sect rest).then fun _ => .pure _

theorem memberOf_brings (owner? : Option Ident) (sect : SectionKind) : ∀ m : ObjectMember,
    Brings head (m.entries sect) (memberOf owner? sect m)
  | .field ⟨names, spec, span⟩ => by
    rw [memberOf, ObjectMember.entries, FieldDecl.entries, List.map_append]
    exact (typeOfSpec_brings spec).seq fun type =>
      (defineFields_brings owner? sect type names).then fun _ => .pure _
  | .method ⟨dispatch, name, params, result, span⟩ => by
    rw [memberOf, ObjectMember.entries, List.map_append, List.append_assoc]
    exact (paramsOf_brings params).seq fun _ => (resultOf_brings result).seq fun _ =>
      (defineMethod_brings owner? sect dispatch name _ _).then fun _ => .pure _

theorem membersOf_brings (owner? : Option Ident) (sect : SectionKind) :
    ∀ members : List ObjectMember,
      Brings head (members.flatMap (·.entries sect)) (membersOf owner? sect members)
  | [] => by
    rw [membersOf]
    exact .pure _
  | m :: rest => by
    rw [membersOf, List.flatMap_cons]
    exact (memberOf_brings owner? sect m).seq fun _ =>
      (membersOf_brings owner? sect rest).then fun _ => .pure _

theorem sectionsOf_brings (owner? : Option Ident) : ∀ sections : List ObjectSection,
    Brings head (sections.flatMap (·.entries)) (sectionsOf owner? sections)
  | [] => by
    rw [sectionsOf]
    exact .pure _
  | ⟨kind, members, span⟩ :: rest => by
    rw [sectionsOf, List.flatMap_cons, ObjectSection.entries]
    exact (membersOf_brings owner? kind members).seq fun _ =>
      (sectionsOf_brings owner? rest).then fun _ => .pure _

end

end Check

end SimFront
