import SimFront.Proofs.Check.Brought

/-!
# The methods of object types

An object type has the methods whose names were free in its scope.  So which of them are to
override, and where they stand, can be told from the tree (`sectionsOf_gathers`), and does not hang
on where the type is declared (`declareAll_adds`).
-/

namespace SimFront

namespace Members

variable {α : Type}

/-- A member of a new name is put at the end. -/
theorem insert_of_not_mem {ms : Members α} {name : String} (h : name ∉ ms.map Prod.fst) (a : α) :
    ms.insert name a = ms ++ [(name, a)] := by
  induction ms with
  | nil => rfl
  | cons m ms ih =>
    rw [List.map_cons, List.mem_cons, not_or] at h
    rw [Members.insert, if_neg (Ne.symm h.1), ih h.2, List.cons_append]

theorem foldl_insert_of_distinct {entries : List (String × α)} {ms : Members α}
    (h : ((ms ++ entries).map Prod.fst).Nodup) :
    entries.foldl (fun ms e => ms.insert e.1 e.2) ms = ms ++ entries := by
  induction entries generalizing ms with
  | nil => exact (List.append_nil ms).symm
  | cons e rest ih =>
    have hname : e.1 ∉ ms.map Prod.fst := by
      rw [List.map_append, List.nodup_append] at h
      exact fun hmem => h.2.2 e.1 hmem e.1 List.mem_cons_self rfl
    have hassoc : ms ++ [e] ++ rest = ms ++ e :: rest := by
      rw [List.append_assoc, List.singleton_append]
    rw [List.foldl_cons, insert_of_not_mem hname, ih (hassoc ▸ h), hassoc]

/-- Members with different names stay in order. -/
theorem ofList_of_distinct {entries : List (String × α)} (h : (entries.map Prod.fst).Nodup) :
    Members.ofList entries = entries := foldl_insert_of_distinct h

end Members

namespace Check

variable {head : ModuleHead} {env : Env} {s : CheckState} {entries entries' : List Entry}

/-! ## Methods -/

/-- What methods are among members: names that were free, each once, and to override are those
that were brought in as such at first. -/
structure Methods (entries : List Entry) (s : CheckState) (methods : List (String × MethodInfo)) :
    Prop where
  fresh : ∀ m ∈ methods, s.table.spanAt? s.table.current m.1 = none ∧
    Entry.first? entries m.1 ≠ none
  distinct : (methods.map Prod.fst).Nodup
  overrides : ∀ name, (∃ method, (name, method) ∈ methods ∧ method.isOverride = true) ↔
    s.table.spanAt? s.table.current name = none ∧ ∃ i, Entry.first? entries name = some ⟨i, true⟩

theorem Methods.plain (idents : List Ident) (s : CheckState) :
    Methods (idents.map .plain) s [] where
  fresh := List.forall_mem_nil _
  distinct := List.nodup_nil
  overrides name := by
    refine iff_of_false (fun ⟨_, h, _⟩ => nomatch h) fun ⟨_, i, hi⟩ => ?_
    exact Entry.first?_plain_ne idents name i hi

theorem Methods.append {s' : CheckState} {methods methods' : List (String × MethodInfo)}
    (h : Methods entries s methods) (hbrought : s.table.Brought entries s'.table)
    (h' : Methods entries' s' methods') :
    Methods (entries ++ entries') s (methods ++ methods') where
  fresh m hm := by
    rw [Entry.first?_append, Ne, Option.or_eq_none_iff, not_and_or]
    rcases List.mem_append.1 hm with hm | hm
    · exact ⟨(h.fresh m hm).1, .inl (h.fresh m hm).2⟩
    · obtain ⟨hfree, hfirst⟩ := h'.fresh m hm
      exact ⟨((hbrought.free_iff m.1).1 hfree).1, .inr hfirst⟩
  distinct := by
    rw [List.map_append, List.nodup_append]
    refine ⟨h.distinct, h'.distinct, fun name hname name' hname' heq => ?_⟩
    obtain ⟨m, hm, rfl⟩ := List.mem_map.1 hname
    obtain ⟨m', hm', rfl⟩ := List.mem_map.1 hname'
    -- what was brought in is taken
    have hfirst := ((hbrought.free_iff m'.1).1 (h'.fresh m' hm').1).2
    exact (h.fresh m hm).2 (heq ▸ hfirst)
  overrides name := by
    simp only [List.mem_append, or_and_right, exists_or, h.overrides, h'.overrides,
      hbrought.free_iff, Entry.first?_append]
    constructor
    · rintro (⟨hfree, i, hi⟩ | ⟨⟨hfree, hnone⟩, i, hi⟩)
      · exact ⟨hfree, i, by rw [hi]; rfl⟩
      · exact ⟨hfree, i, by rw [hnone, hi]; rfl⟩
    · rintro ⟨hfree, i, hi⟩
      rcases Option.or_eq_some_iff.1 hi with hi | ⟨hnone, hi⟩
      · exact .inl ⟨hfree, i, hi⟩
      · exact .inr ⟨⟨hfree, hnone⟩, i, hi⟩

/-- Every run of the step gives the methods among the members that it declares. -/
def Gathers (head : ModuleHead) (entries : List Entry)
    (p : Check (List (String × Ty) × List (String × MethodInfo))) : Prop :=
  ∀ env s, env.head = head → s.Faithful env → s.table.Reachable →
    Methods entries s (p.outcome env s).1.2

/-- The members that two steps declare are put together. -/
theorem Gathers.append {p q : Check (List (String × Ty) × List (String × MethodInfo))}
    (hp : Gathers head entries p) (hbrings : Brings head entries p) (hq : Gathers head entries' q) :
    Gathers head (entries ++ entries') (do
      let (fields, methods) ← p
      let (fields', methods') ← q
      pure (fields ++ fields', methods ++ methods')) := by
  intro env s henv hs htable
  obtain ⟨hbrought, -, hs', htable'⟩ := hbrings env s henv hs htable
  exact (hp env s henv hs htable).append hbrought (hq env _ henv hs' htable')

/-- A method is declared as a symbol of its name, and is there if the symbol is. -/
theorem defineMethod_eq (owner? : Option Ident) (sect : SectionKind) (dispatch : Dispatch)
    (name : Ident) (signature : Signature) : ∃ (symbol : Symbol) (method : MethodInfo),
      symbol.name = name.name ∧ symbol.kind = .method ∧
      method.isOverride = decide (sect = .override) ∧
      defineMethod owner? sect dispatch name signature = (do
        let id? ← define symbol
        pure (if id?.isSome then [(name.name, method)] else [])) := by
  cases sect <;> exact ⟨_, _, rfl, rfl, rfl, rfl⟩

theorem defineMethod_methods (htable : s.table.Reachable) (owner? : Option Ident)
    (sect : SectionKind) (dispatch : Dispatch) (name : Ident) (signature : Signature) :
    Methods [⟨name, sect = .override⟩] s
      ((defineMethod owner? sect dispatch name signature).outcome env s).1 := by
  obtain ⟨symbol, method, hname, hkind, hoverride, heq⟩ :=
    defineMethod_eq owner? sect dispatch name signature
  rw [heq, outcome_bind]
  obtain ⟨hfree, -, hstate⟩ | ⟨htaken, x, hstate⟩ :=
    define_cases_of_kind symbol env (by rw [hkind]; rintro ⟨⟩) htable
  · rw [hstate]
    rw [hname] at hfree
    refine ⟨List.forall_mem_singleton.2 ⟨hfree, ?_⟩, List.nodup_singleton _, fun other => ?_⟩
    · rw [Entry.first?_singleton, if_pos rfl]
      exact Option.some_ne_none _
    · rw [Entry.first?_singleton]
      constructor
      · rintro ⟨_, hmem, hmethod⟩
        obtain ⟨rfl, rfl⟩ := Prod.mk.inj (List.mem_singleton.1 hmem)
        exact ⟨hfree, name, by rw [if_pos rfl, ← hoverride, hmethod]⟩
      · rintro ⟨-, i, hi⟩
        split at hi
        · next hother =>
          subst hother
          obtain ⟨-, hsect⟩ := Entry.mk.inj (Option.some.inj hi)
          exact ⟨method, List.mem_singleton_self _, hoverride.trans hsect⟩
        · cases hi
  · rw [hstate]
    rw [hname] at htaken
    refine ⟨List.forall_mem_nil _, List.nodup_nil, fun other => iff_of_false ?_ ?_⟩
    · exact fun ⟨_, h, _⟩ => nomatch h
    · rintro ⟨hfree, i, hi⟩
      rw [Entry.first?_singleton] at hi
      split at hi
      · next hother => exact htaken (hother ▸ hfree)
      · cases hi

theorem memberOf_gathers (owner? : Option Ident) (sect : SectionKind) (m : ObjectMember) :
    Gathers head (m.entries sect) (memberOf owner? sect m) := by
  intro env s henv hs htable
  cases m with
  | field d =>
    obtain ⟨names, spec, span⟩ := d
    rw [memberOf]
    exact Methods.plain _ s
  | method h =>
    obtain ⟨dispatch, name, params, result, span⟩ := h
    rw [memberOf, ObjectMember.entries]
    obtain ⟨hbrought, -, hs', htable'⟩ := paramsOf_brings params env s henv hs htable
    obtain ⟨hbrought', -, -, htable''⟩ := resultOf_brings result env _ henv hs' htable'
    refine (Methods.plain _ s).append ?_ (defineMethod_methods htable'' owner? sect dispatch name _)
    rw [List.map_append]
    exact hbrought.trans hbrought'

theorem membersOf_gathers (owner? : Option Ident) (sect : SectionKind)
    (members : List ObjectMember) :
    Gathers head (members.flatMap (·.entries sect)) (membersOf owner? sect members) := by
  induction members with
  | nil =>
    intro env s _ _ _
    rw [membersOf]
    exact Methods.plain [] s
  | cons m rest ih =>
    rw [membersOf, List.flatMap_cons]
    exact (memberOf_gathers owner? sect m).append (memberOf_brings owner? sect m) ih

theorem sectionsOf_gathers (owner? : Option Ident) (sections : List ObjectSection) :
    Gathers head (sections.flatMap (·.entries)) (sectionsOf owner? sections) := by
  induction sections with
  | nil =>
    intro env s _ _ _
    rw [sectionsOf]
    exact Methods.plain [] s
  | cons s rest ih =>
    obtain ⟨kind, members, span⟩ := s
    rw [sectionsOf, List.flatMap_cons]
    exact (membersOf_gathers owner? kind members).append (membersOf_brings owner? kind members) ih

/-! ## Object types -/

/-- What the current scope declares under a name is noted under it. -/
theorem noteObject_declared {owner : Ident} {id : Nat} (htable : s.table.Reachable)
    (hid : s.table.declared? s.table.current owner.name = some id) (scope : Nat) (env : Env) :
    (noteObject (some owner) scope).outcome env s =
      ((), { s with objectDecls := s.objectDecls ++ [⟨owner.name, id, scope⟩] }) := by
  obtain ⟨symbol, hsymbol, hname⟩ := htable.consistent.of_declares ⟨_, hid⟩
  unfold noteObject
  rw [outcome_bind]
  rw [show (table.outcome env s).1.lookupId? owner.name = some id from
    SymbolTable.lookupId?_of_declared hid]
  have hnoted : (((table.outcome env s).1.symbol? id).map (·.name)).getD owner.name =
      owner.name := by
    rw [show (table.outcome env s).1.symbol? id = some symbol from hsymbol]
    exact hname
  show ((), ({ s with objectDecls := s.objectDecls ++ [⟨_, id, scope⟩] } : CheckState)) = _
  rw [hnoted]

/-- An object type is made from its bases and from the members that its scope declares. -/
theorem typeOfSpec_object_eq (owner? : Option Ident) (o : ObjectType) (env : Env)
    (s : CheckState) :
    let named := (o.bases.mapM typeOfName).outcome env s
    let declared := (sectionsOf owner? o.sections).outcome env
      { named.2 with table := named.2.table.enter .object o.span }
    (typeOfSpec owner? (.object o)).outcome env s =
      (.object ⟨named.1, Members.ofList declared.1.1, Members.ofList declared.1.2⟩,
        ((noteObject owner? named.2.table.scopes.size).outcome env
          { declared.2 with table := declared.2.table.leave }).2) := by
  obtain ⟨bases, sections, span⟩ := o
  rw [typeOfSpec]
  rfl

/-- The scope of an object type, and its methods, are as its members say. -/
structure ShowsMembers (t : SymbolTable) (scope : Nat) (methods : List (String × MethodInfo))
    (o : ObjectType) : Prop where
  span : ∀ name, t.spanAt? scope name = (Entry.first? o.entries name).map (·.ident.span)
  overrides : ∀ name, (∃ method, (name, method) ∈ methods ∧ method.isOverride = true) ↔
    ∃ i, Entry.first? o.entries name = some ⟨i, true⟩

/-- The members of an object type are declared in a scope of their own, where all names are
free. -/
theorem sectionsOf_inside (hs : s.Faithful env) (htable : s.table.Reachable)
    (owner? : Option Ident) (o : ObjectType) :
    let declared := (sectionsOf owner? o.sections).outcome env
      { s with table := s.table.enter .object o.span }
    s.table.Brought [] declared.2.table.leave ∧ declared.2.objectDecls = s.objectDecls ∧
      declared.2.table.leave.Reachable ∧
      s.table.scopes.size < declared.2.table.leave.scopes.size ∧
      ShowsMembers declared.2.table.leave s.table.scopes.size (Members.ofList declared.1.2) o := by
  intro declared
  have hs' : CheckState.Faithful env { s with table := s.table.enter .object o.span } :=
    hs.of_same rfl rfl rfl
  have htable' := htable.enter .object o.span
  obtain ⟨hbrought, hdecls, -, hreachable⟩ :=
    sectionsOf_brings owner? o.sections env _ rfl hs' htable'
  have hmethods : Methods o.entries _ declared.1.2 :=
    sectionsOf_gathers owner? o.sections env _ rfl hs' htable'
  obtain ⟨scope, hleave⟩ := declared.2.table.leave_eq
  have hfree (name : String) := s.table.spanAt?_enter .object o.span name
  have hspan (name : String) : declared.2.table.leave.spanAt? s.table.scopes.size name =
      (Entry.first? o.entries name).map (·.ident.span) := by
    rw [hleave]
    refine (hbrought.here name).trans ?_
    dsimp only
    rw [hfree name]
    rfl
  refine ⟨hbrought.leave htable.consistent, hdecls, hreachable.leave, ?_, hspan, fun name => ?_⟩
  · rw [hleave]
    refine Nat.lt_of_lt_of_le ?_ hbrought.returns.scopes
    exact Nat.lt_of_lt_of_eq (Nat.lt_succ_self _) (s.table.size_enter _ _).symm
  · rw [Members.ofList_of_distinct hmethods.distinct, hmethods.overrides name]
    exact and_iff_right (hfree name)

/-- An object type brings nothing into the scope that it stands in, and is noted. -/
theorem typeOfSpec_object {owner : Ident} {id : Nat} (hs : s.Faithful env)
    (htable : s.table.Reachable) (hid : s.table.declared? s.table.current owner.name = some id)
    (o : ObjectType) :
    let r := (typeOfSpec (some owner) (.object o)).outcome env s
    ∃ info scope, r.1 = .object info ∧ s.table.Brought [] r.2.table ∧ r.2.table.Reachable ∧
      r.2.objectDecls = s.objectDecls ++ [⟨owner.name, id, scope⟩] ∧
      s.table.scopes.size ≤ scope ∧ scope < r.2.table.scopes.size ∧
      (info.bases = [] ↔ o.bases = []) ∧ ShowsMembers r.2.table scope info.methods o := by
  rw [typeOfSpec_object_eq]
  obtain ⟨hbrought, hdecls, hs₁, htable₁⟩ := typesOfNames_brings o.bases env s rfl hs htable
  have hlength := length_typesOfNames o.bases env s
  obtain ⟨hbrought', hdecls', htable₂, hlt, hmethods⟩ :=
    sectionsOf_inside hs₁ htable₁ (some owner) o
  have hall := hbrought.trans hbrought'
  rw [noteObject_declared htable₂ ((hall.returns.current ▸ hall.keeps _ _ _ hid :)) _ env]
  refine ⟨_, _, rfl, hall, htable₂, ?_, hbrought.returns.scopes, hlt, ?_, hmethods⟩
  · exact congrArg (· ++ _) (hdecls'.trans hdecls)
  · rw [← List.length_eq_zero_iff, hlength, List.length_eq_zero_iff]

end Check

/-! ## Declared object types -/

/-- An object type that was noted is the one that a declaration writes out. -/
structure CheckState.Describes (s : CheckState) (e : ObjectDecl) (d : TypeDecl) : Prop where
  name : e.name = d.name.name
  scope : e.scope < s.table.scopes.size
  object : ∃ symbol info o, s.table.symbol? e.symbol = some symbol ∧ symbol.type = .object info ∧
    d.type = .object o ∧ (info.bases = [] ↔ o.bases = []) ∧
    Check.ShowsMembers s.table e.scope info.methods o

/-- Between two states the entries were declared in the current scope, among them the object types,
which were noted. -/
structure CheckState.Adds (entries : List Entry) (types : List TypeDecl) (s s' : CheckState) :
    Prop where
  brought : s.table.Brought entries s'.table
  reachable : s'.table.Reachable
  noted : ∃ es, s'.objectDecls = s.objectDecls ++ es ∧
    List.Forall₂ (fun e d => s'.Describes e d ∧ s.table.scopes.size ≤ e.scope) es types

namespace CheckState

variable {s s' s'' : CheckState} {types types' : List TypeDecl} {entries entries' : List Entry}

/-- What stands in another scope than the current one stays as it is. -/
theorem Describes.of_brought {e : ObjectDecl} {d : TypeDecl} (h : s.Describes e d)
    (hs : s.table.Consistent) (hbrought : s.table.Brought entries s'.table)
    (hscope : e.scope ≠ s.table.current) : s'.Describes e d where
  name := h.name
  scope := Nat.lt_of_lt_of_le h.scope hbrought.returns.scopes
  object := by
    obtain ⟨symbol, info, o, hsymbol, hinfo, htype, hbases, hmethods⟩ := h.object
    refine ⟨symbol, info, o, hbrought.symbol _ _ hsymbol, hinfo, htype, hbases, fun name => ?_,
      hmethods.overrides⟩
    rw [hbrought.spanAt?_elsewhere hs h.scope hscope name]
    exact hmethods.span name

/-- The scope that is current and the uses that were recorded play no part. -/
theorem Describes.of_table {e : ObjectDecl} {d : TypeDecl} (h : s.Describes e d) {scope : Nat}
    {rs : References}
    (htable : s'.table = { s.table with current := scope, references := rs }) :
    s'.Describes e d where
  name := h.name
  scope := by
    rw [htable]
    exact h.scope
  object := by
    obtain ⟨symbol, info, o, hsymbol, hinfo, htype, hbases, hmembers⟩ := h.object
    rw [htable]
    exact ⟨symbol, info, o, hsymbol, hinfo, htype, hbases, hmembers.span, hmembers.overrides⟩

/-- Nothing is noted. -/
theorem Adds.of_brought (h : s.table.Brought entries s'.table) (hs' : s'.table.Reachable)
    (hdecls : s'.objectDecls = s.objectDecls) : Adds entries [] s s' :=
  ⟨h, hs', [], hdecls.trans (List.append_nil _).symm, .nil⟩

theorem Adds.trans (h : Adds entries types s s') (hs : s.table.Reachable)
    (h' : Adds entries' types' s' s'') : Adds (entries ++ entries') (types ++ types') s s'' where
  brought := h.brought.trans h'.brought
  reachable := h'.reachable
  noted := by
    obtain ⟨es, hes, hdescribed⟩ := h.noted
    obtain ⟨es', hes', hdescribed'⟩ := h'.noted
    refine ⟨es ++ es', by rw [hes', hes, List.append_assoc], List.rel_append ?_ ?_⟩
    · -- the scopes of the object types are newer than the one that they are declared in
      refine hdescribed.imp fun e d ⟨hed, hscope⟩ => ⟨?_, hscope⟩
      refine hed.of_brought h.reachable.consistent h'.brought ?_
      rw [h.brought.returns.current]
      exact Nat.ne_of_gt (Nat.lt_of_lt_of_le hs.consistent.current hscope)
    · exact hdescribed'.imp fun e d ⟨hed, hscope⟩ =>
        ⟨hed, Nat.le_trans h.brought.returns.scopes hscope⟩

end CheckState

namespace Check

open CheckState (Adds Describes)

variable {env : Env} {s : CheckState}

/-- A symbol takes the next number where its name is free. -/
theorem define_free (symbol : Symbol) (env : Env) (hkind : symbol.kind ≠ .procedure) {e : Entry}
    (hname : symbol.name = e.ident.name) (hspan : symbol.span = e.ident.span)
    (htable : s.table.Reachable) (hfree : s.table.spanAt? s.table.current symbol.name = none) :
    ∃ t, (define symbol).outcome env s = (some s.table.symbols.size, { s with table := t }) ∧
      s.table.Brought [e] t ∧ t.Reachable ∧ (t.symbol? s.table.symbols.size).isSome ∧
      t.declared? t.current symbol.name = some s.table.symbols.size := by
  obtain ⟨-, hdefine, hstate⟩ | ⟨htaken, -⟩ := define_cases_of_kind symbol env hkind htable
  · refine ⟨_, hstate, .append htable hname hspan hfree hdefine,
      htable.defineIn htable.consistent.current hdefine, ?_, ?_⟩
    · rw [SymbolTable.symbol?_append]
      rfl
    · exact (SymbolTable.declared?_append htable.consistent.current symbol _).trans (if_pos rfl)
  · exact absurd hfree htaken

/-- The declaration of an object type where its name is free. -/
theorem declareType_adds (hs : s.Faithful env) (htable : s.table.Reachable) {d : TypeDecl}
    {o : ObjectType} (hd : d.type = .object o)
    (hfree : s.table.spanAt? s.table.current d.name.name = none) :
    s.Adds [.plain d.name] [d] ((declareType d).outcome env s).2 := by
  obtain ⟨t, hstate, hnamed, htable₁, hsome, hid⟩ := define_free (e := .plain d.name)
    { name := d.name.name, kind := .type, span := d.name.span } env (by rintro ⟨⟩) rfl rfl htable
    hfree
  have hnew : s.table.symbol? s.table.symbols.size = none :=
    Array.getElem?_eq_none (Nat.le_refl _)
  have hs₁ : CheckState.Faithful env { s with table := t } := hs.of_same rfl rfl rfl
  unfold declareType
  rw [outcome_bind, hstate, outcome_bind, hd]
  obtain ⟨info, scope, hvalue, hbrought, htable₂, hdecls, hle, hlt, hbases, hmethods⟩ :=
    typeOfSpec_object hs₁ htable₁ hid o
  obtain ⟨symbol, hsymbol⟩ := Option.isSome_iff_exists.1 hsome
  have hall := (hnamed.trans hbrought).retype hnew (.object info)
  generalize (typeOfSpec (some d.name) (.object o)).outcome env _ = r at *
  obtain ⟨type, s₂⟩ := r
  subst hvalue
  refine ⟨hall, htable₂.modifySymbol _ (fun _ => rfl) fun _ => rfl, _, hdecls,
    .cons ⟨⟨rfl, hlt, ?_⟩, Nat.le_trans hnamed.returns.scopes hle⟩ .nil⟩
  refine ⟨{ symbol with type := .object info }, info, o, ?_, rfl, hd, hbases, fun name => ?_,
    hmethods.overrides⟩
  · show (s₂.table.modifySymbol _ _).symbol? _ = _
    rw [SymbolTable.symbol?_retype, if_pos rfl, hbrought.symbol _ _ hsymbol]
    rfl
  · exact (s₂.table.spanAt?_retype _ _ scope name).trans (hmethods.span name)

/-- The declarations of object types with different names that are free. -/
theorem declareAll_adds (hs : s.Faithful env) (htable : s.table.Reachable) {types : List TypeDecl}
    (hobjects : ∀ d ∈ types, ∃ o, d.type = .object o)
    (hdistinct : (types.map (·.name.name)).Nodup)
    (hfree : ∀ d ∈ types, s.table.spanAt? s.table.current d.name.name = none) :
    s.Adds (types.map fun d => .plain d.name) types
      ((declareAll (types.map .type)).outcome env s).2 := by
  induction types generalizing s with
  | nil => exact .of_brought (.references _ _) htable rfl
  | cons d rest ih =>
    obtain ⟨⟨o, hd⟩, hobjects⟩ := List.forall_mem_cons.1 hobjects
    obtain ⟨hname, hdistinct⟩ := List.nodup_cons.1 hdistinct
    obtain ⟨hfirst, hfree⟩ := List.forall_mem_cons.1 hfree
    have hadds := declareType_adds hs htable hd hfirst
    refine hadds.trans htable (ih ((declareType_byName d).faithful rfl hs).1 hadds.reachable
      hobjects hdistinct fun d' hd' => ?_)
    refine (hadds.brought.free_iff _).2 ⟨hfree d' hd', ?_⟩
    rw [Entry.first?_singleton, if_neg fun heq => hname ?_]
    exact List.mem_map.2 ⟨d', hd', heq.symm⟩

end Check

end SimFront
