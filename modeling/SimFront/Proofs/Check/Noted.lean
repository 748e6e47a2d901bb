import SimFront.Proofs.Check.ComposedDecl

/-!
# The object types that are noted

While declarations are checked, the object types of the module are noted for their rules.  Each is
noted under its own name (`CheckState.Noted`), and nothing is reported under the codes of the rules
before their turn comes (`NotesObjects`).  A type gets its members only behind its name, so that
what is noted in between stands for the type that is being declared (`noted_of_object`).
-/

namespace SimFront

namespace SymbolTable

variable {t t' : SymbolTable} {id : Nat}

/-- The symbol is an object type of the module itself. -/
def DeclaresObject (t : SymbolTable) (id : Nat) : Prop :=
  ∃ symbol info, t.symbol? id = some symbol ∧ symbol.kind = .type ∧ symbol.origin? = none ∧
    symbol.type = .object info

/-- What a scope declares under a name, it declares in the second table too. -/
def KeepsNames (t t' : SymbolTable) : Prop :=
  ∀ scope name id, t.declared? scope name = some id → t'.declared? scope name = some id

theorem keepsNames_defineIn {scope : Nat} {symbol : Symbol} (hscope : scope < t.scopes.size)
    (h : t.defineIn scope symbol = .ok (id, t')) : t.KeepsNames t' := by
  intro i name other hother
  by_cases hi : i = scope
  · subst hi
    rw [declared?_defineIn h hscope]
    split
    · next hname =>
      subst hname
      obtain ⟨hfree, -, -⟩ | ⟨_, htaken, -, -, -, -, -⟩ := defineIn_cases h
      · rw [hother] at hfree
        cases hfree
      · rw [← hother, htaken]
    · exact hother
  · rw [declared?_defineIn_of_ne h hi, hother]

/-- Steps of an analysis take no name away. -/
theorem Opened.keepsNames {alone : Prop} {F : List ScopeTree} (h : Opened alone F t t')
    (ht : t.Reachable) : t.KeepsNames t' := by
  induction h with
  | refer t rs => exact fun _ _ _ h => h
  | declare _ hdefine => exact keepsNames_defineIn ht.consistent.current hdefine
  | retype t id type => exact fun _ _ _ h => h
  | @scope t t' F kind span h ih =>
    intro i name id hid
    obtain ⟨scope, hleave⟩ := t'.leave_eq
    rw [hleave]
    refine ih (ht.enter kind span) i name id ?_
    rw [declared?_enter_eq, hid]
  | seq h h' ih ih' =>
    exact fun i name id hid => ih' (h.reachable ht).1 i name id (ih ht i name id hid)

theorem Consistent.of_declares (h : t.Consistent) {name : String} (hd : t.Declares name id) :
    ∃ s, t.symbol? id = some s ∧ s.name = name := by
  obtain ⟨scope, hscope⟩ := hd
  obtain ⟨sc, hsc, hmem⟩ := mem_names_of_declared? hscope
  obtain ⟨s, hs, hname, -⟩ := h.named hsc _ hmem
  exact ⟨s, hs, hname⟩

theorem Consistent.keeps_defineIn (h : t.Consistent) {scope : Nat} {symbol : Symbol}
    (hdefine : t.defineIn scope symbol = .ok (id, t')) : t.Keeps t' := by
  intro i s hs
  rw [symbol?_defineIn hdefine]
  by_cases hi : i = id
  · subst hi
    obtain ⟨hname, -⟩ := h.completed hdefine hs
    exact ⟨_, if_pos rfl, hname.symm⟩
  · exact ⟨s, by rw [if_neg hi, hs], rfl⟩

/-- A name that the current scope declares means that declaration. -/
theorem lookupId?_of_declared {name : String} (h : t.declared? t.current name = some id) :
    t.lookupId? name = some id := by
  unfold lookupId? lookupFrom?
  rw [enclosing_eq, List.findSome?_cons, h]

end SymbolTable

namespace CheckState

/-- The object types of the module are noted, under the names of their symbols. -/
structure Noted (s : CheckState) : Prop where
  named : ∀ d ∈ s.objectDecls, ∃ symbol, s.table.symbol? d.symbol = some symbol ∧
    symbol.name = d.name
  noted : ∀ id, s.table.DeclaresObject id → ∃ d ∈ s.objectDecls, d.symbol = id

variable {s s' : CheckState}

theorem Noted.of_keeps (h : s.Noted) (hkeeps : s.table.Keeps s'.table)
    (hobjects : ∀ id, s'.table.DeclaresObject id → s.table.DeclaresObject id)
    (hdecls : s'.objectDecls = s.objectDecls) : s'.Noted where
  named d hd := by
    obtain ⟨symbol, hsymbol, hname⟩ := h.named d (hdecls ▸ hd)
    obtain ⟨symbol', hsymbol', hname'⟩ := hkeeps _ _ hsymbol
    exact ⟨symbol', hsymbol', hname'.trans hname⟩
  noted id hid := hdecls ▸ h.noted id (hobjects id hid)

/-- The symbols and what is noted are the same. -/
theorem Noted.of_symbols (h : s.Noted) (hsymbols : s'.table.symbols = s.table.symbols)
    (hdecls : s'.objectDecls = s.objectDecls) : s'.Noted := by
  have hsame (id : Nat) : s'.table.symbol? id = s.table.symbol? id := by
    unfold SymbolTable.symbol?
    rw [hsymbols]
  refine h.of_keeps (fun id symbol hsymbol => ⟨symbol, by rw [hsame, hsymbol], rfl⟩)
    (fun id hid => ?_) hdecls
  unfold SymbolTable.DeclaresObject at hid ⊢
  rwa [hsame] at hid

/-- A declaration is no object type of the module while nothing else is known of it. -/
theorem Noted.define (h : s.Noted) (hs : s.table.Consistent) {symbol : Symbol} {id : Nat}
    {t : SymbolTable}
    (hsymbol : symbol.kind = .type → symbol.isImported ∨ symbol.type = .unknown)
    (hdefine : s.table.define symbol = .ok (id, t)) : Noted { s with table := t } := by
  refine h.of_keeps (hs.keeps_defineIn hdefine) (fun i hi => ?_) rfl
  obtain ⟨other, info, hother, hkind, horigin, htype⟩ := hi
  dsimp only at hother
  rw [SymbolTable.symbol?_defineIn hdefine] at hother
  split at hother
  · obtain rfl := Option.some.inj hother
    rcases hsymbol hkind with himported | hunknown
    · rw [Symbol.isImported, horigin] at himported
      cases himported
    · cases htype.symm.trans hunknown
  · exact ⟨other, info, hother, hkind, horigin, htype⟩

/-- A symbol may become an object type that is noted. -/
theorem Noted.retype (h : s.Noted) {id : Nat} {type : Ty}
    (hobject : ∀ info, type = .object info → ∃ d ∈ s.objectDecls, d.symbol = id) :
    Noted { s with table := s.table.modifySymbol id fun symbol => { symbol with type } } where
  named d hd := by
    obtain ⟨symbol, hsymbol, hname⟩ := h.named d hd
    obtain ⟨symbol', hsymbol', hname'⟩ :=
      s.table.keeps_modifySymbol id (f := fun symbol => { symbol with type }) (fun _ => rfl) _ _
        hsymbol
    exact ⟨symbol', hsymbol', hname'.trans hname⟩
  noted i hi := by
    obtain ⟨symbol, info, hsymbol, hkind, horigin, htype⟩ := hi
    dsimp only at hsymbol
    rw [SymbolTable.symbol?_retype] at hsymbol
    split at hsymbol
    · next heq =>
      obtain ⟨old, -, rfl⟩ := Option.map_eq_some_iff.1 hsymbol
      exact heq ▸ hobject info htype
    · exact h.noted i ⟨symbol, info, hsymbol, hkind, horigin, htype⟩

end CheckState

namespace Check

open SymbolTable (Opened)

variable {α β : Type} {head : ModuleHead} {env : Env} {s : CheckState}

/-- Every run of the step notes the object types that it declares, and reports nothing under the
codes of their rules. -/
def NotesObjects (head : ModuleHead) (p : Check α) : Prop :=
  ∀ env s, env.head = head → s.Faithful env → s.table.Reachable → s.Noted →
    (p.outcome env s).2.Faithful env ∧ (p.outcome env s).2.table.Reachable ∧
      (p.outcome env s).2.Noted ∧
      ∀ x ∈ (p.outcome env s).2.reports, x ∈ s.reports ∨ x.code ∉ ruleCodes

/-- A symbol is declared, or its name is taken and that is reported. -/
theorem define_outcome (symbol : Symbol) (env : Env) (s : CheckState) :
    (∃ id t, s.table.define symbol = .ok (id, t) ∧
      (define symbol).outcome env s = (some id, { s with table := t })) ∨
    ∃ d x, s.table.define symbol = .error d ∧ x.code = .duplicateDefinition ∧
      (define symbol).outcome env s = (none, { s with reports := x :: s.reports }) := by
  unfold define
  rw [outcome_bind]
  cases h : s.table.define symbol with
  | ok defined =>
    obtain ⟨id, t⟩ := defined
    rw [show (table.outcome env s).1.define symbol = .ok (id, t) from h]
    exact .inl ⟨id, t, rfl, rfl⟩
  | error d =>
    rw [show (table.outcome env s).1.define symbol = .error d from h]
    exact .inr ⟨d, _, rfl, rfl, rfl⟩

/-! ## The parts -/

theorem define_notes {symbol : Symbol}
    (hsymbol : symbol.kind = .type → symbol.isImported ∨ symbol.type = .unknown) :
    NotesObjects head (define symbol) := by
  intro env s henv hs htable hnoted
  refine ⟨((define_byName symbol).faithful henv hs).1, ?_⟩
  obtain ⟨id, t, hdefine, hstate⟩ | ⟨-, x, -, hcode, hstate⟩ := define_outcome symbol env s
  · rw [hstate]
    exact ⟨htable.defineIn htable.consistent.current hdefine,
      hnoted.define htable.consistent hsymbol hdefine, fun x hx => .inl hx⟩
  · rw [hstate]
    refine ⟨htable, hnoted.of_symbols rfl rfl, fun y hy => ?_⟩
    rcases List.mem_cons.1 hy with rfl | hy
    · rw [hcode]
      exact .inr (by decide)
    · exact .inl hy

/-- A step that changes nothing but the scopes. -/
theorem scopes_notes {f : SymbolTable → SymbolTable} (hf : ∀ t, t.Reachable → (f t).Reachable)
    (hsymbols : ∀ t, (f t).symbols = t.symbols) : NotesObjects head (modifyTable f) :=
  fun _ s henv hs htable hnoted => ⟨((modifyTable_byName f).faithful henv hs).1, hf _ htable,
    hnoted.of_symbols (hsymbols s.table) rfl, fun _ hx => .inl hx⟩

theorem noteObject_notes (owner? : Option Ident) (scope : Nat) :
    NotesObjects head (noteObject owner? scope) := by
  intro env s henv hs htable hnoted
  refine ⟨((noteObject_byName owner? scope).faithful henv hs).1, ?_⟩
  cases owner? with
  | none => exact ⟨htable, hnoted, fun _ hx => .inl hx⟩
  | some o =>
    unfold noteObject
    rw [outcome_bind]
    show (_ : CheckState).table.Reachable ∧ _
    cases hid : s.table.lookupId? o.name with
    | none =>
      rw [show (table.outcome env s).1.lookupId? o.name = none from hid]
      exact ⟨htable, hnoted, fun _ hx => .inl hx⟩
    | some id =>
      rw [show (table.outcome env s).1.lookupId? o.name = some id from hid]
      obtain ⟨symbol, hsymbol, -⟩ :=
        htable.consistent.of_declares (SymbolTable.declares_of_lookupFrom? hid)
      have hname : ((s.table.symbol? id).map (·.name)).getD o.name = symbol.name := by
        rw [hsymbol]
        rfl
      refine ⟨htable, ⟨fun d hd => ?_, fun i hi => ?_⟩, fun _ hx => .inl hx⟩
      · rcases List.mem_append.1 hd with hd | hd
        · exact hnoted.named d hd
        · obtain rfl := List.mem_singleton.1 hd
          exact ⟨symbol, hsymbol, hname.symm⟩
      · obtain ⟨d, hd, hdi⟩ := hnoted.noted i hi
        exact ⟨d, List.mem_append_left _ hd, hdi⟩

theorem notes_decls : ComposesParts head fun _ p => NotesObjects head p where
  bind hp hf := by
    intro env s henv hs htable hnoted
    obtain ⟨hs', htable', hnoted', hreports⟩ := hp env s henv hs htable hnoted
    obtain ⟨hs'', htable'', hnoted'', hreports'⟩ := hf _ env _ henv hs' htable' hnoted'
    rw [outcome_bind]
    exact ⟨hs'', htable'', hnoted'', fun x hx => (hreports' x hx).elim (hreports x) .inr⟩
  get h := fun env s => h s env s
  read h := fun env s henv => h env henv env s henv
  withReader f hf hhead hp := by
    intro env s henv hs htable hnoted
    obtain ⟨hs', hrest⟩ := hp (f env) s ((hhead env).trans henv)
      (hs.of_resolver (hf env) (hhead env)) htable hnoted
    exact ⟨hs'.of_resolver (hf env).symm (hhead env).symm, hrest⟩
  touch hp := by
    intro env s henv hs htable hnoted
    obtain ⟨htouched, hs', -⟩ := hp env s ⟨henv, hs⟩
    obtain ⟨rs, hrs, -⟩ := htouched.table
    obtain ⟨more, hmore, hplace⟩ := htouched.reports
    refine ⟨hs', ?_, hnoted.of_symbols (by rw [hrs]) htouched.objectDecls, fun x hx => .inl ?_⟩
    · rw [hrs]
      exact htable.references rs
    · rw [hmore] at hx
      exact (List.mem_append.1 hx).elim (fun hx => (hplace x hx).elim) id
  report hcode := fun env s henv hs htable hnoted => by
    refine ⟨((report_byName _).faithful henv hs).1, htable, hnoted.of_symbols rfl rfl, ?_⟩
    intro x hx
    rcases List.mem_cons.1 hx with rfl | hx
    · exact .inr hcode
    · exact .inl hx
  define hsymbol := define_notes fun hkind => .inl (hsymbol.type hkind)
  enter kind span := scopes_notes (fun _ h => h.enter kind span) fun _ => rfl
  leave := scopes_notes (fun _ h => h.leave) fun t => by
    obtain ⟨scope, hleave⟩ := t.leave_eq
    rw [hleave]
  aside hname hf := by
    intro env s henv hs htable hnoted
    obtain ⟨htable', hreports, hdecls⟩ := hf s
    refine ⟨(hname.faithful henv hs).1, ?_, hnoted.of_symbols ?_ hdecls, fun x hx => .inl ?_⟩
    · rw [outcome_modify, htable']
      exact htable
    · rw [outcome_modify, htable']
    · rwa [outcome_modify, hreports] at hx
  note := noteObject_notes

/-! ## Declarations of types -/

/-- Only a specification of an object type stands for an object type. -/
theorem typeOfSpec_of_object {owner? : Option Ident} {spec : TypeSpec} {info : ObjectInfo}
    (h : ((typeOfSpec owner? spec).outcome env s).1 = .object info) : ∃ o, spec = .object o := by
  cases spec with
  | object o => exact ⟨o, rfl⟩
  | named q =>
    rw [typeOfSpec] at h
    unfold typeOfName at h
    dsimp only at h
    split at h
    · next b hb =>
      obtain rfl : b = .object info := h
      cases hmodule : q.module? with
      | none =>
        rw [hmodule] at hb
        obtain ⟨builtin, -, hobject⟩ := Option.map_eq_some_iff.1 hb
        cases hobject
      | some m =>
        rw [hmodule] at hb
        cases hb
    · cases h
  | _ =>
    simp only [typeOfSpec, outcome_bind, outcome_pure] at h
    cases h

/-- What is noted for a name is what the current scope declares under it, if it does so. -/
theorem noteObject_current {owner : Ident} {scope id : Nat}
    (h : ((noteObject (some owner) scope).outcome env s).2.table.declared?
      ((noteObject (some owner) scope).outcome env s).2.table.current owner.name = some id) :
    ∃ d ∈ ((noteObject (some owner) scope).outcome env s).2.objectDecls, d.symbol = id := by
  unfold noteObject at h ⊢
  rw [outcome_bind] at h ⊢
  have hid : (table.outcome env s).1.lookupId? owner.name = some id := by
    refine SymbolTable.lookupId?_of_declared ?_
    split at h
    · exact h
    · exact h
  rw [hid]
  exact ⟨_, List.mem_append_right _ List.mem_cons_self, rfl⟩

/-- The members of a type are declared below the scope that declares its name, and so it is this
type that is noted. -/
theorem noted_of_object {owner : Ident} {spec : TypeSpec} {info : ObjectInfo} {id : Nat}
    (hs : s.Faithful env) (htable : s.table.Reachable)
    (hid : s.table.declared? s.table.current owner.name = some id)
    (h : ((typeOfSpec (some owner) spec).outcome env s).1 = .object info) :
    ∃ d ∈ ((typeOfSpec (some owner) spec).outcome env s).2.objectDecls, d.symbol = id := by
  obtain ⟨hopened, -⟩ := typeOfSpec_opens (some owner) spec env s rfl rfl hs
  have hkept := hopened.keepsNames htable _ _ _ hid
  rw [← (hopened.reachable htable).2.2] at hkept
  obtain ⟨⟨bases, sections, span⟩, rfl⟩ := typeOfSpec_of_object h
  rw [typeOfSpec] at hkept ⊢
  exact noteObject_current hkept

theorem declareType_notes (d : TypeDecl) : NotesObjects head (declareType d) := by
  intro env s henv hs htable hnoted
  have hbyName := ((declareType_byName d).faithful henv hs).1
  refine ⟨hbyName, ?_⟩
  have typed : NotesObjects head _ := typeOfSpec_composes notes_decls.decls (some d.name) d.type
  unfold declareType
  rw [outcome_bind]
  obtain ⟨id, t, hdefine, hstate⟩ | ⟨-, x, -, hcode, hstate⟩ :=
    define_outcome { name := d.name.name, kind := .type, span := d.name.span } env s
  · -- the type is declared, and without members at first
    rw [hstate, outcome_bind]
    have hs₁ : CheckState.Faithful env { s with table := t } := hs.of_same rfl rfl rfl
    have htable₁ := htable.defineIn htable.consistent.current hdefine
    obtain ⟨-, htable₂, hnoted₂, hreports⟩ := typed env { s with table := t } henv hs₁ htable₁
      (hnoted.define htable.consistent (fun _ => .inr rfl) hdefine)
    have hid : t.declared? t.current d.name.name = some id := by
      rw [SymbolTable.current_defineIn hdefine,
        SymbolTable.declared?_defineIn hdefine htable.consistent.current, if_pos rfl]
    exact ⟨htable₂.modifySymbol id (fun _ => rfl) fun _ => rfl,
      hnoted₂.retype fun info => noted_of_object hs₁ htable₁ hid, hreports⟩
  · -- the name is taken, and nothing gets the type
    rw [hstate, outcome_bind]
    obtain ⟨-, htable', hnoted', hreports⟩ := typed env { s with reports := x :: s.reports } henv
      (hs.of_same rfl rfl rfl) htable (hnoted.of_symbols rfl rfl)
    refine ⟨htable', hnoted', fun y hy => ?_⟩
    rcases hreports y hy with hy | hy
    · rcases List.mem_cons.1 hy with rfl | hy
      · rw [hcode]
        exact .inr (by decide)
      · exact .inl hy
    · exact .inr hy

theorem notes_types : ComposesTypes head fun _ p => NotesObjects head p :=
  notes_decls.types declareType_notes

end Check

/-! ## Whole modules -/

/-- When the rules for object types come, all object types of the module are noted for them, and
nothing is reported under their codes. -/
theorem noted_declared (resolver? : Option Resolver) (m : Module) :
    (CheckState.declared resolver? m).Noted ∧
      ∀ x ∈ (CheckState.declared resolver? m).reports, x.code ∉ Check.ruleCodes := by
  have hstart : (CheckState.ofModule m).Noted := by
    refine ⟨List.forall_mem_nil _, ?_⟩
    rintro id ⟨symbol, info, hsymbol, -⟩
    cases hsymbol
  have notes : Check.NotesObjects (Env.ofModule resolver? m).head (Check.checkDeclared m) :=
    Check.checkDeclared_composes Check.notes_types rfl m
  obtain ⟨-, -, hnoted, hreports⟩ := notes _ (.ofModule m) rfl (faithful_ofModule resolver? m)
    (.new m.name.name m.span) hstart
  exact ⟨hnoted, fun x hx => (hreports x hx).elim (fun h => nomatch h) id⟩

end SimFront
