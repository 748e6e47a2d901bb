import SimFront.Proofs.Check.Brought
import SimFront.Proofs.Types.Naming

/-!
# Where no modules are named

The names of other modules come into an analysis in front of the names of types, and they stay in
the types that it makes.  `Confines own qs P p` says of a step of the analysis of the module `own`,
when no other module is known and nothing is imported: where all types name no modules but `qs`,
the step comes to a value as `P` says and to such a state again, and it asks for no modules but
`qs`.  There is one rule for each way of building steps, and by these rules the searches and the
uses of names confine.
-/

namespace SimFront

open Naming (NamesOnly)

variable {own : String} {qs : List String}

/-! ## Where an analysis is confined -/

/-- No other module is known, the module has no definition module, and no types around name other
modules than `qs`. -/
structure Env.Confined (own : String) (qs : List String) (env : Env) : Prop where
  resolver : env.resolver? = none
  name : env.moduleName = own
  kind : env.moduleKind ≠ .implementation
  objects : ∀ c ∈ env.objects, NamesOnly qs c.object?
  routine : NamesOnly qs env.routine?

/-- The symbols of a table name no other modules than `qs`, and only the module itself is declared
as a module. -/
structure SymbolTable.Confined (own : String) (qs : List String) (t : SymbolTable) : Prop where
  symbols : ∀ i x, t.symbol? i = some x → NamesOnly qs x
  declares : ∀ name i, t.Declares name i →
    ∃ x, t.symbol? i = some x ∧ (x.kind = .module → name = own)

/-- Nothing is imported whole, and only modules of `qs` are named and were asked for. -/
structure CheckState.Confined (own : String) (qs : List String) (s : CheckState) : Prop where
  table : s.table.Confined own qs
  asked : ∀ e ∈ s.modules, e.1 ∈ qs ∧ e.1 ≠ own ∧ e.2 = none
  imports : s.wholeImports = []
  pending : ∀ p ∈ s.pendingTypes, NamesOnly qs p.module?
  signatures : ∀ e ∈ s.signatures, NamesOnly qs e.2

namespace SymbolTable

variable {t t' : SymbolTable}

theorem confined_new (moduleName : String) (span : Span) :
    (new moduleName span).Confined own qs where
  symbols _ _ h := nomatch h
  declares _ _ h := by
    obtain ⟨x, hx, -⟩ := (named_new moduleName span).of_declares h
    cases hx

theorem Confined.of_scopes (h : t.Confined own qs) (hscopes : t'.scopes = t.scopes)
    (hsymbols : t'.symbols = t.symbols) : t'.Confined own qs where
  symbols i x hx := by
    unfold symbol? at hx
    rw [hsymbols] at hx
    exact h.symbols i x hx
  declares name i hname := by
    obtain ⟨scope, hscope⟩ := hname
    unfold declared? scope? at hscope
    rw [hscopes] at hscope
    obtain ⟨x, hx, hkind⟩ := h.declares name i ⟨scope, hscope⟩
    unfold symbol?
    rw [hsymbols]
    exact ⟨x, hx, hkind⟩

theorem Confined.enter (h : t.Confined own qs) (kind : ScopeKind) (span : Span) :
    (t.enter kind span).Confined own qs where
  symbols := h.symbols
  declares name i := by
    rintro ⟨scope, hscope⟩
    refine h.declares name i ⟨scope, ?_⟩
    rw [declared?_enter_eq] at hscope
    exact hscope

theorem Confined.leave (h : t.Confined own qs) : t.leave.Confined own qs := by
  obtain ⟨scope, hleave⟩ := t.leave_eq
  rw [hleave]
  exact h.of_scopes rfl rfl

theorem Confined.refer (h : t.Confined own qs) (scope id : Nat) (span : Span) :
    (t.referIn scope id span).Confined own qs := h.of_scopes rfl rfl

/-- Nothing is declared anew, and what is declared stays under its kind. -/
theorem Confined.of_kinds (h : t.Confined own qs) (hscopes : t'.scopes = t.scopes)
    (hsymbols : ∀ i x, t'.symbol? i = some x → NamesOnly qs x)
    (hkinds : ∀ i x, t.symbol? i = some x →
      ∃ x', t'.symbol? i = some x' ∧ (x'.kind = .module → x.kind = .module)) :
    t'.Confined own qs where
  symbols := hsymbols
  declares name i hname := by
    obtain ⟨scope, hscope⟩ := hname
    unfold declared? scope? at hscope
    rw [hscopes] at hscope
    obtain ⟨x, hx, hmodule⟩ := h.declares name i ⟨scope, hscope⟩
    obtain ⟨x', hx', hkind⟩ := hkinds i x hx
    exact ⟨x', hx', fun h => hmodule (hkind h)⟩

theorem Confined.retype (h : t.Confined own qs) (id : Nat) {type : Ty} (htype : NamesOnly qs type) :
    (t.modifySymbol id fun s => { s with type }).Confined own qs := by
  refine h.of_kinds rfl (fun i x hx => ?_) fun i x hx => ?_
  · rw [symbol?_retype] at hx
    split at hx
    · obtain ⟨y, hy, rfl⟩ := Option.map_eq_some_iff.1 hx
      exact ⟨htype, (h.symbols i y hy).2⟩
    · exact h.symbols i x hx
  · rw [symbol?_retype, hx]
    split
    · exact ⟨_, rfl, fun h => h⟩
    · exact ⟨x, rfl, fun h => h⟩

theorem Confined.define (h : t.Confined own qs) {symbol : Symbol} (hsymbol : NamesOnly qs symbol)
    (hkind : symbol.kind = .module → symbol.name = own) {id : Nat}
    (hdefine : t.define symbol = .ok (id, t')) : t'.Confined own qs := by
  have symbols (i : Nat) (x : Symbol) (hx : t'.symbol? i = some x) : NamesOnly qs x := by
    rw [symbol?_defineIn hdefine] at hx
    split at hx
    · cases hx
      exact hsymbol
    · exact h.symbols i x hx
  obtain ⟨-, rfl, rfl⟩ | ⟨previous, -, -, -, -, hprocedure, rfl⟩ := defineIn_cases hdefine
  · refine ⟨symbols, ?_⟩
    rintro name i ⟨scope, hscope⟩
    obtain ⟨sc, hsc, hfind⟩ := Option.bind_eq_some_iff.1 hscope
    obtain ⟨old, hold, hnames⟩ := scope?_append hsc
    have kept (hname : old.names.lookup name = some i) :
        ∃ x, (t.append t.current symbol).symbol? i = some x ∧ (x.kind = .module → name = own) := by
      obtain ⟨x, hx, hmodule⟩ := h.declares name i
        ⟨scope, Option.bind_eq_some_iff.2 ⟨old, hold, hname⟩⟩
      exact ⟨x, symbol?_append_of_some hx, hmodule⟩
    unfold Scope.find? at hfind
    rw [hnames] at hfind
    split at hfind
    · rw [List.lookup_cons] at hfind
      split at hfind
      · next heq =>
        cases hfind
        refine ⟨_, symbol?_append t t.current symbol, fun hmodule => ?_⟩
        exact (beq_iff_eq.1 heq).trans (hkind hmodule)
      · exact kept hfind
    · exact kept hfind
  · refine h.of_kinds rfl symbols fun i x hx => ?_
    rw [symbol?_defineIn hdefine]
    split
    · refine ⟨_, rfl, fun h => ?_⟩
      rw [show symbol.kind = .module from h] at hprocedure
      cases hprocedure
    · exact ⟨x, hx, fun h => h⟩

end SymbolTable

namespace Check

variable {α β : Type} {P : α → Prop} {Q : β → Prop} {p : Check α} {f : α → Check β}

/-- Where other modules than `qs` are not named, the step comes to a value as `P` says and to a
state where they are not named either, and it asks for no others. -/
def Confines (own : String) (qs : List String) (P : α → Prop) (p : Check α) : Prop :=
  ∀ env s, env.Confined own qs → s.Confined own qs →
    P (p.outcome env s).1 ∧ (p.outcome env s).2.Confined own qs

namespace Confines

theorem pure {a : α} (h : P a) : Confines own qs P (Pure.pure a) := fun _ _ _ hs => ⟨h, hs⟩

theorem bind (hp : Confines own qs P p) (hf : ∀ a, P a → Confines own qs Q (f a)) :
    Confines own qs Q (p >>= f) := by
  intro env s henv hs
  obtain ⟨ha, hs'⟩ := hp env s henv hs
  exact hf _ ha env _ henv hs'

theorem mono {P' : α → Prop} (hp : Confines own qs P p) (h : ∀ a, P a → P' a) :
    Confines own qs P' p := fun env s henv hs => (hp env s henv hs).imp_left (h _)

theorem get {f : CheckState → Check β}
    (hf : ∀ s, s.Confined own qs → Confines own qs Q (f s)) :
    Confines own qs Q (MonadState.get >>= f) := fun env s henv hs => hf s hs env s henv hs

theorem read {f : Env → Check β} (hf : ∀ env, env.Confined own qs → Confines own qs Q (f env)) :
    Confines own qs Q (MonadReader.read >>= f) := fun env s henv hs => hf env henv env s henv hs

theorem withReader {f : Env → Env} (hf : ∀ env, env.Confined own qs → (f env).Confined own qs)
    (hp : Confines own qs P p) : Confines own qs P (MonadWithReader.withReader f p) :=
  fun env s henv hs => hp (f env) s (hf env henv) hs

theorem modify {f : CheckState → CheckState}
    (hf : ∀ s, s.Confined own qs → (f s).Confined own qs) :
    Confines own qs (fun _ => True) (modify f) := fun _ s _ hs => ⟨trivial, hf s hs⟩

theorem table {f : SymbolTable → Check β}
    (hf : ∀ t, t.Confined own qs → Confines own qs Q (f t)) :
    Confines own qs Q (Check.table >>= f) := fun env s henv hs => hf s.table hs.table env s henv hs

/-- Another module is not found. -/
theorem ask {m : String} (hm : m ∈ qs) (hown : m ≠ own) {f : Option SymbolTable → Check β}
    (hf : Confines own qs Q (f none)) : Confines own qs Q (moduleTable? m >>= f) := by
  intro env s henv hs
  rw [outcome_bind, outcome_moduleTable?]
  split
  · next answer hfind =>
    have hanswer := (hs.asked _ (mem_of_lookup hfind)).2.2
    rw [show answer = none from hanswer]
    exact hf env s henv hs
  · have hanswer : env.answer m = none := by
      rw [Env.answer, henv.resolver]
      rfl
    rw [hanswer]
    refine hf env _ henv ⟨hs.table, fun e he => ?_, hs.imports, hs.pending, hs.signatures⟩
    rcases List.mem_cons.1 he with rfl | he
    · exact ⟨hm, hown, rfl⟩
    · exact hs.asked e he

/-- There is no definition module. -/
theorem definition {f : Option SymbolTable → Check β} (hf : Confines own qs Q (f none)) :
    Confines own qs Q (definitionTable? >>= f) := by
  intro env s henv hs
  have hnone : definitionTable?.outcome env s = (none, s) := by
    unfold definitionTable?
    rw [outcome_read, if_neg henv.kind]
    rfl
  rw [outcome_bind, hnone]
  exact hf env s henv hs

theorem forM {as : List α} {f : α → Check Unit}
    (hf : ∀ a ∈ as, Confines own qs (fun _ => True) (f a)) :
    Confines own qs (fun _ => True) (as.forM f) := by
  induction as with
  | nil => exact .pure trivial
  | cons a as ih =>
    exact (hf a List.mem_cons_self).bind fun _ _ => ih fun b hb => hf b (List.mem_cons_of_mem a hb)

theorem optionForM {a? : Option α} {f : α → Check Unit}
    (hf : ∀ a ∈ a?, Confines own qs (fun _ => True) (f a)) :
    Confines own qs (fun _ => True) (a?.forM f) := by
  cases a? with
  | none => exact .pure trivial
  | some a => exact hf a rfl

theorem mapM {as : List α} (hf : ∀ a ∈ as, Confines own qs Q (f a)) :
    Confines own qs (fun bs => ∀ b ∈ bs, Q b) (as.mapM f) := by
  induction as with
  | nil => exact .pure nofun
  | cons a as ih =>
    rw [List.mapM_cons]
    refine (hf a List.mem_cons_self).bind fun b hb =>
      (ih fun c hc => hf c (List.mem_cons_of_mem a hc)).bind fun bs hbs => .pure ?_
    exact List.forall_mem_cons.2 ⟨hb, hbs⟩

end Confines

/-! ## Names -/

theorem report_confines (d : Diagnostic) : Confines own qs (fun _ => True) (report d) :=
  .modify fun _ hs => ⟨hs.table, hs.asked, hs.imports, hs.pending, hs.signatures⟩

theorem error_confines (code : DiagnosticCode) (span : Span) (message : String) :
    Confines own qs (fun _ => True) (error code span message) := report_confines _

theorem warning_confines (code : DiagnosticCode) (span : Span) (message : String) :
    Confines own qs (fun _ => True) (warning code span message) := report_confines _

theorem modifyTable_confines {f : SymbolTable → SymbolTable}
    (hf : ∀ t, t.Confined own qs → (f t).Confined own qs) :
    Confines own qs (fun _ => True) (modifyTable f) :=
  .modify fun _ hs => ⟨hf _ hs.table, hs.asked, hs.imports, hs.pending, hs.signatures⟩

theorem refer_confines (id : Nat) (span : Span) :
    Confines own qs (fun _ => True) (refer id span) :=
  modifyTable_confines fun _ ht => ht.refer _ id span

theorem setOutState_confines (id : Nat) (f : OutState → OutState) :
    Confines own qs (fun _ => True) (setOutState id f) :=
  .modify fun _ hs => ⟨hs.table, hs.asked, hs.imports, hs.pending, hs.signatures⟩

theorem currentScope_confines : Confines own qs (fun _ => True) currentScope :=
  .table fun _ _ => .pure trivial

theorem symbol?_confines (id : Nat) : Confines own qs (NamesOnly qs) (symbol? id) :=
  .table fun _ ht => .pure (ht.symbols id)

theorem hasUnresolvedSource_confines : Confines own qs (fun _ => True) hasUnresolvedSource := by
  refine .read fun env henv => ?_
  rw [if_neg henv.kind, pure_bind]
  exact .get fun _ _ => .pure trivial

theorem suppressUnknown_confines : Confines own qs (fun _ => True) suppressUnknown := by
  refine .read fun env _ => ?_
  split
  · exact .pure trivial
  · exact hasUnresolvedSource_confines

theorem lookupExternal_confines (name : String) :
    Confines own qs (NamesOnly qs) (lookupExternal name) := by
  refine .read fun env _ => .definition (.get fun s hs => ?_)
  rw [hs.imports, firstImported?, pure_bind]
  refine hasUnresolvedSource_confines.bind fun unresolved _ => ?_
  split
  · exact .pure namesOnly_unknowable
  · exact .pure namesOnly_missing

theorem lookup_confines {module? : Option String}
    (h : ∀ m, module? = some m → m ≠ own → m ∈ qs) (name : String) (scope : Nat) :
    Confines own qs (NamesOnly qs) (lookup module? name scope) := by
  refine .read fun env henv => .table fun t _ => ?_
  cases module? with
  | none =>
    dsimp only
    split
    · exact .pure (namesOnly_found (namesOnly_declared _))
    · exact lookupExternal_confines name
  | some m =>
    dsimp only
    rw [if_neg henv.kind, henv.name]
    split
    · split
      · exact .pure (namesOnly_found (namesOnly_declared _))
      · exact .pure namesOnly_missing
    · next hm => exact .ask (h m rfl hm) hm (.pure namesOnly_unknowable)

theorem bindingSymbol?_confines {b : Binding} (hb : NamesOnly qs b) :
    Confines own qs (NamesOnly qs) (bindingSymbol? b) := by
  cases b with
  | declared id => exact symbol?_confines id
  | external s => exact .pure (namesOnly_some.2 (hb s rfl))
  | builtin => exact .pure namesOnly_none

theorem valueType_confines {b : Binding} (hb : NamesOnly qs b) :
    Confines own qs (NamesOnly qs) (valueType b) := by
  refine (bindingSymbol?_confines hb).bind fun s? hs => ?_
  cases s? with
  | none => exact .pure Ty.namesOnly_unknown
  | some s =>
    dsimp only
    split
    · exact .pure Ty.namesOnly_unknown
    · exact .pure (hs s rfl).1

theorem isPlaceholder_confines (b : Binding) :
    Confines own qs (fun _ => True) (isPlaceholder b) := by
  cases b with
  | declared id => exact .get fun _ _ => .pure trivial
  | external s => exact .pure trivial
  | builtin => exact .pure trivial

/-! ## Types by name -/

theorem namesOnly_builtinType? (module? : Option String) (name : String) :
    NamesOnly qs (builtinType? module? name) := by
  intro t ht
  cases module? with
  | none =>
    obtain ⟨b, -, rfl⟩ := Option.map_eq_some_iff.1 ht
    exact Ty.namesOnly_builtin
  | some m => cases ht

theorem declaredType?_confines {module? : Option String} (h : NamesOnly qs module?) (name : String)
    (scope : Nat) : Confines own qs (NamesOnly qs) (declaredType? module? name scope) := by
  refine (lookup_confines (fun m hm _ => h m hm) name scope).bind fun found hfound => ?_
  cases found with
  | unknowable => exact .pure namesOnly_none
  | missing => exact .pure namesOnly_none
  | found b =>
    refine (bindingSymbol?_confines (hfound b rfl)).bind fun s? hs => ?_
    cases s? with
    | none => exact .pure namesOnly_none
    | some s =>
      dsimp only
      split
      · exact .pure (namesOnly_some.2 (hs s rfl).1)
      · exact .pure namesOnly_none

theorem followNames_confines (scope hops : Nat) {t : Ty} (ht : NamesOnly qs t) :
    Confines own qs (NamesOnly qs) (followNames scope hops t) := by
  induction hops generalizing t with
  | zero => exact .pure namesOnly_none
  | succ hops ih =>
    cases t with
    | named module? name =>
      unfold followNames
      split
      · next b hb => exact .pure (hb ▸ namesOnly_builtinType? module? name)
      · refine (declaredType?_confines (Ty.namesOnly_named.1 ht) name scope).bind fun t? ht => ?_
        cases t? with
        | none => exact .pure namesOnly_none
        | some t => exact ih (ht t rfl)
    | _ => exact .pure (namesOnly_some.2 ht)

theorem resolveNamed_confines {module? : Option String} (h : NamesOnly qs module?) (name : String) :
    Confines own qs (NamesOnly qs) (resolveNamed module? name) :=
  currentScope_confines.bind fun scope _ =>
    followNames_confines scope maxHops (Ty.namesOnly_named.2 h)

theorem normalize_confines {t : Ty} (ht : NamesOnly qs t) :
    Confines own qs (NamesOnly qs) (normalize t) := by
  cases t with
  | named module? name =>
    refine (resolveNamed_confines (Ty.namesOnly_named.1 ht) name).bind fun t? hbehind => ?_
    split
    · exact .pure ht
    · exact .pure ht
    · exact .pure ht
    · exact .pure (namesOnly_some.1 hbehind)
  | _ => exact .pure ht

theorem assignable_confines {target source : Ty} (htarget : NamesOnly qs target)
    (hsource : NamesOnly qs source) :
    Confines own qs (fun _ => True) (assignable target source) :=
  (normalize_confines htarget).bind fun _ _ => (normalize_confines hsource).bind fun _ _ =>
    .pure trivial

/-! ## Objects -/

theorem objectOrigin?_confines {module? : Option String} (h : NamesOnly qs module?)
    (name : String) : Confines own qs (NamesOnly qs) (objectOrigin? module? name) := by
  refine .read fun env _ => ?_
  dsimp only
  split
  · next m hm => exact .pure (namesOnly_some.2 (h m (Option.filter_eq_some_iff.1 hm).1))
  · refine currentScope_confines.bind fun scope _ =>
      (lookup_confines (fun m hm _ => h m hm) name scope).bind fun found hfound => ?_
    cases found with
    | unknowable => exact .pure namesOnly_none
    | missing => exact .pure namesOnly_none
    | found b =>
      refine (bindingSymbol?_confines (hfound b rfl)).bind fun s? hs => .pure ?_
      cases s? with
      | none => exact namesOnly_none
      | some s => exact (hs s rfl).2

theorem findObject_confines {module? : Option String} (h : NamesOnly qs module?) (name : String) :
    Confines own qs (NamesOnly qs) (findObject module? name) := by
  refine (resolveNamed_confines h name).bind fun t? ht => ?_
  split
  · next info =>
    have hinfo : NamesOnly qs (Ty.object info) := namesOnly_some.1 ht
    exact (objectOrigin?_confines h name).bind fun origin? horigin =>
      .pure (namesOnly_some.2 ⟨hinfo, horigin⟩)
  · exact .pure namesOnly_none

theorem baseObject_confines {t : Ty} (ht : NamesOnly qs t) :
    Confines own qs (NamesOnly qs) (baseObject t) := by
  unfold baseObject
  split
  · exact findObject_confines (Ty.namesOnly_named.1 ht) _
  · exact findObject_confines namesOnly_none ""

theorem baseObjects_confines {o : ResolvedObject} (ho : NamesOnly qs o) :
    Confines own qs (NamesOnly qs) (baseObjects o) :=
  .mapM fun t ht => baseObject_confines ((Ty.namesOnly_object.1 ho.1).1 t ht)

theorem searchDepth_confines (o : ResolvedObject) :
    Confines own qs (fun _ => True) (searchDepth o) :=
  .read fun _ _ => .table fun _ _ => .pure trivial

section Searches

variable {P : α → Prop} {missing? : Option α}

theorem firstHit_confines (hmissing : ∀ a ∈ missing?, P a)
    {search : ResolvedObject → List String → Check (Option α × List String)}
    (hsearch : ∀ o visited, NamesOnly qs o →
      Confines own qs (fun r => ∀ a ∈ r.1, P a) (search o visited))
    {os : List (Option ResolvedObject)} (hos : NamesOnly qs os) (visited : List String) :
    Confines own qs (fun r => ∀ a ∈ r.1, P a) (firstHit missing? search os visited) := by
  induction os generalizing visited with
  | nil => exact .pure nofun
  | cons o? os ih =>
    obtain ⟨ho, hrest⟩ := namesOnly_cons.1 hos
    cases o? with
    | none =>
      unfold firstHit
      split
      · exact .pure hmissing
      · exact ih hrest visited
    | some o =>
      refine (hsearch o visited (namesOnly_some.1 ho)).bind fun r hr => ?_
      split
      · exact .pure hr
      · exact ih hrest _

theorem searchIn_confines (hmissing : ∀ a ∈ missing?, P a) {hit? : ResolvedObject → Option α}
    (hhit : ∀ o, NamesOnly qs o → ∀ a ∈ hit? o, P a) (depth : Nat) {o : ResolvedObject}
    (ho : NamesOnly qs o) (visited : List String) :
    Confines own qs (fun r => ∀ a ∈ r.1, P a) (searchIn missing? hit? depth o visited) := by
  induction depth generalizing o visited with
  | zero => exact .pure nofun
  | succ depth ih =>
    unfold searchIn
    split
    · exact .pure nofun
    · split
      · next a ha => exact .pure fun b hb => hhit o ho b (ha.trans hb)
      · exact (baseObjects_confines ho).bind fun os hos =>
          firstHit_confines hmissing (fun o visited ho => ih ho visited) hos _

end Searches

theorem findMember_confines {o : ResolvedObject} (ho : NamesOnly qs o) (name : String) :
    Confines own qs (NamesOnly qs) (findMember o name) :=
  (searchDepth_confines o).bind fun depth _ =>
    (searchIn_confines (P := NamesOnly qs) nofun (fun _ ho => namesOnly_member? ho name) depth ho
      []).bind fun _ hr => .pure hr

theorem baseMethod_confines {o : ResolvedObject} (ho : NamesOnly qs o) (name : String) :
    Confines own qs (NamesOnly qs) (baseMethod o name) := by
  refine (searchDepth_confines o).bind fun depth _ => (baseObjects_confines ho).bind fun os hos =>
    (firstHit_confines (P := NamesOnly qs) nofun (fun o visited ho => searchIn_confines nofun
      (fun _ ho => namesOnly_member? ho name) depth ho visited) hos _).bind fun r hr => .pure ?_
  exact fun m hm => hr m (Option.filter_eq_some_iff.1 hm).1

theorem chainResolved_confines {o : ResolvedObject} (ho : NamesOnly qs o) :
    Confines own qs (fun _ => True) (chainResolved o) :=
  (searchDepth_confines o).bind fun depth _ =>
    (searchIn_confines (P := fun _ => True) (fun _ _ => trivial) nofun depth ho []).bind
      fun _ _ => .pure trivial

/-- The bases of an object that were found, from the last one on. -/
theorem namesOnly_bases {os : List (Option ResolvedObject)} (h : NamesOnly qs os) :
    NamesOnly qs (os.filterMap id).reverse := by
  intro o ho
  obtain ⟨o?, ho?, hsome⟩ := List.mem_filterMap.1 (List.mem_reverse.1 ho)
  exact h o? ho? o hsome

theorem reaches_confines (key : String) (depth : Nat) {stack : List ResolvedObject}
    (hstack : NamesOnly qs stack) (visited : List String) :
    Confines own qs (fun _ => True) (reaches key depth stack visited) := by
  induction depth, stack, visited using reaches.induct key with
  | case1 depth visited =>
    unfold reaches
    exact .pure trivial
  | case2 depth o stack visited hkey =>
    unfold reaches
    rw [if_pos hkey]
    exact .pure trivial
  | case3 depth o stack visited hkey hseen ih =>
    unfold reaches
    rw [if_neg hkey, if_pos hseen]
    exact ih (namesOnly_cons.1 hstack).2
  | case4 o stack visited hkey hseen =>
    unfold reaches
    rw [if_neg hkey, if_neg hseen]
    exact .pure trivial
  | case5 o stack visited hkey hseen depth ih =>
    unfold reaches
    rw [if_neg hkey, if_neg hseen]
    obtain ⟨ho, hrest⟩ := namesOnly_cons.1 hstack
    exact (baseObjects_confines ho).bind fun os hos =>
      ih _ (namesOnly_append.2 ⟨namesOnly_bases hos, hrest⟩)

theorem inheritsItself_confines {o : ResolvedObject} (ho : NamesOnly qs o) :
    Confines own qs (fun _ => True) (inheritsItself o) :=
  (searchDepth_confines o).bind fun depth _ => (baseObjects_confines ho).bind fun _ hos =>
    reaches_confines _ depth (namesOnly_bases hos) []

theorem memberSymbol?_confines (owner name : String) :
    Confines own qs (fun _ => True) (memberSymbol? owner name) := .get fun _ _ => .pure trivial

theorem memberBinding_confines {m : Member} (hm : NamesOnly qs m) (use : Span) :
    Confines own qs (NamesOnly qs) (memberBinding m use) := by
  unfold memberBinding
  dsimp only
  split
  · exact .pure (namesOnly_external.2 hm)
  · refine (memberSymbol?_confines _ _).bind fun id? _ => ?_
    cases id? with
    | some id => exact .pure (namesOnly_declared id)
    | none => exact .pure (namesOnly_external.2 hm)

/-! ## Uses of names -/

theorem objectMemberAt_confines (scope : Nat) (id : Ident) :
    Confines own qs (NamesOnly qs) (objectMemberAt scope id) := by
  refine .table fun t _ => ?_
  split
  · split
    · refine .read fun env henv => ?_
      split
      · next o ho =>
        obtain ⟨c, hc, ho⟩ := Option.bind_eq_some_iff.1 ho
        have ho : NamesOnly qs o := henv.objects c (List.mem_of_find?_eq_some hc) o ho
        refine (findMember_confines ho id.name).bind fun m? hm => ?_
        cases m? with
        | some m =>
          exact (memberBinding_confines (namesOnly_some.1 hm) id.span).bind fun b hb =>
            .pure (namesOnly_some.2 hb)
        | none => exact .pure namesOnly_none
      · exact .pure namesOnly_none
    · exact .pure namesOnly_none
  · exact .pure namesOnly_none

theorem nameIn_confines (id : Ident) (scopes : List Nat) :
    Confines own qs (NamesOnly qs) (nameIn id scopes) := by
  induction scopes with
  | nil => exact .pure namesOnly_none
  | cons scope rest ih =>
    refine .table fun t _ => ?_
    split
    · exact .pure (namesOnly_some.2 (namesOnly_declared _))
    · refine (objectMemberAt_confines scope id).bind fun b? hb => ?_
      cases b? with
      | some b => exact .pure hb
      | none => exact ih

theorem resolveName_confines (id : Ident) : Confines own qs (NamesOnly qs) (resolveName id) := by
  refine .table fun t _ => (nameIn_confines id _).bind fun b? hb => ?_
  cases b? with
  | some b => exact .pure hb
  | none =>
    dsimp only
    split
    · exact .pure (namesOnly_some.2 fun _ h => nomatch h)
    · refine (lookupExternal_confines id.name).bind fun found hfound => ?_
      cases found with
      | found b => exact .pure (namesOnly_some.2 (hfound b rfl))
      | unknowable => exact .pure namesOnly_none
      | missing =>
        dsimp only
        split
        · exact .pure namesOnly_none
        · refine suppressUnknown_confines.bind fun suppressed _ => ?_
          split
          · exact .pure namesOnly_none
          · exact (error_confines _ _ _).bind fun _ _ => .pure namesOnly_none

theorem noteRead_confines (id : Nat) (span : Span) :
    Confines own qs (fun _ => True) (noteRead id span) := by
  refine (refer_confines id span).bind fun _ _ => .get fun s _ => ?_
  split
  · exact .pure trivial
  · split
    · exact .pure trivial
    · exact (setOutState_confines id _).bind fun _ _ => (symbol?_confines id).bind fun _ _ =>
        warning_confines _ _ _

theorem readName_confines (id : Ident) : Confines own qs (NamesOnly qs) (readName id) := by
  refine (resolveName_confines id).bind fun b? hb => ?_
  cases b? with
  | none => exact .pure Ty.namesOnly_unknown
  | some b =>
    have hvalue : Confines own qs (NamesOnly qs) (valueType b) :=
      valueType_confines (namesOnly_some.1 hb)
    cases b with
    | declared symbol => exact (noteRead_confines symbol id.span).bind fun _ _ => hvalue
    | external s => exact hvalue
    | builtin => exact hvalue

theorem notAssignable_confines (id : Ident) (what : String) :
    Confines own qs (fun _ => True) (notAssignable id what) := error_confines _ _ _

theorem writeName_confines (id : Ident) : Confines own qs (NamesOnly qs) (writeName id) := by
  refine (resolveName_confines id).bind fun b? hb => ?_
  cases b? with
  | none => exact .pure Ty.namesOnly_unknown
  | some b =>
    have hvalue : Confines own qs (NamesOnly qs) (valueType b) :=
      valueType_confines (namesOnly_some.1 hb)
    cases b with
    | declared symbol =>
      have rest (_ : Unit) (_ : True) : Confines own qs (NamesOnly qs) (do
          markAssigned symbol
          valueType (.declared symbol)) :=
        (setOutState_confines symbol _).bind fun _ _ => hvalue
      refine (refer_confines symbol id.span).bind fun _ _ =>
        (symbol?_confines symbol).bind fun s? _ => ?_
      cases s? with
      | none => exact rest () trivial
      | some s =>
        dsimp only
        split
        · exact (error_confines _ _ _).bind rest
        · split
          · exact (notAssignable_confines id _).bind rest
          · exact rest () trivial
    | external s =>
      dsimp only
      split
      · exact (notAssignable_confines id _).bind fun _ _ => hvalue
      · exact hvalue
    | builtin => exact (notAssignable_confines id _).bind fun _ _ => hvalue

/-- Only the module itself is known as a module. -/
theorem moduleMember_confines (module member : Ident) :
    Confines own qs (NamesOnly qs) (moduleMember module member) := by
  refine .table fun t ht => ?_
  split
  · exact .pure namesOnly_none
  · next id hid =>
    split
    · next hkind =>
      have hown : module.name = own := by
        obtain ⟨x, hx, hmodule⟩ := ht.declares _ _ (SymbolTable.declares_of_lookupFrom? hid)
        rw [hx] at hkind
        exact hmodule (of_decide_eq_true hkind)
      refine (refer_confines id module.span).bind fun _ _ => (lookup_confines
        (fun m hm hne => ?_) member.name t.current).bind fun found hfound => ?_
      · cases hm
        exact absurd hown hne
      · cases found with
        | found b =>
          exact (valueType_confines (hfound b rfl)).bind fun type htype =>
            .pure (namesOnly_some.2 htype)
        | unknowable => exact .pure (namesOnly_some.2 Ty.namesOnly_unknown)
        | missing =>
          exact (error_confines _ _ _).bind fun _ _ =>
            .pure (namesOnly_some.2 Ty.namesOnly_unknown)
    · exact .pure namesOnly_none

theorem namesOnly_fieldType {fields : Members Ty} (h : NamesOnly qs fields) (member : Ident) :
    NamesOnly qs (fieldType fields member) :=
  namesOnly_getD (fun _ ht => namesOnly_find? h ht) Ty.namesOnly_unknown

theorem objectMemberType_confines (typeName : String) {o : ResolvedObject} (ho : NamesOnly qs o)
    (member : Ident) :
    Confines own qs (NamesOnly qs) (objectMemberType typeName o member) := by
  refine (findMember_confines ho member.name).bind fun m? hm => ?_
  cases m? with
  | some m =>
    have hm : NamesOnly qs m := namesOnly_some.1 hm
    refine (memberBinding_confines hm member.span).bind fun b _ => ?_
    cases b with
    | declared id => exact (refer_confines id member.span).bind fun _ _ => .pure hm.1
    | external s => exact .pure hm.1
    | builtin => exact .pure hm.1
  | none =>
    refine (chainResolved_confines ho).bind fun resolved _ => .read fun env _ => ?_
    dsimp only
    split
    · exact (error_confines _ _ _).bind fun _ _ => .pure Ty.namesOnly_unknown
    · exact .pure Ty.namesOnly_unknown

theorem memberType_confines {base : Ty} (hbase : NamesOnly qs base) (member : Ident) :
    Confines own qs (NamesOnly qs) (memberType base member) := by
  unfold memberType
  refine (normalize_confines hbase).bind fun t ht => ?_
  extract_lets rest
  have plain (base : Ty) (hbase : NamesOnly qs base) :
      Confines own qs (NamesOnly qs) (rest base) := by
    unfold rest
    split
    · exact .pure (namesOnly_fieldType (Ty.namesOnly_record.1 hbase) member)
    · next module? name =>
      have hmodule := Ty.namesOnly_named.1 hbase
      refine (findObject_confines hmodule name).bind fun o? ho => ?_
      cases o? with
      | some o => exact objectMemberType_confines name (namesOnly_some.1 ho) member
      | none =>
        refine (resolveNamed_confines hmodule name).bind fun t? ht => ?_
        split
        · next fields =>
          have hfields : NamesOnly qs (Ty.record fields) := namesOnly_some.1 ht
          exact .pure (namesOnly_fieldType (Ty.namesOnly_record.1 hfields) member)
        · exact .pure Ty.namesOnly_unknown
    · exact .pure Ty.namesOnly_unknown
  split
  · exact (normalize_confines (Ty.namesOnly_pointer.1 ht)).bind plain
  · exact (Confines.pure ht).bind plain

end Check

end SimFront
