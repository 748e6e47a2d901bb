import SimFront.Proofs.Check.References
import SimFront.Proofs.Check.StandInImport

/-!
# What imports declare, and where

An import declares the names it brings in where they stand, renamed ones where their new
name stands.  The values of an enumeration that an item imports with ALL have no place of
their own, and are declared where the name of the item stands (`Module.Brings`).

`CheckState.Importing` says what is known of the state while a module imports: apart from
such values its symbols stand on identifiers of their own, none of them awaits its body, and
nothing has been used.  Every step of an import leads from one such state to another
(`Imports`), and so the imports of a module do (`checkFront_imports`).
-/

namespace SimFront

/-- The identifier declares a value of an enumeration that an item with ALL brings in: it has the
name of the value, but the place of the item.  A value is not brought in under the name of the
item itself, which is taken. -/
def Module.Brings (m : Module) (resolver? : Option Resolver) (i : Ident) : Prop :=
  ∃ clause ∈ m.imports, ∃ e ∈ clause.items m.name.name,
    ∃ source, source ∈ resolver?.bind (·.find? e.1.name) ∧
      i.name ∈ e.2.found e.1 source ∧ i.name ≠ e.2.localName.name ∧ i.span = e.2.name.span

instance (m : Module) (resolver? : Option Resolver) : DecidablePred (m.Brings resolver?) :=
  inferInstanceAs (DecidablePred fun i : Ident =>
    ∃ clause ∈ m.imports, ∃ e ∈ clause.items m.name.name,
      ∃ source, source ∈ resolver?.bind (·.find? e.1.name) ∧
        i.name ∈ e.2.found e.1 source ∧ i.name ≠ e.2.localName.name ∧ i.span = e.2.name.span)

variable {resolver? : Option Resolver} {m : Module} {N M M' : Multiset Ident}

namespace CheckState

variable {s s' : CheckState}

/-- While a module imports: the symbols that are declared on names of their own stand on
identifiers of `N`, no symbol is a heading, and there are no uses yet. -/
structure Importing (resolver? : Option Resolver) (m : Module) (N : Multiset Ident)
    (s : CheckState) : Prop where
  faithful : s.Faithful (.ofModule resolver? m)
  named : s.table.Named
  opened : s.table.current < s.table.scopes.size
  settled : ∀ id symbol, s.table.symbol? id = some symbol → symbol.isHeading = false
  own : s.table.own (m.Brings resolver?) ≤ N
  unused : s.table.references = {}
  prompt : s.pendingTypes = []

namespace Importing

theorem start (resolver? : Option Resolver) (m : Module) :
    (CheckState.ofModule m).Importing resolver? m 0 where
  faithful := faithful_ofModule resolver? m
  named := SymbolTable.named_new m.name.name m.span
  opened := Nat.zero_lt_one
  settled _ _ h := nomatch h
  own := le_of_eq rfl
  unused := rfl
  prompt := rfl

theorem mono (h : s.Importing resolver? m N) (hN : N ≤ M) : s.Importing resolver? m M :=
  { h with own := le_trans h.own hN }

theorem quiet (h : s.Importing resolver? m N) (hquiet : s.Quiet s')
    (hfaithful : s'.Faithful (.ofModule resolver? m)) : s'.Importing resolver? m N := by
  obtain ⟨htable, hpending⟩ := hquiet
  obtain ⟨-, hnamed, hopened, hsettled, hown, hunused, hprompt⟩ := h
  rw [← htable] at hnamed hopened hsettled hown hunused
  exact ⟨hfaithful, hnamed, hopened, hsettled, hown, hunused, hpending.trans hprompt⟩

variable {symbol : Symbol} {id : Nat} {t : SymbolTable}

/-- A new symbol that is not a heading has a name that was free. -/
theorem free (h : s.Importing resolver? m N) (hdefine : s.table.define symbol = .ok (id, t)) :
    s.table.declared? s.table.current symbol.name = none := by
  obtain ⟨hfree, -, -⟩ | ⟨previous, -, hprevious, hforward, hkind, -, -⟩ :=
    SymbolTable.defineIn_cases hdefine
  · exact hfree
  · have hheading := h.settled id previous hprevious
    unfold Symbol.isHeading at hheading
    rw [hforward, hkind] at hheading
    cases hheading

theorem declare (h : s.Importing resolver? m N) (hsettled : symbol.isHeading = false)
    (hdefine : s.table.define symbol = .ok (id, t))
    (hown : t.own (m.Brings resolver?) ≤ M) :
    ({ s with table := t } : CheckState).Importing resolver? m M where
  faithful := h.faithful.of_same rfl rfl rfl
  named := (h.named.defineIn hdefine).1
  opened := by
    dsimp only
    rw [SymbolTable.current_defineIn hdefine, SymbolTable.size_scopes_defineIn hdefine]
    exact h.opened
  settled i previous hprevious := by
    rw [SymbolTable.symbol?_defineIn hdefine] at hprevious
    split at hprevious
    · obtain rfl := Option.some.inj hprevious
      exact hsettled
    · exact h.settled i previous hprevious
  own := hown
  unused := (SymbolTable.references_defineIn hdefine).trans h.unused
  prompt := h.prompt

end Importing

/-- A name is taken in the current scope. -/
def Taken (s : CheckState) (name : String) : Prop :=
  (s.table.declared? s.table.current name).isSome

theorem Taken.define {name : String} {symbol : Symbol} {id : Nat} {t : SymbolTable}
    (h : s.Taken name) (hopened : s.table.current < s.table.scopes.size)
    (hdefine : s.table.define symbol = .ok (id, t)) :
    ({ s with table := t } : CheckState).Taken name := by
  unfold Taken
  dsimp only
  rw [SymbolTable.current_defineIn hdefine, SymbolTable.declared?_defineIn hdefine hopened]
  split
  · rfl
  · exact h

end CheckState

namespace Check

open CheckState (Importing)

variable {α β : Type}

/-- While a module imports, the step declares symbols on names of their own at the identifiers. -/
def Imports (resolver? : Option Resolver) (m : Module) (M : Multiset Ident) (p : Check α) : Prop :=
  ∀ N s, s.Importing resolver? m N →
    (p.outcome (.ofModule resolver? m) s).2.Importing resolver? m (N + M)

section Imports

variable {p : Check α} {f : α → Check β}

theorem Imports.pure (a : α) : Imports resolver? m M (pure a : Check α) :=
  fun _ _ h => h.mono (Multiset.le_add_right _ _)

theorem Imports.mono (h : Imports resolver? m M p) (hM : M ≤ M') : Imports resolver? m M' p :=
  fun N s hs => (h N s hs).mono (add_le_add_right hM N)

theorem Imports.bind (hp : Imports resolver? m M p) (hf : ∀ a, Imports resolver? m M' (f a)) :
    Imports resolver? m (M + M') (p >>= f) := by
  intro N s hs
  rw [← add_assoc]
  exact hf _ _ _ (hp N s hs)

theorem Still.imports {head : ModuleHead} (h : Still head p)
    (hhead : (Env.ofModule resolver? m).head = head) : Imports resolver? m M p := by
  intro N s hs
  obtain ⟨hquiet, hfaithful, -⟩ := h _ s hhead hs.faithful
  exact (hs.quiet hquiet hfaithful).mono (Multiset.le_add_right _ _)

theorem Imports.after (hp : Imports resolver? m 0 p) (hf : ∀ a, Imports resolver? m M (f a)) :
    Imports resolver? m M (p >>= f) := by
  rw [← zero_add M]
  exact hp.bind hf

theorem Imports.then (hp : Imports resolver? m M p) (hf : ∀ a, Imports resolver? m 0 (f a)) :
    Imports resolver? m M (p >>= f) := by
  rw [← add_zero M]
  exact hp.bind hf

theorem forM_imports {f : α → Check Unit} {view : α → Node} {as : List α}
    (h : ∀ a ∈ as, Imports resolver? m (Node.names [view a]) (f a)) :
    Imports resolver? m (Node.names (as.map view)) (as.forM f) := by
  induction as with
  | nil => exact .pure _
  | cons a as ih =>
    rw [List.map_cons, Node.names_cons]
    exact (h a List.mem_cons_self).bind fun _ => ih fun b hb => h b (List.mem_cons_of_mem a hb)

end Imports

/-! ## Declaring -/

theorem define_imports {i : Ident} {symbol : Symbol} (hident : symbol.ident = i)
    (hsettled : symbol.isHeading = false) :
    Imports resolver? m (Node.names [.ident i]) (define symbol) := by
  intro N s hs
  have hname : Node.names [.ident i] = {i} := Node.names_singleton _
  have hfaithful : ((define symbol).outcome (.ofModule resolver? m) s).2.Faithful _ :=
    ((define_byName symbol).faithful rfl hs.faithful).1
  obtain ⟨id, t, hdefine, hstate⟩ | hquiet := define_cases symbol (.ofModule resolver? m) s
  · rw [hstate]
    refine hs.declare hsettled hdefine ?_
    refine le_trans (SymbolTable.own_defineIn hdefine) (add_le_add hs.own ?_)
    rw [hident, hname]
    exact Multiset.filter_le _ _
  · exact (hs.quiet hquiet hfaithful).mono (Multiset.le_add_right _ _)

/-- Whether or not a symbol is declared, its name is taken afterwards. -/
theorem define_taken {symbol : Symbol} {env : Env} {s : CheckState} (hnamed : s.table.Named)
    (hopened : s.table.current < s.table.scopes.size) :
    ((define symbol).outcome env s).2.Taken symbol.name := by
  unfold define
  rw [outcome_bind, show table.outcome env s = (s.table, s) from rfl]
  dsimp only
  cases hdefine : s.table.define symbol with
  | ok done =>
    have hdeclared := SymbolTable.declared?_defineIn hdefine hopened symbol.name
    show done.2.declared? done.2.current symbol.name |>.isSome
    rw [SymbolTable.current_defineIn hdefine, hdeclared, if_pos rfl]
    rfl
  | error d =>
    obtain ⟨previous, hprevious, -⟩ := hnamed.defineIn_error hdefine
    obtain ⟨id, hid, -⟩ := Option.bind_eq_some_iff.1 hprevious
    exact Option.isSome_iff_exists.2 ⟨id, hid⟩

/-! ## Items of FROM imports -/

theorem isHeading_exported {source : SymbolTable} {module name : String} {s : Symbol}
    (h : source.exported? module name = some s) : s.isHeading = false := by
  obtain ⟨original, -, rfl⟩ := Option.map_eq_some_iff.1 h
  rfl

theorem isHeading_importedValue (source : SymbolTable) (module type : Ident) (value : String) :
    (importedValue source module type value).isHeading = false := by
  unfold importedValue
  split
  · next s hs =>
    have hsettled : s.isHeading = false := isHeading_exported hs
    exact hsettled
  · rfl

/-- The values that an item brings in add nothing that stands on a name of its own. -/
theorem importValues_imports {source : SymbolTable} {module : Ident} {item : ImportItem}
    {values : List String}
    (hbrings : ∀ v ∈ values, (importedValue source module item.name v).name ≠ item.localName.name →
      m.Brings resolver? (importedValue source module item.name v).ident)
    {s : CheckState} (hs : s.Importing resolver? m N) (htaken : s.Taken item.localName.name) :
    ((values.forM fun v => do
      let _ ← define (importedValue source module item.name v)
      pure () : Check Unit).outcome (.ofModule resolver? m) s).2.Importing resolver? m N := by
  induction values generalizing s with
  | nil => exact hs
  | cons v values ih =>
    obtain ⟨hv, hvalues⟩ := List.forall_mem_cons.1 hbrings
    obtain ⟨id, t, hdefine, hstate⟩ | hquiet :=
      define_cases (importedValue source module item.name v) (.ofModule resolver? m) s
    · have hne : (importedValue source module item.name v).name ≠ item.localName.name := by
        intro hname
        have hfree := hs.free hdefine
        unfold CheckState.Taken at htaken
        rw [hname] at hfree
        rw [hfree] at htaken
        cases htaken
      have hown := le_trans (SymbolTable.own_defineIn_of hdefine (hv hne)) hs.own
      refine ih hvalues (s := ((define _).outcome _ s).2) ?_ ?_
      · rw [hstate]
        exact hs.declare (isHeading_importedValue _ _ _ _) hdefine hown
      · rw [hstate]
        exact htaken.define hs.opened hdefine
    · refine ih hvalues (s := ((define _).outcome _ s).2) ?_ ?_
      · exact hs.quiet hquiet ((define_byName _).faithful rfl hs.faithful).1
      · unfold CheckState.Taken
        rw [hquiet.1]
        exact htaken

theorem localName_names (item : ImportItem) :
    Node.names [.ident item.localName] ≤ Node.names [.importItem item] :=
  Multiset.filterMap_le_filterMap _ (localName_le item)

theorem importSymbol_imports {source : SymbolTable} {clause : Import} {module : Ident}
    {item : ImportItem} {s : Symbol} (hclause : clause ∈ m.imports)
    (hitem : (module, item) ∈ clause.items m.name.name)
    (hsource : resolver?.bind (·.find? module.name) = some source)
    (hs : source.exported? module.name item.name.name = some s) :
    Imports resolver? m (Node.names [.importItem item]) (importSymbol source module item s) := by
  have hsettled : s.isHeading = false := isHeading_exported hs
  have hcopy : Imports resolver? m (Node.names [.importItem item])
      (define { s with name := item.localName.name, span := item.localName.span }) :=
    Imports.mono (define_imports rfl hsettled) (localName_names item)
  intro N st hst
  have hdefined := hcopy N st hst
  have htaken : ((define { s with name := item.localName.name, span := item.localName.span }).outcome
      (.ofModule resolver? m) st).2.Taken item.localName.name :=
    define_taken hst.named hst.opened
  unfold importSymbol
  rw [outcome_bind]
  split
  · next values hall henum =>
    refine importValues_imports (fun v hv hne => ?_) hdefined htaken
    refine ⟨clause, hclause, (module, item), hitem, source, hsource, ?_, hne, ?_⟩
    · unfold ImportItem.found
      rw [hs]
      dsimp only
      rw [hall, henum]
      exact List.mem_cons_of_mem _ (List.mem_map_of_mem hv)
    · exact importedValue_span source module item.name v
  · exact hdefined

theorem definePlaceholder_imports (name source : Ident) :
    Imports resolver? m (Node.names [.ident name]) (definePlaceholder name source) := by
  have declared : Imports resolver? m (Node.names [.ident name]) (define
      { name := name.name, kind := .var, span := name.span, origin? := some source.name }) :=
    define_imports rfl rfl
  refine declared.then fun id? => ?_
  cases id? with
  | none => exact .pure _
  | some id =>
    have noted : Still (Env.ofModule resolver? m).head (modify fun s => { s with
        placeholders := id :: s.placeholders } : Check Unit) :=
      ByName.still (.modify _ (fun _ _ _ => rfl) fun _ h => h) fun _ _ => ⟨rfl, rfl⟩
    exact noted.imports rfl

theorem importItem_imports {clause : Import} {module : Ident} {item : ImportItem}
    (hclause : clause ∈ m.imports) (hitem : (module, item) ∈ clause.items m.name.name) :
    Imports resolver? m (Node.names [.importItem item])
      (importItem module (resolver?.bind (·.find? module.name)) item) := by
  have placeholder : Imports resolver? m (Node.names [.importItem item])
      (definePlaceholder item.localName module) :=
    (definePlaceholder_imports item.localName module).mono (localName_names item)
  cases hsource : resolver?.bind (·.find? module.name) with
  | none => exact placeholder
  | some source =>
    unfold importItem
    dsimp only
    split
    · next s hs => exact importSymbol_imports hclause hitem hsource hs
    · exact ((warning_still _ _ _).imports rfl).after fun _ => placeholder

/-! ## Clauses -/

/-- Another module is as the resolver says. -/
theorem otherModule_value {env : Env} {s : CheckState} (hs : s.Faithful env) (source : Ident) :
    ((otherModule source).outcome env s).1 = env.answer source.name := by
  unfold otherModule
  rw [outcome_read, outcome_bind, ← moduleTable?_value hs]
  split
  · rw [outcome_get]
    split <;> rfl
  · rfl

theorem importFrom_imports {source : Ident} {use : Option SymbolTable → Check Unit}
    (huse : source.name ≠ m.name.name →
      Imports resolver? m M (use (resolver?.bind (·.find? source.name)))) :
    Imports resolver? m M (importFrom source use) := by
  intro N s hs
  unfold importFrom
  rw [outcome_read]
  split
  · exact (warning_still _ _ _).imports rfl N s hs
  · next hsource =>
    have hother : Imports resolver? m 0 (otherModule source) :=
      (otherModule_still hsource).imports rfl
    rw [outcome_bind, otherModule_value hs.faithful]
    have hused := huse hsource _ _ (hother N s hs)
    rwa [add_zero] at hused

theorem importModule_imports (module : Ident) :
    Imports resolver? m (Node.names [.ident module]) (importModule module) := by
  refine importFrom_imports fun hne N s hs => ?_
  rw [outcome_get]
  split
  · exact Imports.pure _ N s hs
  · have noted : Still (Env.ofModule resolver? m).head (modify fun s => { s with
        wholeImports := s.wholeImports ++ [module.name] } : Check Unit) :=
      (addWholeImport_byName rfl hne).still fun _ _ => ⟨rfl, rfl⟩
    have declared : Imports resolver? m (Node.names [.ident module]) (define
        { name := module.name, kind := .module, span := module.span,
          origin? := some module.name }) :=
      define_imports rfl rfl
    exact (noted.imports rfl).after (fun _ => declared.then fun _ => .pure _) N s hs

theorem importClause_imports {clause : Import} (hclause : clause ∈ m.imports) :
    Imports resolver? m (Node.names [.import clause]) (importClause clause) := by
  have below {ns : List Node} (h : ns.Sublist (Node.import clause).children) :
      Node.names ns ≤ Node.names [.import clause] := by
    rw [Node.names_singleton (.import clause)]
    exact le_trans (Multiset.filterMap_le_filterMap _ (Node.all_le h.subperm))
      (Multiset.le_add_left _ _)
  cases clause with
  | names module items span =>
    refine Imports.mono (importFrom_imports fun hne => ?_) (below (List.sublist_cons_self _ _))
    refine forM_imports fun item hitem => importItem_imports hclause ?_
    rw [Import.items, if_neg hne]
    exact List.mem_map_of_mem hitem
  | modules modules span =>
    exact (forM_imports fun module _ => importModule_imports module).mono
      (below (List.Sublist.refl _))

/-- The name of a module and its imports are declared on names of their own. -/
theorem checkFront_imports (resolver? : Option Resolver) (m : Module) :
    ((checkFront m).outcome (.ofModule resolver? m) (.ofModule m)).2.Importing resolver? m
      (Node.names (.ident m.name :: m.imports.map .import)) := by
  have named : Imports resolver? m (Node.names [.ident m.name])
      (define { name := m.name.name, kind := .module, span := m.name.span }) :=
    define_imports rfl rfl
  have front := named.bind fun _ => forM_imports fun clause hclause => importClause_imports hclause
  have hfront := front 0 _ (Importing.start resolver? m)
  rwa [zero_add, ← Node.names_cons] at hfront

end Check

end SimFront
