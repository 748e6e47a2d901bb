import SimFront.Proofs.Check.StandInDecl
import SimFront.Check.Import

/-!
# Imports of a name that is not found

While a module imports, nothing has the name before its stand-in is declared, and afterwards
nothing but the stand-in (`Missing.Importing`).  Every import goes on so, and one that is to
bring in the name declares the stand-in (`importClause_leads`).
-/

namespace SimFront

/-! ## Items -/

/-- The names under which an item brings in declarations of a module; none if the module does
not have it. -/
def ImportItem.found (item : ImportItem) (module : Ident) (source : SymbolTable) : List String :=
  match source.exported? module.name item.name.name with
  | none => []
  | some s =>
    item.localName.name :: match item.all, s.type with
      | true, .enum values =>
        values.map fun v => (Check.importedValue source module item.name v).name
      | _, _ => []

/-- The items of a FROM import from another module, each with the module. -/
def Import.items (own : String) : Import → List (Ident × ImportItem)
  | .names module items _ => if module.name = own then [] else items.map (module, ·)
  | .modules _ _ => []

namespace Missing

/-! ## While a module imports -/

/-- The stand-in has been declared if `declared`. -/
structure Importing (k : Missing) (resolver? : Option Resolver) (declared : Bool) (env : Env)
    (s : CheckState) : Prop where
  resolver : env.resolver? = resolver?
  current : s.table.current = SymbolTable.root
  outs : ∀ id, List.lookup id s.outParams = none
  holds : ∃ id?, ({ k with id? } : Missing).Holds env s ∧ id?.isSome = declared

/-- What is known of a run while the module imports. -/
def importing (k : Missing) (resolver? : Option Resolver) (declared : Bool) :
    Standing k.head k.place where
  Holds := k.Importing resolver? declared
  head h := by
    obtain ⟨id?, hs, -⟩ := h.holds
    exact hs.head
  faithful h := by
    obtain ⟨id?, hs, -⟩ := h.holds
    exact hs.faithful
  touched h htouched hfaithful := by
    obtain ⟨rs, hrs, -⟩ := htouched.table
    obtain ⟨id?, hs, hdeclared⟩ := h.holds
    refine ⟨h.resolver, by rw [hrs]; exact h.current, fun id => ?_,
      id?, hs.touched htouched hfaithful, hdeclared⟩
    have hmatches := htouched.outParams id
    rw [h.outs id] at hmatches
    exact hmatches.eq_none
  within h := by
    obtain ⟨id?, hs, hdeclared⟩ := h.holds
    exact ⟨h.resolver, h.current, h.outs, id?, hs.of_env rfl rfl hs.objects, hdeclared⟩

end Missing

namespace Check

variable {α : Type} {k : Missing} {resolver? : Option Resolver} {declared : Bool}

/-- Declaring a symbol leaves the scope current. -/
theorem define_current (symbol : Symbol) (env : Env) (s : CheckState) :
    ((define symbol).outcome env s).2.table.current = s.table.current ∧
      ((define symbol).outcome env s).2.outParams = s.outParams := by
  unfold define
  rw [outcome_bind, show table.outcome env s = (s.table, s) from rfl]
  dsimp only
  cases hdefine : s.table.define symbol with
  | error d => exact ⟨rfl, rfl⟩
  | ok result => exact ⟨SymbolTable.current_defineIn hdefine, rfl⟩

theorem define_leads {symbol : Symbol} (hname : symbol.name ≠ k.name) (hspan : k.place symbol.span)
    (htype : symbol.kind = .type → symbol.type.LacksMember k.name) :
    Leads (k.importing resolver? declared) (k.importing resolver? declared) (fun _ => True)
      (define symbol) := by
  intro env s hs
  obtain ⟨id?, hholds, hdeclared⟩ := hs.holds
  obtain ⟨hcurrent, houts⟩ := define_current symbol env s
  have hdefine : Leaves { k with id? } _ (define symbol) := define_leaves hname hspan htype
  exact ⟨⟨hs.resolver, hcurrent.trans hs.current, fun id => by rw [houts]; exact hs.outs id,
    id?, (hdefine env s hholds).1, hdeclared⟩, trivial⟩

/-! ## Stand-ins -/

/-- A stand-in for another name. -/
theorem definePlaceholder_leads {name : Ident} (h : k.Allows name) (source : Ident) :
    Leads (k.importing resolver? declared) (k.importing resolver? declared) (fun _ => True)
      (definePlaceholder name source) := by
  have hdefine : Leads (k.importing resolver? declared) (k.importing resolver? declared)
      (fun _ => True)
      (define { name := name.name, kind := .var, span := name.span, origin? := some source.name }) :=
    define_leads h.ne h.span (by intro h; cases h)
  refine hdefine.bind fun id? _ => ?_
  cases id? with
  | none => exact .pure trivial
  | some id =>
    refine .modify fun env s hs => ?_
    obtain ⟨id?, hholds, hdeclared⟩ := hs.holds
    exact ⟨hs.resolver, hs.current, hs.outs, id?, { hholds with
      faithful := hholds.faithful.of_same rfl rfl rfl
      placeholder := fun i hi => .tail _ (hholds.placeholder i hi) }, hdeclared⟩

/-- The stand-in for the name itself, unless there is one. -/
theorem definePlaceholder_declares {name : Ident} (hname : name.name = k.name)
    (hspan : k.place name.span) (source : Ident) :
    Leads (k.importing resolver? declared) (k.importing resolver? true) (fun _ => True)
      (definePlaceholder name source) := by
  intro env s hs
  obtain ⟨id?, hholds, -⟩ := hs.holds
  let symbol : Symbol :=
    { name := name.name, kind := .var, span := name.span, origin? := some source.name }
  unfold definePlaceholder define
  rw [outcome_bind, outcome_bind, show table.outcome env s = (s.table, s) from rfl]
  dsimp only
  cases id? with
  | none =>
    have hdefine : s.table.define symbol =
        .ok (s.table.symbols.size, s.table.append s.table.current symbol) :=
      hholds.table.define_free hs.current hname
    rw [show s.table.define _ = _ from hdefine]
    refine ⟨⟨hs.resolver, hs.current, hs.outs, some s.table.symbols.size, { hholds with
      faithful := hholds.faithful.of_same rfl rfl rfl
      table := hholds.table.declare hs.current hname rfl rfl hspan hdefine
      placeholder := fun i hi => ?_
      pending := fun p hp => ⟨Nat.lt_of_lt_of_le (hholds.pending p hp).1
        (SymbolTable.extends_defineIn hdefine).scopes, (hholds.pending p hp).2⟩
      outs := fun i _ => hs.outs i }, rfl⟩, trivial⟩
    obtain rfl := Option.some.inj hi
    exact .head _
  | some id =>
    have htaken : ∃ d, s.table.define symbol = .error d := hholds.table.define_taken hs.current hname
    obtain ⟨d, hdefine⟩ := htaken
    rw [show s.table.define _ = _ from hdefine]
    exact ⟨⟨hs.resolver, hs.current, hs.outs, some id, hholds.report hspan, rfl⟩, trivial⟩

/-! ## Items of FROM imports -/

theorem importedValue_lacks {source : SymbolTable} {name : String} (h : source.LacksMember name)
    (module type : Ident) (value : String) :
    (Binding.external (importedValue source module type value)).Lacks name := by
  unfold importedValue
  split
  · next s hs =>
    have hlacks : (Binding.external s).Lacks name := h.exported hs
    exact hlacks
  · intro hkind
    cases hkind

/-- Declarations of other names are brought in. -/
theorem importSymbol_leads {source : SymbolTable} {module : Ident} {item : ImportItem} {s : Symbol}
    (hs : source.exported? module.name item.name.name = some s)
    (hlacks : source.LacksMember k.name) (hfound : k.name ∉ item.found module source)
    (hlocal : k.place item.localName.span) (hname : k.place item.name.span) :
    Leads (k.importing resolver? declared) (k.importing resolver? declared) (fun _ => True)
      (importSymbol source module item s) := by
  unfold ImportItem.found at hfound
  rw [hs] at hfound
  obtain ⟨hne, hvalues⟩ := not_or.1 (mt List.mem_cons.2 hfound)
  have htype : s.kind = .type → s.type.LacksMember k.name := hlacks.exported hs
  have hcopy : Leads (k.importing resolver? declared) (k.importing resolver? declared)
      (fun _ => True) (define { s with name := item.localName.name, span := item.localName.span }) :=
    define_leads (Ne.symm hne) hlocal fun hkind => htype hkind
  refine hcopy.bind fun _ _ => ?_
  split
  · next values hall henum =>
    rw [hall, henum] at hvalues
    refine forM_leads fun v hv => ?_
    refine Leads.bind (define_leads (fun hvalue => hvalues ?_) ?_
      (importedValue_lacks hlacks module item.name v)) fun _ _ => .pure trivial
    · exact hvalue ▸ List.mem_map_of_mem hv
    · unfold importedValue
      split
      · exact hname
      · exact hname
  · exact .pure trivial

/-- An item from a module that is as the resolver says. -/
theorem importItem_leads {module : Ident} {item : ImportItem}
    (hfound : ∀ source, resolver?.bind (·.find? module.name) = some source →
      k.name ∉ item.found module source ∧ source.LacksMember k.name)
    (hlocal : k.place item.localName.span) (hname : k.place item.name.span) :
    Leads (k.importing resolver? declared)
      (k.importing resolver? (declared || item.localName.name = k.name)) (fun _ => True)
      (importItem module (resolver?.bind (·.find? module.name)) item) := by
  have placeholder : Leads (k.importing resolver? declared)
      (k.importing resolver? (declared || item.localName.name = k.name)) (fun _ => True)
      (definePlaceholder item.localName module) := by
    by_cases hsame : item.localName.name = k.name
    · rw [decide_eq_true hsame, Bool.or_true]
      exact definePlaceholder_declares hsame hlocal module
    · rw [decide_eq_false hsame, Bool.or_false]
      exact definePlaceholder_leads ⟨hsame, hlocal⟩ module
  cases htable : resolver?.bind (·.find? module.name) with
  | none => exact placeholder
  | some source =>
    obtain ⟨hother, hlacks⟩ := hfound source htable
    unfold importItem
    dsimp only
    split
    · next s hs =>
      have hne : item.localName.name ≠ k.name := by
        intro heq
        unfold ImportItem.found at hother
        rw [hs, heq] at hother
        exact hother (.head _)
      rw [decide_eq_false hne, Bool.or_false]
      exact importSymbol_leads hs hlacks hother hlocal hname
    · exact (warning_touches hname _ _).leads.bind fun _ _ => placeholder

/-- All items of a module; the stand-in is declared when one of them is to bring in the name. -/
theorem forM_importing {f : α → Check Unit} {declares : α → Bool} {as : List α}
    (h : ∀ a ∈ as, ∀ declared, Leads (k.importing resolver? declared)
      (k.importing resolver? (declared || declares a)) (fun _ => True) (f a)) :
    Leads (k.importing resolver? declared) (k.importing resolver? (declared || as.any declares))
      (fun _ => True) (as.forM f) := by
  induction as generalizing declared with
  | nil =>
    rw [List.any_nil, Bool.or_false]
    exact .pure trivial
  | cons a as ih =>
    rw [List.any_cons, ← Bool.or_assoc]
    exact (h a (.head _) declared).bind fun _ _ => ih fun b hb => h b (.tail _ hb)

/-! ## Clauses -/

/-- Another module is as the resolver says. -/
theorem otherModule_leads {source : Ident} (hspan : k.place source.span)
    (hne : source.name ≠ k.head.name) :
    Leads (k.importing resolver? declared) (k.importing resolver? declared)
      (· = resolver?.bind (·.find? source.name)) (otherModule source) := by
  intro env s hs
  obtain ⟨id?, hholds, -⟩ := hs.holds
  have hasked : Query k.head (moduleTable? source.name) := .ask fun h => absurd h hne
  have hmodule : Yields (k.importing resolver? declared) _ (moduleTable? source.name) := hasked.touches
  have rest (table? : Option SymbolTable) :
      Leads (k.importing resolver? declared) (k.importing resolver? declared) (· = table?) (do
        if table?.isNone && env.resolver?.isSome then
          unless (← get).unresolved.contains source.name do
            modify fun s => { s with unresolved := source.name :: s.unresolved }
            warning .unresolvedImport source.span s!"cannot resolve module '{source.name}'"
        pure table?) := by
    split
    · refine .get fun s => ?_
      split
      · exact .pure rfl
      · refine Leads.bind (J := k.importing resolver? declared) (.modify fun env s hs => ?_)
          fun _ _ => (warning_touches hspan _ _).leads.bind fun _ _ => .pure rfl
        obtain ⟨id?, hholds, hdeclared⟩ := hs.holds
        exact ⟨hs.resolver, hs.current, hs.outs, id?,
          { hholds with faithful := hholds.faithful.of_same rfl rfl rfl }, hdeclared⟩
    · exact .pure rfl
  obtain ⟨hs', -⟩ := hmodule.leads env s hs
  have hvalue : ((moduleTable? source.name).outcome env s).1 = resolver?.bind (·.find? source.name) := by
    rw [moduleTable?_value hholds.faithful, Env.answer, hs.resolver]
  obtain ⟨hs'', hresult⟩ := rest ((moduleTable? source.name).outcome env s).1 env _ hs'
  exact ⟨hs'', hresult.trans hvalue⟩

theorem importFrom_leads {source : Ident} {use : Option SymbolTable → Check Unit}
    (hspan : k.place source.span) {declares : Bool}
    (hself : source.name = k.head.name → declares = false)
    (huse : source.name ≠ k.head.name → Leads (k.importing resolver? declared)
      (k.importing resolver? (declared || declares)) (fun _ => True)
      (use (resolver?.bind (·.find? source.name)))) :
    Leads (k.importing resolver? declared) (k.importing resolver? (declared || declares))
      (fun _ => True) (importFrom source use) := by
  intro env s hs
  have hhead : env.head = k.head := (k.importing resolver? declared).head hs
  have hself' : source.name = env.moduleName ↔ source.name = k.head.name := by rw [← hhead]; rfl
  unfold importFrom
  rw [outcome_read]
  by_cases hsource : source.name = env.moduleName
  · rw [if_pos hsource, hself (hself'.1 hsource), Bool.or_false]
    exact (warning_touches hspan _ _).leads env s hs
  · rw [if_neg hsource]
    have hne := mt hself'.2 hsource
    exact ((otherModule_leads hspan hne).bind fun table? htable => by
      rw [htable]
      exact huse hne) env s hs

theorem importModule_leads {module : Ident} (h : k.Allows module) :
    Leads (k.importing resolver? declared) (k.importing resolver? declared) (fun _ => True)
      (importModule module) := by
  have himport : Leads (k.importing resolver? declared) (k.importing resolver? (declared || false))
      (fun _ => True) (importModule module) := by
    refine importFrom_leads h.span (fun _ => rfl) fun hne => ?_
    rw [Bool.or_false]
    refine .get fun s => ?_
    split
    · exact .pure trivial
    · refine Leads.bind (J := k.importing resolver? declared) (.modify fun env s hs => ?_)
        fun _ _ => (define_leads h.ne h.span (by intro h; cases h)).bind fun _ _ => .pure trivial
      obtain ⟨id?, hholds, hdeclared⟩ := hs.holds
      refine ⟨hs.resolver, hs.current, hs.outs, id?, { hholds with
        faithful := ⟨hholds.faithful.answers, hholds.faithful.asked, hholds.faithful.distinct,
          fun hmem => ?_, hholds.faithful.own⟩ }, hdeclared⟩
      rcases List.mem_append.1 hmem with hmem | hmem
      · exact hholds.faithful.imports hmem
      · exact hne (hholds.head ▸ (List.mem_singleton.1 hmem).symm)
  rwa [Bool.or_false] at himport

/-- Whether one of the items is to bring in the name. -/
def bringsIn (name : String) (items : List (Ident × ImportItem)) : Bool :=
  items.any fun e => e.2.localName.name = name

theorem importClause_leads {i : Import} (h : k.Spares (.import i))
    (hfound : ∀ e ∈ i.items k.head.name, ∀ source,
      resolver?.bind (·.find? e.1.name) = some source →
        k.name ∉ e.2.found e.1 source ∧ source.LacksMember k.name) :
    Leads (k.importing resolver? declared)
      (k.importing resolver? (declared || bringsIn k.name (i.items k.head.name))) (fun _ => True)
      (importClause i) := by
  cases i with
  | names module items span =>
    refine importFrom_leads ((h.child (.head _) rfl).covers.self rfl) (fun hself => ?_) fun hne => ?_
    · rw [Import.items, if_pos hself]
      rfl
    · rw [Import.items, if_neg hne] at hfound ⊢
      rw [bringsIn, List.any_map]
      refine forM_importing fun item hitem declared => ?_
      have hnode : k.Spares (.importItem item) := h.child (.tail _ (List.mem_map_of_mem hitem)) rfl
      have hname : k.place item.name.span := (hnode.child (.head _) rfl).covers.self rfl
      refine importItem_leads (hfound (module, item) (List.mem_map_of_mem hitem)) ?_ hname
      unfold ImportItem.localName
      cases halias : item.alias? with
      | none => exact hname
      | some renamed =>
        have hchild : Node.ident renamed ∈ (Node.importItem item).children := by
          rw [Node.children, halias]
          exact .tail _ (.head _)
        exact (hnode.child hchild rfl).covers.self rfl
  | modules modules span =>
    rw [Import.items, bringsIn, List.any_nil, Bool.or_false]
    exact forM_leads fun module hmodule =>
      importModule_leads (h.allows (List.mem_map_of_mem hmodule) hmodule rfl)

end Check

end SimFront
