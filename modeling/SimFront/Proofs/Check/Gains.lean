import Mathlib.Order.WellFounded
import SimFront.Proofs.Check.ModuleSites
import SimFront.Proofs.Check.NewType

/-!
# Two runs up to a declaration

`Gains head g p q` says of two steps, taken from one and the same state, that the second
comes to the state that the first comes to, with a graft.  The declaration of a type that
only the second takes is such a pair (`declareType_gains`).  What both do before it may
stand in front (`Gains.after`), what both do later may follow (`Gains.before`), and the pair
may run in a scope of its own, in a routine and in the implementation of an object.
-/

namespace SimFront

/-! ## Sound tables -/

namespace SymbolTable

variable {t t' : SymbolTable} {id : Nat}

namespace Sound

theorem new (moduleName : String) (span : Span) : (SymbolTable.new moduleName span).Sound :=
  ⟨consistent_new moduleName span, named_new moduleName span⟩

theorem enter (h : t.Sound) (kind : ScopeKind) (span : Span) : (t.enter kind span).Sound :=
  ⟨h.consistent.enter kind span, h.named.enter kind span⟩

theorem leave (h : t.Sound) : t.leave.Sound := ⟨h.consistent.leave, h.named.leave⟩

theorem define (h : t.Sound) {symbol : Symbol} (hdefine : t.define symbol = .ok (id, t')) :
    t'.Sound :=
  ⟨h.consistent.defineIn h.consistent.current hdefine, (h.named.defineIn hdefine).1⟩

theorem retype (h : t.Sound) (id : Nat) (type : Ty) :
    (t.modifySymbol id fun s => { s with type }).Sound :=
  ⟨h.consistent.retype id type, h.named.modifySymbol id fun _ => rfl⟩

theorem referIn (h : t.Sound) {name : String} (hid : t.Declares name id) (scope : Nat)
    (span : Span) : (t.referIn scope id span).Sound := by
  obtain ⟨s, hs, -⟩ := h.named.of_declares hid
  exact ⟨h.consistent.of_references _, h.named.referIn hs⟩

end Sound

end SymbolTable

/-- Whatever is recorded, the table stays sound. -/
theorem CheckState.Recorded.sound {U : Multiset Node} {s s' : CheckState} (h : Recorded U s s')
    (hs : s.table.Sound) : s'.table.Sound := by
  induction h with
  | quiet hquiet =>
    rw [hquiet.1]
    exact hs
  | note s p => exact hs
  | declare _ _ hdefine => exact hs.define hdefine
  | value _ _ _ _ hdefine ih => exact (ih hs).define hdefine
  | refer scope hdeclares => exact hs.referIn hdeclares scope _
  | retype s id type => exact hs.retype id type
  | scope kind n _ _ ih => exact (ih (hs.enter kind n.span)).leave
  | seq _ _ ih ih' => exact ih' (ih hs)
  | weaken _ _ ih => exact ih hs

/-! ## Grafts that have grown -/

namespace Graft

variable {g g' : Graft} {t t' : SymbolTable} {n : Node} {env : Env}

/-- The graft `g'` is `g` with more brought in, which moves nothing that is in the table. -/
structure Grows (g g' : Graft) (t : SymbolTable) : Prop where
  names : g'.names = g.names
  place : g'.place = g.place
  inside : g'.inside = g.inside
  home : g.inside = true → g'.home? = g.home?
  symbol : ∀ i < t.symbols.size, g'.symbol i = i
  scope : ∀ i < t.scopes.size, g'.scope i = i

theorem Blank.grows (h : g.Blank) (t : SymbolTable) : g.Grows g t :=
  ⟨rfl, rfl, rfl, fun _ => rfl, fun i _ => h.symbol i, fun i _ => h.scope i⟩

theorem grows_grown (g : Graft) (t u : SymbolTable) (hscopes : SymbolTable.root < t.scopes.size) :
    g.Grows (g.grown t u hscopes) t :=
  ⟨rfl, rfl, rfl, fun _ => rfl, fun _ => skip_lt, fun _ => skip_lt⟩

theorem Grows.mono (h : g.Grows g' t') (hextends : t.Extends t') : g.Grows g' t where
  names := h.names
  place := h.place
  inside := h.inside
  home := h.home
  symbol i hi := h.symbol i (Nat.lt_of_lt_of_le hi hextends.symbols)
  scope i hi := h.scope i (Nat.lt_of_lt_of_le hi hextends.scopes)

theorem moveEnv_of_scope (h : ∀ c ∈ env.objects, g.scope c.scope = c.scope) :
    g.moveEnv env = env := by
  have same : env.objects.map g.moveContext = env.objects :=
    (List.map_congr_left fun c hc => by rw [moveContext, h c hc]; rfl).trans (List.map_id _)
  rw [moveEnv, same]

theorem Blank.moveEnv (h : g.Blank) (env : Env) : g.moveEnv env = env :=
  moveEnv_of_scope fun c _ => h.scope c.scope

theorem Grows.moveEnv (h : g.Grows g' t) (hcontexts : ∀ c ∈ env.objects, c.scope < t.scopes.size) :
    g'.moveEnv env = env :=
  moveEnv_of_scope fun c hc => h.scope c.scope (hcontexts c hc)

/-- What the graft spares and fits hangs on its names, and on whether it is around. -/
theorem Spares.of_names (h : g.Spares n) (hnames : g'.names = g.names)
    (hinside : g'.inside = g.inside) : g'.Spares n where
  ident i hi hin := by
    rw [hnames]
    exact h.ident i hi (hinside ▸ hin)
  type m hm name hname := by
    rw [hnames]
    exact h.type m hm name hname

theorem FitsEnv.of_names (h : g.FitsEnv env) (hnames : g'.names = g.names) : g'.FitsEnv env where
  object c hc o ho := by
    have hfits := h.object c hc o ho
    refine ⟨?_, ?_⟩ <;> rw [hnames]
    · exact hfits.name
    · exact hfits.info
  result type ht := by
    rw [hnames]
    exact h.result type ht

/-- Nothing was known of OUT parameters that have come in. -/
theorem Grows.outMatches (h : g.Grows g' t) {outs : List (Nat × OutState)}
    (houts : ∀ e ∈ outs, e.1 < t.symbols.size) (id : Nat) :
    OutMatches (List.lookup id outs) (List.lookup (g'.symbol id) outs) := by
  by_cases hid : id < t.symbols.size
  · rw [h.symbol id hid]
    exact .refl _
  · have absent {i : Nat} (hi : t.symbols.size ≤ i) : List.lookup i outs = none :=
      List.lookup_eq_none_iff.2 fun e he => bne_iff_ne.2 fun heq =>
        Nat.not_lt.2 hi (heq ▸ houts e he)
    have hge := Nat.le_of_not_lt hid
    rw [absent hge, absent (Nat.le_trans hge (g'.symbol_mono.le_apply))]
    trivial

/-! ## The routine that declares the type -/

/-- The graft within the scope that is going to declare its names. -/
def into (g : Graft) (home : Nat) (hhome : home ≠ SymbolTable.root) : Graft :=
  { g with
    home? := some home
    inside := true
    home_ne_root := fun h => hhome (Option.some.inj h) }

/-- The graft outside of the scope that declares its names. -/
def out (g : Graft) : Graft := { g with inside := false }

theorem Blank.into (h : g.Blank) (home : Nat) (hhome : home ≠ SymbolTable.root) :
    (g.into home hhome).Blank := ⟨h.symbol, h.scope⟩

theorem Spares.into (h : g.Spares n) (hfresh : ∀ i, .ident i ∈ n.preorder → i.name ∉ g.names)
    (home : Nat) (hhome : home ≠ SymbolTable.root) : (g.into home hhome).Spares n :=
  ⟨fun i hi _ => hfresh i hi, h.type⟩

end Graft

namespace CheckState.Grafted

variable {g : Graft} {env : Env} {s u : CheckState}

/-- A new scope is to declare the names of the graft. -/
theorem into (h : s.Grafted g env u) (hnone : g.home? = none) (hblank : g.Blank) {kind : ScopeKind}
    (hkind : kind ≠ .object) (span : Span) (hsize : s.table.scopes.size = u.table.scopes.size)
    (hhome : s.table.scopes.size ≠ SymbolTable.root) :
    ({ s with table := s.table.enter kind span } : CheckState).Grafted
      (g.into s.table.scopes.size hhome) env { u with table := u.table.enter kind span } := by
  have entered := h.withTable (h.table.enter kind span) (s.table.extends_enter kind span)
  have htable := entered.table
  have plain (i : Nat) (name : String) : ¬ g.Adds i name := fun hadds =>
    nomatch hnone.symm.trans hadds.1
  refine ⟨{ htable with
      declared := fun i name _ => htable.declared i name (plain _ _)
      home := fun {i} hi => ?_
      outside := fun hin => nomatch hin
      clear := fun {i} e he hadds => ?_ },
    entered.faithful, entered.faithful', ⟨fun c hc o ho => ?_, entered.fits.result⟩,
    entered.contexts, entered.reports, entered.wholeImports, entered.unresolved,
    entered.placeholders, entered.placeholders_lt, ?_, ?_, entered.signatures,
    entered.signatureTypes, entered.outParams, entered.outs_lt⟩
  · obtain rfl := Option.some.inj hi
    rw [SymbolTable.size_enter, SymbolTable.kind?_enter, hsize, if_pos rfl]
    exact ⟨Nat.lt_succ_self _, fun heq => hkind (Option.some.inj heq)⟩
  · -- the new scope declares nothing yet
    have hi : s.table.scopes.size = i := (Option.some.inj hadds.1).trans (hblank.scope i)
    rw [SymbolTable.namesOf_enter, ← hi] at he
    unfold SymbolTable.namesOf SymbolTable.scope? at he
    rw [Array.getElem?_eq_none (Nat.le_refl _)] at he
    cases he
  · have hfits := entered.fits.object c hc o ho
    exact ⟨hfits.name, hfits.info⟩
  · exact entered.pendingTypes.imp (fun _ _ _ hn => ⟨hn.moved, hn.name, hn.scope⟩) fun _ hp => hp
  · exact entered.objectDecls.imp
      (fun _ _ _ hd => ⟨hd.moved, hd.name, hd.symbol, hd.kind⟩) fun _ hd => hd

/-- The scope that declares the names of the graft has been left. -/
theorem out (h : s.Grafted g env u)
    (houtside : ∀ i ∈ s.table.enclosing s.table.current, g.home? ≠ some (g.scope i)) :
    s.Grafted g.out env u := by
  refine ⟨{ h.table with outside := fun _ => houtside }, h.faithful, h.faithful',
    ⟨fun c hc o ho => ?_, h.fits.result⟩, h.contexts, h.reports, h.wholeImports, h.unresolved,
    h.placeholders, h.placeholders_lt, ?_, ?_, h.signatures, h.signatureTypes, h.outParams, h.outs_lt⟩
  · have hfits := h.fits.object c hc o ho
    exact ⟨hfits.name, hfits.info⟩
  · exact h.pendingTypes.imp (fun _ _ _ hn => ⟨hn.moved, hn.name, hn.scope⟩) fun _ hp => hp
  · exact h.objectDecls.imp
      (fun _ _ _ hd => ⟨hd.moved, hd.name, hd.symbol, hd.kind⟩) fun _ hd => hd

end CheckState.Grafted

/-! ## Steps -/

namespace Check

variable {α β : Type} {head : ModuleHead} {g : Graft} {U : Multiset Node}

theorem RecordsWhen.sound {p : Check α} (h : Records head U p) {env : Env} (henv : env.head = head)
    {s : CheckState} (hs : s.Faithful env) (hsound : s.table.Sound) :
    (p.outcome env s).2.table.Sound :=
  (h env s henv hs trivial).1.sound hsound

/-- From a state that both runs have come to, the second step comes to the state that the first
one comes to, with a graft.  Inside of the routine that declares the type its scope is the
current one. -/
def Gains (head : ModuleHead) (g : Graft) (p q : Check Unit) : Prop :=
  ∀ env s, env.head = head → s.Grafted g env s → s.table.Sound →
    (g.inside = true → g.home? = some s.table.current) →
    ∃ g', g.Grows g' s.table ∧ (p.outcome env s).2.Grafted g' env (q.outcome env s).2 ∧
      s.table.Returns (p.outcome env s).2.table

section Rules

variable {p p' q q' : Check Unit}

theorem Gains.nothing (hblank : g.Blank) : Gains head g (pure ()) (pure ()) :=
  fun _ s _ hs _ _ => ⟨g, hblank.grows s.table, hs, .refl _⟩

/-- What both runs do before. -/
theorem Gains.after (hblank : g.Blank) {first : Check α} {f f' : α → Check Unit}
    {R : α → α → Prop} (hfirst : Alike head g R first first) (hrecords : Records head U first)
    (hf : ∀ a, R a a → Gains head g (f a) (f' a)) : Gains head g (first >>= f) (first >>= f') := by
  intro env s henv hs hsound hhome
  obtain ⟨hR, hs', hreturns⟩ := hfirst env s s henv hs
  rw [hblank.moveEnv] at hR hs'
  have hhome' : g.inside = true → g.home? = some (first.outcome env s).2.table.current :=
    fun hin => (hhome hin).trans (congrArg some hreturns.current.symm)
  obtain ⟨g', hgrows, hs'', hreturns'⟩ :=
    hf _ hR env _ henv hs' (hrecords.sound henv hs.faithful hsound) hhome'
  rw [outcome_bind, outcome_bind]
  exact ⟨g', hgrows.mono hreturns.toExtends, hs'', hreturns.trans hreturns'⟩

/-- What both runs do later. -/
theorem Gains.before (hp : Gains head g p p')
    (hq : ∀ g', g'.names = g.names → g'.inside = g.inside → Follow head g' q q') :
    Gains head g (p >>= fun _ => q) (p' >>= fun _ => q') := by
  intro env s henv hs hsound hhome
  obtain ⟨g', hgrows, hs', hreturns⟩ := hp env s henv hs hsound hhome
  obtain ⟨-, hs'', hreturns'⟩ := hq g' hgrows.names hgrows.inside env _ _ henv hs'
  rw [hgrows.moveEnv hs.contexts] at hs''
  rw [outcome_bind, outcome_bind]
  exact ⟨g', hgrows, hs'', hreturns.trans hreturns'⟩

/-- The declaration that the second run takes alone. -/
theorem declareType_gains (hblank : g.Blank) (hinside : g.inside = true) {d : TypeDecl}
    (hname : d.name.name ∈ g.names) (hd : g.Holds true d.node) :
    Gains head g (pure ()) (declareType d) := by
  intro env s henv hs hsound hhome
  have hcurrent := hhome hinside
  have hclear : ∀ e ∈ s.table.namesOf s.table.current, e.1 ∉ g.names := fun e he hmem =>
    hs.table.clear e he ⟨hcurrent.trans (congrArg some (hblank.scope _).symm), hmem⟩
  have hroot : SymbolTable.root < s.table.scopes.size :=
    Nat.lt_of_le_of_lt (Nat.zero_le _) hs.table.current_lt
  obtain ⟨hgaining, hreturns⟩ :=
    declareType_gaining henv hs.faithful hs.table.current_lt hclear hname hd
  exact ⟨_, g.grows_grown s.table _ hroot,
    hgaining.grafted hblank hsound hs hinside hcurrent hreturns.current hroot, .refl _⟩

/-! ## Scopes -/

/-- A scope in which the type is declared further inside. -/
theorem inScope_gains (hinside : g.inside = false) (h : Gains head g p q) (kind : ScopeKind)
    (span : Span) : Gains head g (inScope kind span p) (inScope kind span q) := by
  intro env s henv hs hsound _
  have hextends := s.table.extends_enter kind span
  have entered := hs.withTable (hs.table.enter kind span) hextends
  obtain ⟨g', hgrows, hs', hreturns⟩ := h env _ henv entered (hsound.enter kind span) fun hin => by
    rw [hinside] at hin
    cases hin
  have hparent := SymbolTable.parent?_of_returns hreturns
  have hlt : s.table.current < ((p.outcome env
      { s with table := s.table.enter kind span }).2).table.current := by
    rw [hreturns.current]
    exact hs.table.current_lt
  refine ⟨g', hgrows.mono hextends, ?_, SymbolTable.returns_leave hreturns⟩
  have left := hs'.table.leave hparent
    (Nat.lt_of_lt_of_le hs.table.current_lt (hextends.trans hreturns.toExtends).scopes)
    fun hin j hj => hs'.table.outside hin j (by
      rw [SymbolTable.enclosing_eq, hparent]
      dsimp only
      rw [if_pos hlt]
      exact .tail _ hj)
  exact hs'.withTable left (SymbolTable.extends_leave _)

/-- The scope in which the type is declared. -/
theorem inScope_gains_home (hblank : g.Blank) (hinside : g.inside = false) (hnone : g.home? = none)
    {kind : ScopeKind} (hkind : kind ≠ .object)
    (h : ∀ home hhome, Gains head (g.into home hhome) p q) (span : Span) :
    Gains head g (inScope kind span p) (inScope kind span q) := by
  intro env s henv hs hsound _
  have hextends := s.table.extends_enter kind span
  have hcurrent := hs.table.current_lt
  have hhome : s.table.scopes.size ≠ SymbolTable.root :=
    Nat.ne_of_gt (Nat.lt_of_le_of_lt (Nat.zero_le _) hcurrent)
  have entered := hs.into hnone hblank hkind span rfl hhome
  obtain ⟨g', hgrows, hs', hreturns⟩ :=
    h _ hhome env _ henv entered (hsound.enter kind span) fun _ => rfl
  have hback := SymbolTable.returns_leave hreturns
  have left : CheckState.Grafted g' env _ _ := hs'.withTable
    (hs'.table.leave (SymbolTable.parent?_of_returns hreturns)
      (Nat.lt_of_lt_of_le hcurrent (hextends.trans hreturns.toExtends).scopes) fun hin => by
        rw [hgrows.inside] at hin
        cases hin)
    (SymbolTable.extends_leave _)
  refine ⟨g'.out, ⟨hgrows.names, hgrows.place, hinside.symm, fun hin => ?_,
    (hgrows.mono hextends).symbol, (hgrows.mono hextends).scope⟩, left.out fun i hi => ?_, hback⟩
  · rw [hinside] at hin
    cases hin
  · -- the scopes around are older than the one that declares the names
    have hi : i ≤ s.table.current := hback.current ▸ SymbolTable.le_of_mem_enclosing hi
    have hlt : i < s.table.scopes.size := Nat.lt_of_le_of_lt hi hcurrent
    rw [hgrows.home rfl, (hgrows.mono hextends).scope i hlt]
    exact fun heq => Nat.ne_of_gt hlt (Option.some.inj heq)

/-! ## Routines and objects -/

theorem inRoutine_gains (hblank : g.Blank) {result? : Option Ty}
    (hresult : ∀ t, result? = some t → t.Avoids g.names) (h : Gains head g p q) {env : Env}
    (henv : env.head = head) {s : CheckState} (hs : s.Grafted g env s) (hsound : s.table.Sound)
    (hhome : g.inside = true → g.home? = some s.table.current) {outs : List Nat}
    (houts : ∀ id ∈ outs, id < s.table.symbols.size) :
    ∃ g', g.Grows g' s.table ∧ ((inRoutine result? outs p).outcome env s).2.Grafted g' env
        ((inRoutine result? outs q).outcome env s).2 ∧
      s.table.Returns ((inRoutine result? outs p).outcome env s).2.table := by
  let inner : Env := { env with routine? := some result? }
  have same : outs.map g.symbol = outs :=
    (List.map_congr_left fun id _ => hblank.symbol id).trans (List.map_id _)
  have started : CheckState.Grafted g inner _ _ := (startRoutine_grafted hs houts).ofEnv rfl rfl
    (fitsEnv_routine hs.fits hresult) hs.contexts
  rw [same] at started
  obtain ⟨g', hgrows, hs', hreturns⟩ := h inner _ henv started hsound hhome
  have back : CheckState.Grafted g' env _ _ :=
    hs'.ofEnv rfl rfl (hs.fits.of_names hgrows.names) hs'.contexts
  obtain ⟨hclosed, hreturns'⟩ := closeRoutine_grafted back (hgrows.outMatches hs.outs_lt)
    fun e he => Nat.lt_of_lt_of_le (hs.outs_lt e he) hreturns.symbols
  rw [hgrows.moveEnv hs.contexts] at hclosed
  exact ⟨g', hgrows, hclosed, hreturns.trans hreturns'⟩

theorem checkRoutine_gains (hblank : g.Blank) {params : List Param}
    (hparams : ∀ p ∈ params, g.Spares (.param p)) {signature : Signature}
    (hsignature : signature.Avoids g.names) {locals locals' : List Decl} {bodies bodies' : Check Unit}
    {body : List Stmt}
    (h : Gains head g (do declareAll locals; bodies; checkBlock body)
      (do declareAll locals'; bodies'; checkBlock body)) :
    Gains head g (checkRoutine params signature locals bodies body)
      (checkRoutine params signature locals' bodies' body) := by
  intro env s henv hs hsound hhome
  obtain ⟨-, hs', hreturns⟩ := defineAllParams_alike hparams hsignature.param env s s henv hs
  rw [hblank.moveEnv] at hs'
  have hsound' := (defineAllParams_records params signature.params).sound henv hs.faithful hsound
  obtain ⟨g', hgrows, hs'', hreturns'⟩ := inRoutine_gains hblank (fun _ ht => hsignature.result ht) h
    henv hs' hsound' (fun hin => (hhome hin).trans (congrArg some hreturns.current.symm))
    (defineAllParams_lt params signature.params env s).2
  exact ⟨g', hgrows.mono hreturns.toExtends, hs'', hreturns.trans hreturns'⟩

theorem withObject_gains {o? : Option ResolvedObject} (ho : ∀ o, o? = some o → g.Fits o)
    (resolved : Bool) (h : Gains head g p q) :
    Gains head g
      (do let context : ObjectContext := ⟨← currentScope, o?, resolved⟩
          withReader (fun env => { env with objects := context :: env.objects }) p)
      (do let context : ObjectContext := ⟨← currentScope, o?, resolved⟩
          withReader (fun env => { env with objects := context :: env.objects }) q) := by
  intro env s henv hs hsound hhome
  let inner : Env := { env with objects := ⟨s.table.current, o?, resolved⟩ :: env.objects }
  obtain ⟨g', hgrows, hs', hreturns⟩ :=
    h inner s henv (withObject_grafted hs ho resolved) hsound hhome
  exact ⟨g', hgrows, hs'.ofEnv rfl rfl (hs.fits.of_names hgrows.names) fun c hc =>
    hs'.contexts c (.tail _ hc), hreturns⟩

theorem inObject_gains (hblank : g.Blank) (hinside : g.inside = false) {o? : Option ResolvedObject}
    (ho : ∀ o, o? = some o → g.Fits o) (span : Span) (h : Gains head g p q) :
    Gains head g (inObject o? span p) (inObject o? span q) := by
  have rest (resolved : Bool) := inScope_gains hinside (withObject_gains ho resolved h) .object span
  cases o? with
  | none => exact rest false
  | some o =>
    exact Gains.after hblank (chainResolved_agree (ho o rfl)) ((chainResolved_still o).records (U := 0))
      fun resolved _ => rest resolved

end Rules

end Check

end SimFront
