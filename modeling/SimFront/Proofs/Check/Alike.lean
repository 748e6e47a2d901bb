import Mathlib.Logic.Function.Basic
import SimFront.Proofs.Check.Search
import SimFront.Proofs.Symbol.Grafting

/-!
# Two runs of a step, one with a graft

`CheckState.Grafted g env s u` says that the state `u` is `s` with a graft `g`: its table is,
its reports stand where `s` has reports or on the graft, and it knows the same of the rest.
`Alike head g R p q` says that the steps `p` and `q` come from such states to such states
again, with values that are related by `R`; `Agree` says that a step does so with itself
and gives the same value.  There is one rule for each way of building steps.
-/

namespace SimFront

/-! ## Lists with more entries -/

/-- The second list is the first one, entry by entry, with some entries more. -/
inductive Weave {α : Type} (R : α → α → Prop) (More : α → Prop) : List α → List α → Prop where
  | nil : Weave R More [] []
  | both {a b : α} {as bs : List α} : R a b → Weave R More as bs → Weave R More (a :: as) (b :: bs)
  | more {b : α} {as bs : List α} : More b → Weave R More as bs → Weave R More as (b :: bs)

namespace Weave

variable {α : Type} {R R' : α → α → Prop} {More More' : α → Prop} {as bs cs ds : List α}

theorem imp (h : Weave R More as bs) (hR : ∀ a b, a ∈ as → R a b → R' a b)
    (hMore : ∀ b, More b → More' b) : Weave R' More' as bs := by
  induction h with
  | nil => exact .nil
  | both hab _ ih =>
    exact .both (hR _ _ List.mem_cons_self hab) (ih fun a b ha => hR a b (List.mem_cons_of_mem _ ha))
  | more hb _ ih => exact .more (hMore _ hb) (ih hR)

theorem append (h : Weave R More as bs) (h' : Weave R More cs ds) :
    Weave R More (as ++ cs) (bs ++ ds) := by
  induction h with
  | nil => exact h'
  | both hab _ ih => exact .both hab ih
  | more hb _ ih => exact .more hb ih

theorem reverse (h : Weave R More as bs) : Weave R More as.reverse bs.reverse := by
  induction h with
  | nil => exact .nil
  | both hab _ ih =>
    rw [List.reverse_cons, List.reverse_cons]
    exact ih.append (.both hab .nil)
  | @more b as _ hb _ ih =>
    rw [List.reverse_cons, ← List.append_nil as.reverse]
    exact ih.append (.more hb .nil)

theorem refl (h : ∀ a ∈ as, R a a) : Weave R More as as := by
  induction as with
  | nil => exact .nil
  | cons a as ih =>
    exact .both (h a List.mem_cons_self) (ih fun b hb => h b (List.mem_cons_of_mem a hb))

theorem all_more (h : ∀ b ∈ bs, More b) : Weave R More [] bs := by
  induction bs with
  | nil => exact .nil
  | cons b bs ih =>
    exact .more (h b List.mem_cons_self) (ih fun c hc => h c (List.mem_cons_of_mem b hc))

/-- The first entry of a kind is the same in both, if none of the others is of it. -/
theorem find? (h : Weave R More as bs) {p : α → Bool} (hR : ∀ a b, R a b → p b = p a)
    (hMore : ∀ b, More b → p b = false) :
    (as.find? p = none ∧ bs.find? p = none) ∨
      ∃ a b, as.find? p = some a ∧ bs.find? p = some b ∧ R a b := by
  induction h with
  | nil => exact .inl ⟨rfl, rfl⟩
  | @both a b as bs hab _ ih =>
    rw [List.find?_cons, List.find?_cons, hR a b hab]
    cases p a with
    | true => exact .inr ⟨a, b, rfl, rfl, hab⟩
    | false => exact ih
  | @more b as bs hb _ ih =>
    rw [List.find?_cons_of_neg (l := bs) (Bool.not_eq_true _ ▸ hMore b hb)]
    exact ih

end Weave

/-! ## States -/

namespace Graft

variable {g : Graft}

/-- An object type that the graft takes nothing from. -/
structure Fits (g : Graft) (o : ResolvedObject) : Prop where
  name : o.origin? = none → o.name ∉ g.names
  info : o.info.Avoids g.names

def moveContext (g : Graft) (c : ObjectContext) : ObjectContext := { c with scope := g.scope c.scope }

/-- Where the analysis of the larger module is. -/
def moveEnv (g : Graft) (env : Env) : Env := { env with objects := env.objects.map g.moveContext }

structure FitsEnv (g : Graft) (env : Env) : Prop where
  object : ∀ c ∈ env.objects, ∀ o, c.object? = some o → g.Fits o
  result : ∀ type, env.routine? = some (some type) → type.Avoids g.names

/-- A type name that is noted in both runs. -/
structure Notes (g : Graft) (t : SymbolTable) (p q : PendingType) : Prop where
  moved : q = { p with scope := g.scope p.scope }
  name : p.module? = none → p.name ∉ g.names
  scope : p.scope < t.scopes.size

/-- An object type that is declared in both runs. -/
structure Declares (g : Graft) (t : SymbolTable) (d e : ObjectDecl) : Prop where
  moved : e = ⟨d.name, g.symbol d.symbol, g.scope d.scope⟩
  name : d.name ∉ g.names
  symbol : d.symbol < t.symbols.size
  kind : t.kind? d.scope = some .object

/-- An object type that the graft declares. -/
def NewObject (g : Graft) (d : ObjectDecl) : Prop :=
  d.name ∈ g.names ∧ g.NewSymbol d.symbol ∧ g.NewScope d.scope

/-- What is known of an OUT parameter: with the graft it may have been assigned before. -/
def OutMatches : Option OutState → Option OutState → Prop
  | none, none => True
  | some a, some b => (a.assigned = true → b.assigned = true) ∧
      ((a.assigned || a.warned) = true → (b.assigned || b.warned) = true)
  | _, _ => False

end Graft

namespace CheckState

/-- With the same knowledge of other modules. -/
theorem Faithful.of_same {env : Env} {s s' : CheckState} (h : s.Faithful env)
    (hmodules : s'.modules = s.modules) (hasked : s'.asked = s.asked)
    (himports : s'.wholeImports = s.wholeImports) : s'.Faithful env where
  answers := hmodules ▸ h.answers
  asked := by
    rw [hmodules, hasked]
    exact h.asked
  distinct := hmodules ▸ h.distinct
  imports := himports ▸ h.imports
  own := hmodules ▸ h.own

/-- The state `u` is `s` with a graft. -/
structure Grafted (g : Graft) (env : Env) (s u : CheckState) : Prop where
  table : SymbolTable.Grafted g s.table u.table
  faithful : s.Faithful env
  faithful' : u.Faithful env
  fits : g.FitsEnv env
  contexts : ∀ c ∈ env.objects, c.scope < s.table.scopes.size
  reports : ∀ x ∈ u.reports, g.place x.span ∨ ∃ y ∈ s.reports, y.span = x.span
  wholeImports : u.wholeImports = s.wholeImports
  unresolved : u.unresolved = s.unresolved
  placeholders : u.placeholders = s.placeholders.map g.symbol
  placeholders_lt : ∀ id ∈ s.placeholders, id < s.table.symbols.size
  pendingTypes : Weave (g.Notes s.table) (fun q => g.place q.span) s.pendingTypes u.pendingTypes
  objectDecls : Weave (g.Declares s.table) g.NewObject s.objectDecls u.objectDecls
  signatures : u.signatures = s.signatures
  signatureTypes : ∀ e ∈ s.signatures, e.2.Avoids g.names
  outParams : ∀ id, Graft.OutMatches (List.lookup id s.outParams)
    (List.lookup (g.symbol id) u.outParams)
  outs_lt : ∀ e ∈ s.outParams, e.1 < s.table.symbols.size

namespace Grafted

variable {g : Graft} {env : Env} {s s' u u' : CheckState}

theorem withTable {t v : SymbolTable} (h : s.Grafted g env u) (ht : SymbolTable.Grafted g t v)
    (hextends : s.table.Extends t) :
    ({ s with table := t } : CheckState).Grafted g env { u with table := v } :=
  { h with
    table := ht
    faithful := h.faithful.of_same rfl rfl rfl
    faithful' := h.faithful'.of_same rfl rfl rfl
    contexts := fun c hc => Nat.lt_of_lt_of_le (h.contexts c hc) hextends.scopes
    placeholders_lt := fun id hid => Nat.lt_of_lt_of_le (h.placeholders_lt id hid) hextends.symbols
    pendingTypes := h.pendingTypes.imp (fun _ _ _ hp =>
      { hp with scope := Nat.lt_of_lt_of_le hp.scope hextends.scopes }) fun _ hq => hq
    objectDecls := h.objectDecls.imp (fun _ _ _ hd => { hd with
      symbol := Nat.lt_of_lt_of_le hd.symbol hextends.symbols
      kind := hextends.kind hd.kind }) fun _ hd => hd
    outs_lt := fun e he => Nat.lt_of_lt_of_le (h.outs_lt e he) hextends.symbols }

/-- What is remembered of other modules plays no part. -/
theorem like (h : s.Grafted g env u) (hs : s.Like s') (hs' : s'.Faithful env) (hu : u.Like u')
    (hu' : u'.Faithful env) : s'.Grafted g env u' := by
  unfold Like at hs hu
  rw [hs] at hs' ⊢
  rw [hu] at hu' ⊢
  exact { h with faithful := hs', faithful' := hu' }

/-- The same states are seen from elsewhere in the module. -/
theorem ofEnv {env' : Env} (h : s.Grafted g env u) (hresolver : env'.resolver? = env.resolver?)
    (hhead : env'.head = env.head) (hfits : g.FitsEnv env')
    (hcontexts : ∀ c ∈ env'.objects, c.scope < s.table.scopes.size) : s.Grafted g env' u :=
  { h with
    faithful := h.faithful.of_resolver hresolver hhead
    faithful' := h.faithful'.of_resolver hresolver hhead
    fits := hfits
    contexts := hcontexts }

theorem report (h : s.Grafted g env u) {d d' : Diagnostic} (hspan : d.span = d'.span) :
    ({ s with reports := d :: s.reports } : CheckState).Grafted g env
      { u with reports := d' :: u.reports } :=
  { h with
    faithful := h.faithful.of_same rfl rfl rfl
    faithful' := h.faithful'.of_same rfl rfl rfl
    reports := fun x hx => by
      rcases List.mem_cons.1 hx with rfl | hx
      · exact .inr ⟨d, List.mem_cons_self, hspan⟩
      · exact (h.reports x hx).imp_right fun ⟨y, hy, heq⟩ => ⟨y, List.mem_cons_of_mem d hy, heq⟩ }

/-- A report of the run without the graft is made in the other run or not. -/
theorem reportFirst (h : s.Grafted g env u) (d : Diagnostic) :
    ({ s with reports := d :: s.reports } : CheckState).Grafted g env u :=
  { h with
    faithful := h.faithful.of_same rfl rfl rfl
    reports := fun x hx =>
      (h.reports x hx).imp_right fun ⟨y, hy, heq⟩ => ⟨y, List.mem_cons_of_mem d hy, heq⟩ }

theorem withOutParams {outs outs' : List (Nat × OutState)} (h : s.Grafted g env u)
    (houts : ∀ id, Graft.OutMatches (List.lookup id outs) (List.lookup (g.symbol id) outs'))
    (hlt : ∀ e ∈ outs, e.1 < s.table.symbols.size) :
    ({ s with outParams := outs } : CheckState).Grafted g env { u with outParams := outs' } :=
  { h with
    faithful := h.faithful.of_same rfl rfl rfl
    faithful' := h.faithful'.of_same rfl rfl rfl
    outParams := houts
    outs_lt := hlt }

end Grafted

end CheckState

/-! ## Steps -/

namespace Check

variable {α β γ δ : Type} {head : ModuleHead} {g : Graft}

/-- From states of which one has a graft the steps come to such states again, with values that
are related, and go back to the current scope. -/
def Alike (head : ModuleHead) (g : Graft) (R : α → β → Prop) (p : Check α) (q : Check β) : Prop :=
  ∀ env s u, env.head = head → s.Grafted g env u →
    R (p.outcome env s).1 (q.outcome (g.moveEnv env) u).1 ∧
    (p.outcome env s).2.Grafted g env (q.outcome (g.moveEnv env) u).2 ∧
    s.table.Returns (p.outcome env s).2.table

/-- The step gives the same value, which satisfies a property. -/
abbrev Agree (head : ModuleHead) (g : Graft) (P : α → Prop) (p : Check α) : Prop :=
  Alike head g (fun a b => b = a ∧ P a) p p

/-- The steps have no value that matters. -/
abbrev Follow (head : ModuleHead) (g : Graft) (p q : Check α) : Prop :=
  Alike head g (fun _ _ => True) p q

section Rules

variable {R : α → β → Prop} {S : γ → δ → Prop} {P : α → Prop}

theorem Alike.pure {a : α} {b : β} (h : R a b) : Alike head g R (Pure.pure a) (Pure.pure b) :=
  fun _ _ _ _ hs => ⟨h, hs, .refl _⟩

theorem Agree.pure {a : α} (h : P a) : Agree head g P (Pure.pure a) := Alike.pure ⟨rfl, h⟩

theorem Alike.mono {R' : α → β → Prop} {p : Check α} {q : Check β} (h : Alike head g R p q)
    (hR : ∀ a b, R a b → R' a b) : Alike head g R' p q :=
  fun env s u henv hs => (h env s u henv hs).imp_left (hR _ _)

theorem Alike.follow {p q : Check α} {R : α → α → Prop} (h : Alike head g R p q) :
    Follow head g p q := h.mono fun _ _ _ => trivial

theorem Alike.bind {p : Check α} {q : Check β} {f : α → Check γ} {f' : β → Check δ}
    (hp : Alike head g R p q) (hf : ∀ a b, R a b → Alike head g S (f a) (f' b)) :
    Alike head g S (p >>= f) (q >>= f') := by
  intro env s u henv hs
  obtain ⟨hR, hs', hreturns⟩ := hp env s u henv hs
  obtain ⟨hS, hs'', hreturns'⟩ := hf _ _ hR env _ _ henv hs'
  rw [outcome_bind, outcome_bind]
  exact ⟨hS, hs'', hreturns.trans hreturns'⟩

theorem Agree.bind {p : Check α} {f : α → Check γ} {f' : α → Check δ} (hp : Agree head g P p)
    (hf : ∀ a, P a → Alike head g S (f a) (f' a)) : Alike head g S (p >>= f) (p >>= f') :=
  Alike.bind hp fun a _ h => h.1 ▸ hf a h.2

theorem Follow.bind {p q : Check Unit} {f : Unit → Check γ} {f' : Unit → Check δ}
    (hp : Follow head g p q) (hf : Alike head g S (f ()) (f' ())) :
    Alike head g S (p >>= f) (q >>= f') :=
  Alike.bind hp fun _ _ _ => hf

theorem Alike.get {f : CheckState → Check γ} {f' : CheckState → Check δ}
    (h : ∀ env s u, env.head = head → s.Grafted g env u → Alike head g S (f s) (f' u)) :
    Alike head g S (MonadState.get >>= f) (MonadState.get >>= f') :=
  fun env s u henv hs => h env s u henv hs env s u henv hs

theorem Alike.table {f : SymbolTable → Check γ} {f' : SymbolTable → Check δ}
    (h : ∀ t v, SymbolTable.Grafted g t v → Alike head g S (f t) (f' v)) :
    Alike head g S (Check.table >>= f) (Check.table >>= f') :=
  fun env s u henv hs => h s.table u.table hs.table env s u henv hs

theorem Alike.read {f : Env → Check γ} {f' : Env → Check δ}
    (h : ∀ env, env.head = head → g.FitsEnv env → Alike head g S (f env) (f' (g.moveEnv env))) :
    Alike head g S (MonadReader.read >>= f) (MonadReader.read >>= f') :=
  fun env s u henv hs => h env henv hs.fits env s u henv hs

/-- What does not look at the objects around sees the same in both runs. -/
theorem Alike.readSame {f : Env → Check γ} {f' : Env → Check δ}
    (hsame : ∀ env, f' (g.moveEnv env) = f' env)
    (h : ∀ env, env.head = head → g.FitsEnv env → Alike head g S (f env) (f' env)) :
    Alike head g S (MonadReader.read >>= f) (MonadReader.read >>= f') :=
  .read fun env henv hfits => hsame env ▸ h env henv hfits

theorem Follow.modify {φ ψ : CheckState → CheckState}
    (h : ∀ env s u, env.head = head → s.Grafted g env u →
      (φ s).Grafted g env (ψ u) ∧ s.table.Returns (φ s).table) :
    Follow head g (modify φ : Check Unit) (modify ψ) :=
  fun env s u henv hs => ⟨trivial, h env s u henv hs⟩

theorem Follow.modifyTable {φ ψ : SymbolTable → SymbolTable}
    (h : ∀ t v, SymbolTable.Grafted g t v → SymbolTable.Grafted g (φ t) (ψ v) ∧ t.Returns (φ t)) :
    Follow head g (modifyTable φ) (modifyTable ψ) :=
  .modify fun _ s u _ hs =>
    have ⟨ht, hreturns⟩ := h s.table u.table hs.table
    ⟨hs.withTable ht hreturns.toExtends, hreturns⟩

/-- What a step of the kind needs to know of where it is may change for a while. -/
theorem Alike.withReader {p : Check α} {q : Check β} (f : Env → Env)
    (hhead : ∀ env, (f env).head = env.head) (hresolver : ∀ env, (f env).resolver? = env.resolver?)
    (hobjects : ∀ env, (f env).objects = env.objects)
    (hmove : ∀ env, f (g.moveEnv env) = g.moveEnv (f env))
    (hresult : ∀ env, g.FitsEnv env → g.FitsEnv (f env)) (h : Alike head g R p q) :
    Alike head g R (withReader f p : Check α) (withReader f q : Check β) := by
  intro env s u henv hs
  have inner := hs.ofEnv (hresolver env) (hhead env) (hresult env hs.fits)
    ((hobjects env).symm ▸ hs.contexts)
  obtain ⟨hR, hs', hreturns⟩ := h (f env) s u ((hhead env).trans henv) inner
  rw [outcome_withReader, outcome_withReader, hmove]
  exact ⟨hR, hs'.ofEnv (hresolver env).symm (hhead env).symm hs.fits (hobjects env ▸ hs'.contexts),
    hreturns⟩

end Rules

/-! ## Repeated steps -/

theorem forM_follow {f f' : α → Check Unit} {as : List α}
    (h : ∀ a ∈ as, Follow head g (f a) (f' a)) : Follow head g (as.forM f) (as.forM f') := by
  induction as with
  | nil => exact .pure trivial
  | cons a as ih =>
    exact (h a List.mem_cons_self).bind (ih fun b hb => h b (List.mem_cons_of_mem a hb))

theorem optionForM_follow {f f' : α → Check Unit} {a? : Option α}
    (h : ∀ a, a? = some a → Follow head g (f a) (f' a)) :
    Follow head g (a?.forM f) (a?.forM f') := by
  cases a? with
  | none => exact .pure trivial
  | some a => exact h a rfl

theorem mapM_agree {f : α → Check β} {P : β → Prop} {as : List α}
    (h : ∀ a ∈ as, Agree head g P (f a)) :
    Agree head g (fun bs => ∀ b ∈ bs, P b) (as.mapM f) := by
  induction as with
  | nil => exact .pure fun _ hb => nomatch hb
  | cons a as ih =>
    rw [List.mapM_cons]
    refine (h a List.mem_cons_self).bind fun b hb =>
      (ih fun c hc => h c (List.mem_cons_of_mem a hc)).bind fun bs hbs => Agree.pure fun c hc => ?_
    rcases List.mem_cons.1 hc with rfl | hc
    · exact hb
    · exact hbs c hc

/-! ## Reports -/

theorem report_follow {d d' : Diagnostic} (hspan : d.span = d'.span) :
    Follow head g (report d) (report d') :=
  .modify fun _ _ _ _ hs => ⟨hs.report hspan, .refl _⟩

theorem error_follow (code : DiagnosticCode) (span : Span) (message message' : String) :
    Follow head g (error code span message) (error code span message') := report_follow rfl

theorem warning_follow (code : DiagnosticCode) (span : Span) (message message' : String) :
    Follow head g (warning code span message) (warning code span message') := report_follow rfl

/-! ## The symbol table -/

/-- A symbol as it is found in both tables; only its scope has another number. -/
inductive Found (g : Graft) : Option Symbol → Option Symbol → Prop where
  | none : Found g none none
  | some (s : Symbol) (scope : Nat) (avoids : s.type.Avoids g.names) :
      Found g (some s) (some { s with scope })

theorem found_symbol? {t v : SymbolTable} (h : SymbolTable.Grafted g t v) (id : Nat) :
    Found g (t.symbol? id) (v.symbol? (g.symbol id)) := by
  rw [h.symbol]
  cases hs : t.symbol? id with
  | none => exact .none
  | some s => exact .some s _ (h.types hs)

theorem symbol?_alike (id : Nat) :
    Alike head g (Found g) (symbol? id) (symbol? (g.symbol id)) :=
  .table fun _ _ h => .pure (found_symbol? h id)

theorem currentScope_alike :
    Alike head g (fun i j => j = g.scope i) currentScope currentScope :=
  .table fun _ _ h => .pure h.current

theorem define_alike {symbol : Symbol} (hname : g.Plain symbol.name)
    (htype : symbol.type.Avoids g.names)
    (hown : symbol.kind = .type → symbol.origin? = none → symbol.name ∉ g.names) :
    Alike head g (fun a b => b = a.map g.symbol) (define symbol) (define symbol) := by
  intro env s u _ hs
  unfold define
  rw [outcome_bind, outcome_bind]
  obtain ⟨id, t, v, ht, hv, hgrafted⟩ | ⟨d, d', ht, hv⟩ := hs.table.define hname htype hown
  · rw [show (table.outcome env s).1.define symbol = .ok (id, t) from ht,
      show (table.outcome (g.moveEnv env) u).1.define symbol = .ok (g.symbol id, v) from hv]
    have hextends := SymbolTable.extends_defineIn ht
    exact ⟨rfl, hs.withTable hgrafted hextends, hextends, SymbolTable.current_defineIn ht⟩
  · rw [show (table.outcome env s).1.define symbol = .error d from ht,
      show (table.outcome (g.moveEnv env) u).1.define symbol = .error d' from hv]
    exact ⟨rfl, hs.report rfl, .refl _⟩

theorem refer_follow (id : Nat) (span : Span) :
    Follow head g (refer id span) (refer (g.symbol id) span) :=
  .modifyTable fun t v h =>
    ⟨h.referIn t.current v.current id span span, ⟨.of_scopes rfl (Nat.le_refl _), rfl⟩⟩

/-! ## OUT parameters -/

/-- The OUT parameters after one of them has changed. -/
def changeOut (outs : List (Nat × OutState)) (id : Nat) (f : OutState → OutState) :
    List (Nat × OutState) :=
  outs.map fun e => if e.1 = id then (e.1, f e.2) else e

theorem lookup_changeOut (outs : List (Nat × OutState)) (id : Nat) (f : OutState → OutState)
    (i : Nat) : List.lookup i (changeOut outs id f) =
      if i = id then (List.lookup i outs).map f else List.lookup i outs := by
  induction outs with
  | nil => cases i == id <;> simp [changeOut]
  | cons e outs ih =>
    obtain ⟨k, a⟩ := e
    have hcons : changeOut ((k, a) :: outs) id f =
        (k, if k = id then f a else a) :: changeOut outs id f := by
      unfold changeOut
      rw [List.map_cons]
      split <;> rfl
    rw [hcons, List.lookup_cons, List.lookup_cons, ih]
    by_cases hi : i = k
    · subst hi
      simp only [beq_self_eq_true]
      split <;> rfl
    · simp only [beq_false_of_ne hi]

theorem lt_of_mem_changeOut {outs : List (Nat × OutState)} {id n : Nat} {f : OutState → OutState}
    (h : ∀ e ∈ outs, e.1 < n) : ∀ e ∈ changeOut outs id f, e.1 < n := by
  intro e he
  obtain ⟨e', he', rfl⟩ := List.mem_map.1 he
  split
  · exact h e' he'
  · exact h e' he'

theorem setOutState_follow (id : Nat) {f f' : OutState → OutState}
    (hf : ∀ a b, Graft.OutMatches a b → Graft.OutMatches (a.map f) (b.map f')) :
    Follow head g (setOutState id f) (setOutState (g.symbol id) f') := by
  refine .modify fun env s u _ hs => ⟨hs.withOutParams (fun i => ?_) (lt_of_mem_changeOut hs.outs_lt),
    .refl _⟩
  show Graft.OutMatches (List.lookup i (changeOut s.outParams id f))
    (List.lookup (g.symbol i) (changeOut u.outParams (g.symbol id) f'))
  rw [lookup_changeOut, lookup_changeOut]
  by_cases hi : i = id
  · rw [if_pos hi, if_pos (congrArg _ hi)]
    exact hf _ _ (hs.outParams i)
  · rw [if_neg hi, if_neg fun heq => hi (Graft.symbol_inj.1 heq)]
    exact hs.outParams i

theorem markAssigned_follow (id : Nat) :
    Follow head g (markAssigned id) (markAssigned (g.symbol id)) := by
  refine setOutState_follow id fun a b h => ?_
  cases a <;> cases b
  · trivial
  · exact h
  · exact h
  · exact ⟨fun _ => rfl, fun _ => rfl⟩

/-- That a symbol was read is remembered, if it was not yet. -/
theorem warnRead_follow (id : Nat) (span : Span) (message message' : Option Symbol → String) :
    Follow head g
      (do setOutState id fun s => { s with warned := true }
          warning .outReadBeforeAssign span (message (← symbol? id)))
      (do setOutState (g.symbol id) fun s => { s with warned := true }
          warning .outReadBeforeAssign span (message' (← symbol? (g.symbol id)))) := by
  refine Follow.bind (setOutState_follow id fun a b h => ?_)
    ((symbol?_alike id).bind fun _ _ _ => warning_follow _ _ _ _)
  cases a <;> cases b
  · trivial
  · exact h
  · exact h
  · exact ⟨h.1, fun _ => Bool.or_true _⟩

theorem noteRead_follow (id : Nat) (span : Span) :
    Follow head g (noteRead id span) (noteRead (g.symbol id) span) := by
  refine (refer_follow id span).bind ?_
  intro env s u henv hs
  rw [outcome_get, outcome_get]
  have hmatches := hs.outParams id
  cases ha : List.lookup id s.outParams with
  | none =>
    cases hb : List.lookup (g.symbol id) u.outParams with
    | none => exact ⟨trivial, hs, .refl _⟩
    | some b =>
      rw [ha, hb] at hmatches
      exact hmatches.elim
  | some a =>
    cases hb : List.lookup (g.symbol id) u.outParams with
    | none =>
      rw [ha, hb] at hmatches
      exact hmatches.elim
    | some b =>
      rw [ha, hb] at hmatches
      dsimp only
      by_cases hknown : (a.assigned || a.warned) = true
      · rw [if_pos hknown, if_pos (hmatches.2 hknown)]
        exact ⟨trivial, hs, .refl _⟩
      · rw [if_neg hknown]
        by_cases hknown' : (b.assigned || b.warned) = true
        · -- with the graft the parameter was assigned or read before
          rw [if_pos hknown']
          have noted : ({ s with
              outParams := changeOut s.outParams id fun a => { a with warned := true }
              } : CheckState).Grafted g env { u with outParams := u.outParams } := by
            refine hs.withOutParams (fun i => ?_) (lt_of_mem_changeOut hs.outs_lt)
            rw [lookup_changeOut]
            split
            · next hi =>
              subst hi
              rw [ha, hb]
              exact ⟨hmatches.1, fun _ => hknown'⟩
            · exact hs.outParams i
          exact ⟨trivial, noted.reportFirst _, .refl _⟩
        · rw [if_neg hknown']
          exact warnRead_follow id span _ _ env s u henv hs

/-! ## Scopes -/

/-- A step in a new scope. -/
theorem inScope_alike {R : α → β → Prop} {p : Check α} {q : Check β} (kind : ScopeKind)
    (span : Span) (h : Alike head g R p q) :
    Alike head g R (inScope kind span p) (inScope kind span q) := by
  intro env s u henv hs
  have entered := hs.withTable (hs.table.enter kind span) (s.table.extends_enter kind span)
  obtain ⟨hR, hs', hreturns⟩ := h env _ _ henv entered
  have hback := SymbolTable.returns_leave hreturns
  refine ⟨hR, ?_, hback⟩
  -- the scopes around the one that is current again are those from before
  have hextends := (s.table.extends_enter kind span).trans hreturns.toExtends
  have left := hs'.table.leave (SymbolTable.parent?_of_returns hreturns)
    (Nat.lt_of_lt_of_le hs.table.current_lt hextends.scopes) fun hinside j hj =>
      hs.table.outside hinside j (hextends.enclosing hs.table.current_lt ▸ hj)
  exact hs'.withTable left (SymbolTable.extends_leave _)

end Check

end SimFront
