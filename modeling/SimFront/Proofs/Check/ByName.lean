import SimFront.Check.Module

/-!
# Other modules are known by name alone

A step of the analysis sees other modules through `moduleTable?` only, which remembers
every answer.  `Query` holds of the steps that look things up and change nothing but
what is remembered, and `ByName` of all steps that are built from such, from changes of
the rest of the state, and from searches that come to the same end however deep they
may go.  Whatever is remembered is the answer of the resolver (`ByName.faithful`), and a
resolver that gives the same answers to what was asked leads to the same outcome
(`ByName.congr`).  Where the module imports nothing it is all the same whether there is a
resolver at all.
-/

namespace SimFront

/-- The name and the kind of the module under analysis. -/
structure ModuleHead where
  name : String
  kind : ModuleKind
  /-- The module is known to import nothing. -/
  alone : Bool := false

namespace ModuleHead

/-- What the steps of the analysis see of a head. -/
def shown (head : ModuleHead) : ModuleHead := { head with alone := false }

/-- What a module can import whole: never itself, and nothing if it imports nothing. -/
def Admits (head : ModuleHead) (imports : List String) : Prop :=
  head.name ∉ imports ∧ (head.alone = true → imports = [])

end ModuleHead

namespace Env

def head (env : Env) : ModuleHead := { name := env.moduleName, kind := env.moduleKind }

/-- What the analysis is told of another module. -/
def answer (env : Env) (name : String) : Option SymbolTable :=
  env.resolver?.bind (·.find? name)

end Env

namespace CheckState

/-- All that is remembered of other modules was answered so, each was asked for once, and
whatever was asked for is remembered.  A module never imports itself, and only an
implementation module asks for its own name. -/
structure Faithful (env : Env) (s : CheckState) : Prop where
  answers : ∀ e ∈ s.modules, env.answer e.1 = e.2
  asked : s.asked = if env.resolver?.isSome then s.modules.map Prod.fst else []
  distinct : (s.modules.map Prod.fst).Nodup
  imports : env.head.name ∉ s.wholeImports
  own : env.head.name ∈ s.modules.map Prod.fst → env.head.kind = .implementation

/-- The same state, but for what is remembered of other modules. -/
def Like (s t : CheckState) : Prop := t = { s with modules := t.modules, asked := t.asked }

theorem Like.refl (s : CheckState) : s.Like s := rfl

theorem Like.symm {s t : CheckState} (h : s.Like t) : t.Like s := by
  unfold Like at h ⊢
  rw [h]

theorem Like.trans {s t u : CheckState} (h : s.Like t) (h' : t.Like u) : s.Like u := by
  unfold Like at h h' ⊢
  rw [h', h]

theorem Like.wholeImports {s t : CheckState} (h : s.Like t) : t.wholeImports = s.wholeImports :=
  congrArg (·.wholeImports) h

/-- What a module imports whole is what its head admits, if all that is known of it is shown. -/
theorem Faithful.admits {env : Env} {s : CheckState} (h : s.Faithful env) :
    env.head.Admits s.wholeImports := ⟨h.imports, fun halone => nomatch halone⟩

/-- What is remembered hangs on nothing but the resolver and the module under analysis. -/
theorem Faithful.of_resolver {env env' : Env} {s : CheckState} (h : s.Faithful env)
    (he : env'.resolver? = env.resolver?) (hhead : env'.head = env.head) : s.Faithful env' where
  answers := by
    unfold Env.answer
    rw [he]
    exact h.answers
  asked := by
    rw [he]
    exact h.asked
  distinct := h.distinct
  imports := by
    rw [hhead]
    exact h.imports
  own := by
    rw [hhead]
    exact h.own

end CheckState

namespace Check

variable {α β : Type}

/-- What a step comes to: its value, and the state that it leaves. -/
def outcome (p : Check α) (env : Env) (s : CheckState) : α × CheckState := p env s

@[simp] theorem outcome_pure (a : α) (env : Env) (s : CheckState) :
    (pure a : Check α).outcome env s = (a, s) := rfl

theorem outcome_bind (p : Check α) (f : α → Check β) (env : Env) (s : CheckState) :
    (p >>= f).outcome env s = (f (p.outcome env s).1).outcome env (p.outcome env s).2 := rfl

theorem outcome_get (f : CheckState → Check α) (env : Env) (s : CheckState) :
    (get >>= f).outcome env s = (f s).outcome env s := rfl

theorem outcome_read (f : Env → Check α) (env : Env) (s : CheckState) :
    (read >>= f).outcome env s = (f env).outcome env s := rfl

@[simp] theorem outcome_modify (f : CheckState → CheckState) (env : Env) (s : CheckState) :
    (modify f : Check Unit).outcome env s = ((), f s) := rfl

@[simp] theorem outcome_withReader (f : Env → Env) (p : Check α) (env : Env) (s : CheckState) :
    (withReader f p : Check α).outcome env s = p.outcome (f env) s := rfl

/-! ## Asking for a module -/

theorem outcome_moduleTable? (name : String) (env : Env) (s : CheckState) :
    (moduleTable? name).outcome env s =
      match List.lookup name s.modules with
      | some answer => (answer, s)
      | none => (env.answer name, { s with
          modules := (name, env.answer name) :: s.modules,
          asked := if env.resolver?.isSome then name :: s.asked else s.asked }) := by
  unfold moduleTable?
  rw [outcome_get]
  cases List.lookup name s.modules <;> rfl

theorem mem_of_lookup {name : String} {a : Option SymbolTable}
    {ms : List (String × Option SymbolTable)} (h : List.lookup name ms = some a) :
    (name, a) ∈ ms := by
  obtain ⟨l, r, hms, -⟩ := List.lookup_eq_some_iff.1 h
  rw [hms]
  exact List.mem_append_right _ List.mem_cons_self

theorem not_mem_of_lookup {name : String} {ms : List (String × Option SymbolTable)}
    (h : List.lookup name ms = none) : name ∉ ms.map Prod.fst := by
  intro hmem
  obtain ⟨e, he, rfl⟩ := List.mem_map.1 hmem
  have hne := List.lookup_eq_none_iff.1 h e he
  rw [bne_self_eq_false] at hne
  cases hne

/-- The answer is that of the resolver, whether it is remembered or not. -/
theorem moduleTable?_value {env : Env} {s : CheckState} (h : s.Faithful env) (name : String) :
    ((moduleTable? name).outcome env s).1 = env.answer name := by
  rw [outcome_moduleTable?]
  split
  · next answer hfind => exact (h.answers _ (mem_of_lookup hfind)).symm
  · rfl

theorem moduleTable?_like (name : String) (env : Env) (s : CheckState) :
    s.Like ((moduleTable? name).outcome env s).2 := by
  rw [outcome_moduleTable?]
  split <;> rfl

theorem moduleTable?_faithful {env : Env} {s : CheckState} (h : s.Faithful env) {name : String}
    (hown : name = env.head.name → env.head.kind = .implementation) :
    ((moduleTable? name).outcome env s).2.Faithful env := by
  rw [outcome_moduleTable?]
  split
  · exact h
  · next hfind =>
    refine ⟨fun e he => ?_, ?_, ?_, h.imports, fun hmem => ?_⟩
    · rcases List.mem_cons.1 he with rfl | he
      · rfl
      · exact h.answers e he
    · rw [h.asked]
      cases env.resolver?.isSome <;> rfl
    · exact List.nodup_cons.2 ⟨not_mem_of_lookup hfind, h.distinct⟩
    · rcases List.mem_cons.1 hmem with hname | hmem
      · exact hown hname.symm
      · exact h.own hmem

/-- What was asked for is remembered afterwards. -/
theorem moduleTable?_modules (name : String) (env : Env) (s : CheckState) :
    s.modules <:+ ((moduleTable? name).outcome env s).2.modules ∧
      (name, ((moduleTable? name).outcome env s).1) ∈
        ((moduleTable? name).outcome env s).2.modules := by
  rw [outcome_moduleTable?]
  split
  · next answer hfind => exact ⟨List.suffix_rfl, mem_of_lookup hfind⟩
  · exact ⟨List.suffix_cons _ _, List.mem_cons_self⟩

/-! ## Steps that look things up -/

/-- A step of the analysis of some module that looks at the state and at other modules, and
changes at most what is remembered of them. -/
inductive Query (head : ModuleHead) : {α : Type} → Check α → Prop where
  | pure {α : Type} (a : α) : Query head (pure a : Check α)
  | bind {α β : Type} {p : Check α} {f : α → Check β} :
      Query head p → (∀ a, Query head (f a)) → Query head (p >>= f)
  | get {α : Type} {f : CheckState → Check α} :
      (∀ s, head.Admits s.wholeImports → Query head (f s)) →
      (∀ s ms as, f { s with modules := ms, asked := as } = f s) →
      Query head (get >>= f)
  | read {α : Type} {f : Env → Check α} :
      (∀ env, env.head = head.shown → Query head (f env)) →
      (∀ env r?, (head.alone = false → r?.isSome = env.resolver?.isSome) →
        f { env with resolver? := r? } = f env) →
      Query head (read >>= f)
  | ask {name : String} :
      (name = head.name → head.kind = .implementation) → Query head (moduleTable? name)

/-- A step that knows other modules by nothing but the answers to what it asks for.  A search
counts as one when it comes to the same end at every depth from a bound on. -/
inductive ByName (head : ModuleHead) : {α : Type} → Check α → Prop where
  | query {α : Type} {p : Check α} : Query head p → ByName head p
  | bind {α β : Type} {p : Check α} {f : α → Check β} :
      ByName head p → (∀ a, ByName head (f a)) → ByName head (p >>= f)
  | get {α : Type} {f : CheckState → Check α} :
      (∀ s, ByName head (f s)) → (∀ s ms as, f { s with modules := ms, asked := as } = f s) →
      ByName head (get >>= f)
  | modify (f : CheckState → CheckState) :
      (∀ s ms as, f { s with modules := ms, asked := as } =
        { f s with modules := ms, asked := as }) →
      (∀ s, head.Admits s.wholeImports → head.Admits (f s).wholeImports) →
      ByName head (modify f : Check Unit)
  | read {α : Type} {f : Env → Check α} :
      (∀ env, env.head = head.shown → ByName head (f env)) →
      (∀ env r?, (head.alone = false → r?.isSome = env.resolver?.isSome) →
        f { env with resolver? := r? } = f env) →
      ByName head (read >>= f)
  | withReader {α : Type} {p : Check α} (f : Env → Env) :
      (∀ env r?, f { env with resolver? := r? } = { f env with resolver? := r? }) →
      (∀ env, (f env).head = env.head) →
      ByName head p → ByName head (withReader f p : Check α)
  | search {α : Type} {p : Nat → Check α} {bound : Env → CheckState → Nat} :
      (∀ n, ByName head (p n)) →
      (∀ env s n, env.head = head.shown → s.Faithful env → bound env s ≤ n →
        (p n).outcome env s = (p (bound env s)).outcome env s) →
      ByName head (fun env s => p (bound env s) env s)

variable {head : ModuleHead}

theorem ByName.pure (a : α) : ByName head (Pure.pure a : Check α) := .query (.pure a)

/-! ## What looking things up leaves alone -/

/-- Wherever more is remembered, a query gives the same value and leaves the rest of the
state alone. -/
theorem Query.stableIn {p : Check α} (h : Query head p) {env : Env} (henv : env.head = head.shown)
    {s t : CheckState} (hin : head.Admits s.wholeImports) (hs : s.Faithful env) (ht : t.Faithful env)
    (hst : s.Like t) :
    (p.outcome env t).1 = (p.outcome env s).1 ∧ t.Like (p.outcome env t).2 ∧
      (p.outcome env t).2.Faithful env := by
  induction h generalizing s t with
  | pure a => exact ⟨rfl, CheckState.Like.refl t, ht⟩
  | @bind _ _ p f _ _ ihp ihf =>
    obtain ⟨hvalue, htt, htf⟩ := ihp hin hs ht hst
    obtain ⟨-, hss, hsf⟩ := ihp hin hs hs (CheckState.Like.refl s)
    rw [outcome_bind, outcome_bind, hvalue]
    obtain ⟨hvalue', htt', htf'⟩ := ihf _ (hss.wholeImports.symm ▸ hin) hsf htf
      (hss.symm.trans (hst.trans htt))
    exact ⟨hvalue', htt.trans htt', htf'⟩
  | get _ hf ih =>
    have same := hf s t.modules t.asked
    rw [← hst] at same
    rw [outcome_get, outcome_get, same]
    exact ih s hin hin hs ht hst
  | read _ _ ih => exact ih env henv hin hs ht hst
  | @ask name hown =>
    refine ⟨?_, moduleTable?_like name env t, moduleTable?_faithful ht ?_⟩
    · rw [moduleTable?_value hs, moduleTable?_value ht]
    · rw [henv]
      exact hown

theorem Query.stable {env : Env} {p : Check α} (h : Query env.head p) {s t : CheckState}
    (hs : s.Faithful env) (ht : t.Faithful env) (hst : s.Like t) :
    (p.outcome env t).1 = (p.outcome env s).1 ∧ t.Like (p.outcome env t).2 ∧
      (p.outcome env t).2.Faithful env :=
  h.stableIn rfl hs.admits hs ht hst

/-! ## What is remembered -/

theorem Query.modules {p : Check α} (h : Query head p) {env : Env} (henv : env.head = head.shown)
    {s : CheckState} (hin : head.Admits s.wholeImports) (hs : s.Faithful env) :
    s.modules <:+ (p.outcome env s).2.modules := by
  induction h generalizing s with
  | pure a => exact List.suffix_rfl
  | @bind _ _ p f hp _ ihp ihf =>
    obtain ⟨-, hlike, hf⟩ := hp.stableIn henv hin hs hs (CheckState.Like.refl s)
    exact (ihp hin hs).trans (ihf _ (hlike.wholeImports.symm ▸ hin) hf)
  | get _ _ ih => exact ih s hin hin hs
  | read _ _ ih => exact ih env henv hin hs
  | @ask name _ => exact (moduleTable?_modules name env s).1

/-- Whatever is remembered is the answer of the resolver and stays remembered, and nothing is
imported whole that the head of the module does not admit. -/
theorem ByName.faithfulIn {p : Check α} (h : ByName head p) {env : Env}
    (henv : env.head = head.shown) {s : CheckState} (hin : head.Admits s.wholeImports)
    (hs : s.Faithful env) :
    (p.outcome env s).2.Faithful env ∧ s.modules <:+ (p.outcome env s).2.modules ∧
      head.Admits (p.outcome env s).2.wholeImports := by
  induction h generalizing env s with
  | query hq =>
    obtain ⟨-, hlike, hf⟩ := hq.stableIn henv hin hs hs (CheckState.Like.refl s)
    exact ⟨hf, hq.modules henv hin hs, hlike.wholeImports.symm ▸ hin⟩
  | bind _ _ ihp ihf =>
    obtain ⟨hp, hmodules, hin'⟩ := ihp henv hin hs
    obtain ⟨hf, hmodules', hin''⟩ := ihf _ henv hin' hp
    exact ⟨hf, hmodules.trans hmodules', hin''⟩
  | get _ _ ih => exact ih s henv hin hs
  | modify f hf himports =>
    have hkept := himports s hin
    rw [outcome_modify]
    rw [hf s s.modules s.asked] at hkept ⊢
    refine ⟨⟨hs.answers, hs.asked, hs.distinct, ?_, hs.own⟩, List.suffix_rfl, hkept⟩
    rw [henv]
    exact hkept.1
  | read _ _ ih => exact ih env henv henv hin hs
  | withReader f hf hhead _ ih =>
    have same : (f env).resolver? = env.resolver? := congrArg (·.resolver?) (hf env env.resolver?)
    obtain ⟨hp, hmodules, hin'⟩ :=
      ih ((hhead env).trans henv) hin (hs.of_resolver same (hhead env))
    exact ⟨hp.of_resolver same.symm (hhead env).symm, hmodules, hin'⟩
  | @search _ p bound _ _ ih => exact ih (bound env s) henv hin hs

theorem ByName.faithful {p : Check α} (h : ByName head p) {env : Env} (henv : env.head = head)
    {s : CheckState} (hs : s.Faithful env) :
    (p.outcome env s).2.Faithful env ∧ s.modules <:+ (p.outcome env s).2.modules := by
  subst henv
  obtain ⟨hf, hmodules, -⟩ := h.faithfulIn rfl hs.admits hs
  exact ⟨hf, hmodules⟩

end Check

/-! ## Other resolvers -/

namespace CheckState

/-- The state with a record of what was asked for, if there is a resolver to ask. -/
def askedOf (s : CheckState) (r? : Option Resolver) : CheckState :=
  { s with asked := if r?.isSome then s.modules.map Prod.fst else [] }

/-- A resolver that gives the same answers leads to the same being remembered. -/
theorem Faithful.askedOf {env : Env} {s : CheckState} (hs : s.Faithful env) {r? : Option Resolver}
    (hanswers : ∀ e ∈ s.modules, r?.bind (·.find? e.1) = e.2) :
    (s.askedOf r?).Faithful { env with resolver? := r? } where
  answers := hanswers
  asked := rfl
  distinct := hs.distinct
  imports := hs.imports
  own := hs.own

theorem Faithful.askedOf_eq {env : Env} {s : CheckState} (hs : s.Faithful env)
    {r? : Option Resolver} (hr : r?.isSome = env.resolver?.isSome) : s.askedOf r? = s := by
  unfold CheckState.askedOf
  rw [hr, ← hs.asked]

end CheckState

namespace Check

theorem Query.congr {p : Check α} (h : Query head p) {env : Env} (henv : env.head = head.shown)
    {s : CheckState} (hin : head.Admits s.wholeImports) (hs : s.Faithful env)
    {r? : Option Resolver} (hr : head.alone = false → r?.isSome = env.resolver?.isSome)
    (hanswers : ∀ e ∈ (p.outcome env s).2.modules, r?.bind (·.find? e.1) = e.2) :
    p.outcome { env with resolver? := r? } (s.askedOf r?) =
      ((p.outcome env s).1, (p.outcome env s).2.askedOf r?) := by
  induction h generalizing s with
  | pure a => rfl
  | @bind _ _ p f hp hf ihp ihf =>
    rw [outcome_bind] at hanswers
    obtain ⟨-, hlike, hpf⟩ := hp.stableIn henv hin hs hs (CheckState.Like.refl s)
    have hin' := hlike.wholeImports.symm ▸ hin
    have hmodules := (hf (p.outcome env s).1).modules henv hin' hpf
    rw [outcome_bind, outcome_bind, ihp hin hs fun e he => hanswers e (hmodules.mem he)]
    exact ihf _ hin' hpf hanswers
  | @get _ f _ hf ih =>
    have same : f (s.askedOf r?) = f s := hf s s.modules _
    rw [outcome_get, outcome_get, same]
    exact ih s hin hin hs hanswers
  | @read _ f _ hf ih =>
    rw [outcome_read, outcome_read, hf env r? hr]
    exact ih env henv hin hs hanswers
  | @ask name _ =>
    have hsame : ({ env with resolver? := r? } : Env).answer name = env.answer name := by
      rw [← moduleTable?_value hs name]
      exact hanswers _ (moduleTable?_modules name env s).2
    rw [outcome_moduleTable?, outcome_moduleTable?, hsame]
    show (match List.lookup name s.modules with
      | some answer => (answer, s.askedOf r?)
      | none => _) = _
    cases List.lookup name s.modules with
    | some answer => rfl
    | none =>
      unfold CheckState.askedOf
      cases r?.isSome <;> rfl

/-- A step comes to the same with every resolver that gives the same answers to what it asked
for.  If the module imports nothing, there need be none where there was one. -/
theorem ByName.congr {p : Check α} (h : ByName head p) {env : Env} (henv : env.head = head.shown)
    {s : CheckState} (hin : head.Admits s.wholeImports) (hs : s.Faithful env)
    {r? : Option Resolver} (hr : head.alone = false → r?.isSome = env.resolver?.isSome)
    (hanswers : ∀ e ∈ (p.outcome env s).2.modules, r?.bind (·.find? e.1) = e.2) :
    p.outcome { env with resolver? := r? } (s.askedOf r?) =
      ((p.outcome env s).1, (p.outcome env s).2.askedOf r?) := by
  induction h generalizing env s with
  | query hq => exact hq.congr henv hin hs hr hanswers
  | @bind _ _ p f hp hf ihp ihf =>
    rw [outcome_bind] at hanswers
    obtain ⟨hpf, -, hin'⟩ := hp.faithfulIn henv hin hs
    have hmodules := ((hf (p.outcome env s).1).faithfulIn henv hin' hpf).2.1
    rw [outcome_bind, outcome_bind, ihp henv hin hs hr fun e he => hanswers e (hmodules.mem he)]
    exact ihf _ henv hin' hpf hr hanswers
  | @get _ f _ hf ih =>
    have same : f (s.askedOf r?) = f s := hf s s.modules _
    rw [outcome_get, outcome_get, same]
    exact ih s henv hin hs hr hanswers
  | modify f hf _ =>
    have same : f s = { f s with modules := s.modules, asked := s.asked } := hf s s.modules s.asked
    have asked : f (s.askedOf r?) = { f s with
        modules := s.modules
        asked := if r?.isSome then s.modules.map Prod.fst else [] } := hf s s.modules _
    rw [outcome_modify, outcome_modify, asked]
    show _ = ((), (f s).askedOf r?)
    rw [same]
    rfl
  | @read _ f _ hf ih =>
    rw [outcome_read, outcome_read, hf env r? hr]
    exact ih env henv henv hin hs hr hanswers
  | withReader f hf hhead _ ih =>
    have same : (f env).resolver? = env.resolver? := congrArg (·.resolver?) (hf env env.resolver?)
    rw [outcome_withReader, outcome_withReader, hf env r?]
    exact ih ((hhead env).trans henv) hin (hs.of_resolver same (hhead env))
      (fun halone => (hr halone).trans (congrArg Option.isSome same.symm)) hanswers
  | @search _ p bound hp hbound ih =>
    let env' := { env with resolver? := r? }
    let s' := s.askedOf r?
    let n := max (bound env s) (bound env' s')
    have hdeep : (p n).outcome env s = (p (bound env s)).outcome env s :=
      hbound env s n henv hs (Nat.le_max_left ..)
    have hs' : s'.Faithful env' := by
      refine hs.askedOf fun e he => hanswers e ?_
      exact ((hp (bound env s)).faithfulIn henv hin hs).2.1.mem he
    have hsame : (p n).outcome env' s' =
        (((p n).outcome env s).1, ((p n).outcome env s).2.askedOf r?) := by
      refine ih n henv hin hs hr ?_
      rw [hdeep]
      exact hanswers
    have hdeep' : (p n).outcome env' s' = (p (bound env' s')).outcome env' s' :=
      hbound env' s' n henv hs' (Nat.le_max_right ..)
    calc (p (bound env' s')).outcome env' s' = (p n).outcome env' s' := hdeep'.symm
      _ = (((p n).outcome env s).1, ((p n).outcome env s).2.askedOf r?) := hsame
      _ = _ := by rw [hdeep]; rfl

end Check

end SimFront
