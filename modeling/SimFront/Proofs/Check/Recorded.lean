import Mathlib.Algebra.Order.Group.Multiset
import SimFront.Proofs.Check.Declarations
import SimFront.Proofs.Symbol.Named
import SimFront.Proofs.Tree.Nested

/-!
# What an analysis records, and where

`CheckState.Recorded U s s'` lists all that can happen to a symbol table between two
states of an analysis: symbols are declared and their types filled in, scopes are opened
and closed, uses are recorded at once or put off, each at a node of the tree.  The nodes
are `U`, and each of them serves once, but for the item that imports an enumeration with
all its values.

`Records head U p` says that every run of the step `p` records at `U`; it follows the
construction of steps, as `ByName` does.  `Finds head Q p` says of a step that it records
nothing, and of its value that it fits the table as `Q` says.
-/

namespace SimFront

namespace CheckState

/-- Nothing was recorded: neither in the table, nor among the type names to check. -/
def Quiet (s s' : CheckState) : Prop := s'.table = s.table ∧ s'.pendingTypes = s.pendingTypes

theorem Quiet.refl (s : CheckState) : s.Quiet s := ⟨rfl, rfl⟩

theorem Quiet.trans {s s' s'' : CheckState} (h : s.Quiet s') (h' : s'.Quiet s'') : s.Quiet s'' :=
  ⟨h'.1.trans h.1, h'.2.trans h.2⟩

theorem Like.quiet {s s' : CheckState} (h : s.Like s') : s.Quiet s' := by
  unfold Like at h
  rw [h]
  exact ⟨rfl, rfl⟩

/-- What is recorded between two states, at nodes of which each serves once. -/
inductive Recorded : Multiset Node → CheckState → CheckState → Prop where
  | quiet {s s' : CheckState} : s.Quiet s' → Recorded 0 s s'
  /-- A type name is put off to the end. -/
  | note (s : CheckState) (p : PendingType) :
      Recorded {.ident ⟨p.name, p.span⟩} s { s with pendingTypes := p :: s.pendingTypes }
  | declare {s : CheckState} {i : Ident} {symbol : Symbol} {id : Nat} {t : SymbolTable} :
      symbol.name = i.name → symbol.span = i.span → s.table.define symbol = .ok (id, t) →
      Recorded {.ident i} s { s with table := t }
  /-- The values of an imported enumeration are declared at the item that imports it. -/
  | value {U : Multiset Node} {s s' : CheckState} {item : ImportItem} {symbol : Symbol} {id : Nat}
      {t : SymbolTable} : Recorded U s s' → .importItem item ∈ U → symbol.isImported →
      symbol.span = item.name.span → s'.table.define symbol = .ok (id, t) →
      Recorded U s { s' with table := t }
  | refer {s : CheckState} {i : Ident} {id : Nat} (scope : Nat) : s.table.Declares i.name id →
      Recorded {.ident i} s { s with table := s.table.referIn scope id i.span }
  | retype (s : CheckState) (id : Nat) (type : Ty) :
      Recorded 0 s { s with table := s.table.modifySymbol id fun symbol => { symbol with type } }
  | scope {U : Multiset Node} {s s' : CheckState} (kind : ScopeKind) (n : Node) :
      (∀ m ∈ U, m ∈ n.preorder) →
      Recorded U { s with table := s.table.enter kind n.span } s' →
      Recorded (n ::ₘ U) s { s' with table := s'.table.leave }
  | seq {U V : Multiset Node} {s s' s'' : CheckState} :
      Recorded U s s' → Recorded V s' s'' → Recorded (U + V) s s''
  | weaken {U V : Multiset Node} {s s' : CheckState} : Recorded U s s' → U ≤ V → Recorded V s s'

namespace Recorded

variable {U : Multiset Node} {s s' s'' : CheckState}

theorem quiet_then (h : s.Quiet s') (h' : Recorded U s' s'') : Recorded U s s'' := by
  rw [← zero_add U]
  exact (Recorded.quiet h).seq h'

theorem then_quiet (h : Recorded U s s') (h' : s'.Quiet s'') : Recorded U s s'' := by
  rw [← add_zero U]
  exact h.seq (.quiet h')

end Recorded

end CheckState

namespace Check

open CheckState (Quiet Recorded)

variable {α β : Type} {head : ModuleHead} {U V : Multiset Node}

/-! ## Steps that record nothing -/

/-- The step records nothing, and its value fits the table. -/
def Finds (head : ModuleHead) (Q : SymbolTable → α → Prop) (p : Check α) : Prop :=
  ∀ env s, env.head = head → s.Faithful env → s.Quiet (p.outcome env s).2 ∧
    (p.outcome env s).2.Faithful env ∧ Q s.table (p.outcome env s).1

/-- The step records nothing. -/
abbrev Still (head : ModuleHead) (p : Check α) : Prop := Finds head (fun _ _ => True) p

section Finds

variable {p : Check α} {Q : SymbolTable → α → Prop} {R : SymbolTable → β → Prop}

theorem Finds.mono {Q' : SymbolTable → α → Prop} (h : Finds head Q p)
    (hQ : ∀ t a, Q t a → Q' t a) : Finds head Q' p := fun env s henv hs =>
  ⟨(h env s henv hs).1, (h env s henv hs).2.1, hQ _ _ (h env s henv hs).2.2⟩

theorem Finds.still (h : Finds head Q p) : Still head p := h.mono fun _ _ _ => trivial

theorem Finds.pure {a : α} (h : ∀ t, Q t a) : Finds head Q (pure a : Check α) :=
  fun _ s _ hs => ⟨.refl s, hs, h _⟩

theorem Finds.nothing (a : α) : Still head (Pure.pure a : Check α) := .pure fun _ => trivial

theorem Finds.bind {f : α → Check β} (hp : Finds head Q p)
    (hf : ∀ a, Finds head (fun t b => Q t a → R t b) (f a)) : Finds head R (p >>= f) := by
  intro env s henv hs
  obtain ⟨hquiet, hfaithful, hQ⟩ := hp env s henv hs
  obtain ⟨hquiet', hfaithful', hR⟩ := hf (p.outcome env s).1 env (p.outcome env s).2 henv hfaithful
  rw [hquiet.1] at hR
  rw [outcome_bind]
  exact ⟨hquiet.trans hquiet', hfaithful', hR hQ⟩

theorem Still.bind {f : α → Check β} (hp : Still head p) (hf : ∀ a, Finds head R (f a)) :
    Finds head R (p >>= f) :=
  Finds.bind hp fun a => (hf a).mono fun _ _ h _ => h

theorem Finds.read {f : Env → Check α} (h : ∀ env, env.head = head → Finds head Q (f env)) :
    Finds head Q (read >>= f) :=
  fun env s henv hs => h env henv env s henv hs

theorem Finds.get {f : CheckState → Check α} (h : ∀ s, head.name ∉ s.wholeImports →
    Finds head (fun t a => t = s.table → Q t a) (f s)) : Finds head Q (get >>= f) := by
  intro env s henv hs
  subst henv
  obtain ⟨hquiet, hfaithful, hQ⟩ := h s hs.imports env s rfl hs
  exact ⟨hquiet, hfaithful, hQ rfl⟩

theorem Still.get {f : CheckState → Check α}
    (h : ∀ s, head.name ∉ s.wholeImports → Still head (f s)) : Still head (MonadState.get >>= f) :=
  Finds.get fun s hs => (h s hs).mono fun _ _ h _ => h

theorem table_finds : Finds head (fun t t' => t' = t) table :=
  fun _ s _ hs => ⟨.refl s, hs, rfl⟩

theorem Query.still (h : Query head p) : Still head p := by
  rintro env s rfl hs
  obtain ⟨-, hlike, hfaithful⟩ := h.stable hs hs (CheckState.Like.refl s)
  exact ⟨hlike.quiet, hfaithful, trivial⟩

/-- A step that knows other modules by name and leaves alone what is recorded. -/
theorem ByName.still (h : ByName head p) (hp : ∀ (env : Env) (s : CheckState), s.Quiet (p.outcome env s).2) :
    Still head p :=
  fun env s henv hs => ⟨hp env s, (h.faithful henv hs).1, trivial⟩

end Finds

/-! ## Steps that record -/

/-- Where the table is as `P` says, the step records at the nodes. -/
def RecordsWhen (head : ModuleHead) (P : SymbolTable → Prop) (U : Multiset Node) (p : Check α) :
    Prop :=
  ∀ env s, env.head = head → s.Faithful env → P s.table →
    Recorded U s (p.outcome env s).2 ∧ (p.outcome env s).2.Faithful env

/-- The step records at the nodes. -/
abbrev Records (head : ModuleHead) (U : Multiset Node) (p : Check α) : Prop :=
  RecordsWhen head (fun _ => True) U p

section Records

variable {p : Check α} {P : SymbolTable → Prop} {Q : SymbolTable → α → Prop}

theorem RecordsWhen.weaken (h : RecordsWhen head P U p) (hle : U ≤ V) : RecordsWhen head P V p :=
  fun env s henv hs hP => ⟨(h env s henv hs hP).1.weaken hle, (h env s henv hs hP).2⟩

theorem RecordsWhen.imp {P' : SymbolTable → Prop} (h : RecordsWhen head P U p)
    (hP : ∀ t, P' t → P t) : RecordsWhen head P' U p :=
  fun env s henv hs h' => h env s henv hs (hP _ h')

/-- What records nothing can be allowed any nodes. -/
theorem Finds.records (h : Finds head Q p) : RecordsWhen head P U p := by
  intro env s henv hs _
  obtain ⟨hquiet, hfaithful, -⟩ := h env s henv hs
  exact ⟨(Recorded.quiet hquiet).weaken (Multiset.zero_le _), hfaithful⟩

theorem RecordsWhen.pure (a : α) : RecordsWhen head P U (pure a : Check α) := (Finds.nothing a).records

theorem RecordsWhen.bind {f : α → Check β} (hp : RecordsWhen head P U p)
    (hf : ∀ a, Records head V (f a)) : RecordsWhen head P (U + V) (p >>= f) := by
  intro env s henv hs hP
  obtain ⟨hrecorded, hfaithful⟩ := hp env s henv hs hP
  obtain ⟨hrecorded', hfaithful'⟩ := hf (p.outcome env s).1 env _ henv hfaithful trivial
  exact ⟨hrecorded.seq hrecorded', hfaithful'⟩

/-- The trees that a step and what follows it record at, one after the other. -/
theorem RecordsWhen.seq {ns ms : List Node} {f : α → Check β}
    (hp : RecordsWhen head P (Node.all ns) p) (hf : ∀ a, Records head (Node.all ms) (f a)) :
    RecordsWhen head P (Node.all (ns ++ ms)) (p >>= f) := by
  rw [Node.all_append]
  exact hp.bind hf

/-- Trees may be left out, and their order plays no part. -/
theorem RecordsWhen.within {ns ms : List Node} (h : RecordsWhen head P (Node.all ns) p)
    (hle : ns.Subperm ms) : RecordsWhen head P (Node.all ms) p := h.weaken (Node.all_le hle)

theorem RecordsWhen.perm {ns ms : List Node} (h : RecordsWhen head P (Node.all ns) p)
    (hperm : ns.Perm ms) : RecordsWhen head P (Node.all ms) p := h.within hperm.subperm

/-- What is recorded below a node is recorded in its tree. -/
theorem RecordsWhen.node {n : Node} (h : RecordsWhen head P (Node.all n.children) p) :
    RecordsWhen head P (Node.all [n]) p := by
  refine h.weaken ?_
  rw [Node.all_singleton]
  exact Multiset.le_cons_self _ _

theorem RecordsWhen.then {f : α → Check β} (hp : RecordsWhen head P U p)
    (hf : ∀ a, Still head (f a)) : RecordsWhen head P U (p >>= f) := by
  rw [← add_zero U]
  exact hp.bind fun a => (hf a).records

/-- What follows a step that finds something can go by what was found. -/
theorem Finds.after {f : α → Check β} (hp : Finds head Q p)
    (hf : ∀ a, RecordsWhen head (fun t => P t ∧ Q t a) U (f a)) :
    RecordsWhen head P U (p >>= f) := by
  intro env s henv hs hP
  obtain ⟨hquiet, hfaithful, hQ⟩ := hp env s henv hs
  obtain ⟨hrecorded, hfaithful'⟩ := hf (p.outcome env s).1 env _ henv hfaithful (by
    rw [hquiet.1]
    exact ⟨hP, hQ⟩)
  exact ⟨.quiet_then hquiet hrecorded, hfaithful'⟩

theorem Still.after {f : α → Check β} (hp : Still head p)
    (hf : ∀ a, RecordsWhen head P U (f a)) : RecordsWhen head P U (p >>= f) :=
  Finds.after hp fun a => (hf a).imp fun _ h => h.1

theorem RecordsWhen.read {f : Env → Check α}
    (h : ∀ env, env.head = head → RecordsWhen head P U (f env)) :
    RecordsWhen head P U (read >>= f) :=
  fun env s henv hs hP => h env henv env s henv hs hP

theorem Records.get {f : CheckState → Check α} (h : ∀ s, Records head U (f s)) :
    Records head U (get >>= f) :=
  fun env s henv hs hP => h s env s henv hs hP

theorem Records.withReader {f : Env → Env} (hf : ∀ env, (f env).resolver? = env.resolver?)
    (hhead : ∀ env, (f env).head = env.head) (h : Records head U p) :
    Records head U (withReader f p : Check α) := by
  intro env s henv hs _
  obtain ⟨hrecorded, hfaithful⟩ :=
    h (f env) s ((hhead env).trans henv) (hs.of_resolver (hf env) (hhead env)) trivial
  exact ⟨hrecorded, hfaithful.of_resolver (hf env).symm (hhead env).symm⟩

/-! ## Repeated steps -/

theorem forM_records {f : α → Check Unit} {view : α → List Node}
    (h : ∀ a, Records head (Node.all (view a)) (f a)) (as : List α) :
    Records head (Node.all (as.flatMap view)) (as.forM f) := by
  induction as with
  | nil => exact .pure _
  | cons a as ih => exact (h a).seq fun _ => ih

theorem forM_map_records {f : α → Check Unit} {view : α → Node}
    (h : ∀ a, Records head (Node.all [view a]) (f a)) (as : List α) :
    Records head (Node.all (as.map view)) (as.forM f) := by
  rw [List.map_eq_flatMap]
  exact forM_records h as

theorem mapM_records {f : α → Check β} {view : α → Node}
    (h : ∀ a, Records head (Node.all [view a]) (f a)) (as : List α) :
    Records head (Node.all (as.map view)) (as.mapM f) := by
  induction as with
  | nil => exact .pure _
  | cons a as ih =>
    rw [List.mapM_cons]
    exact (h a).seq fun _ => ih.then fun _ => .nothing _

theorem optionForM_records {f : α → Check Unit} {view : α → Node}
    (h : ∀ a, Records head (Node.all [view a]) (f a)) (a? : Option α) :
    Records head (Node.all (a?.toList.map view)) (a?.forM f) := by
  cases a? with
  | none => exact .pure _
  | some a => exact h a

/-! ## Single changes -/

theorem referIn_records {i : Ident} {id : Nat} (scope : Nat) :
    RecordsWhen head (·.Declares i.name id) (Node.all [.ident i])
      (modifyTable (·.referIn scope id i.span)) := by
  intro env s henv hs hdeclares
  rw [Node.all_ident]
  exact ⟨.refer scope hdeclares, ((modifyTable_byName _).faithful henv hs).1⟩

theorem refer_records {i : Ident} {id : Nat} :
    RecordsWhen head (·.Declares i.name id) (Node.all [.ident i]) (refer id i.span) :=
  fun env s => referIn_records s.table.current env s

theorem note_records (p : PendingType) : Records head (Node.all [.ident ⟨p.name, p.span⟩])
    (modify fun s => { s with pendingTypes := p :: s.pendingTypes } : Check Unit) := by
  have noted : ByName head
      (modify fun s => { s with pendingTypes := p :: s.pendingTypes } : Check Unit) :=
    .modify _ (fun _ _ _ => rfl) fun _ h => h
  intro env s henv hs _
  rw [Node.all_ident]
  exact ⟨.note s p, (noted.faithful henv hs).1⟩

theorem retype_records (id : Nat) (type : Ty) :
    Records head U (modifyTable (·.modifySymbol id fun s => { s with type })) := by
  intro env s henv hs _
  exact ⟨(Recorded.retype s id type).weaken (Multiset.zero_le _),
    ((modifyTable_byName _).faithful henv hs).1⟩

/-- Either the symbol is declared, or its name is taken and a report is made. -/
theorem define_cases (symbol : Symbol) (env : Env) (s : CheckState) :
    (∃ id t, s.table.define symbol = .ok (id, t) ∧
      ((define symbol).outcome env s).2 = { s with table := t }) ∨
    s.Quiet ((define symbol).outcome env s).2 := by
  unfold define
  rw [outcome_bind]
  cases h : s.table.define symbol with
  | ok defined =>
    obtain ⟨id, t⟩ := defined
    rw [show (table.outcome env s).1.define symbol = .ok (id, t) from h]
    exact .inl ⟨id, t, rfl, rfl⟩
  | error d =>
    rw [show (table.outcome env s).1.define symbol = .error d from h]
    exact .inr ⟨rfl, rfl⟩

/-- A symbol is declared where its name stands. -/
theorem define_records {i : Ident} {symbol : Symbol} (hname : symbol.name = i.name)
    (hspan : symbol.span = i.span) : Records head (Node.all [.ident i]) (define symbol) := by
  intro env s henv hs _
  refine ⟨?_, ((define_byName symbol).faithful henv hs).1⟩
  rw [Node.all_ident]
  obtain ⟨id, t, hdefine, hstate⟩ | hquiet := define_cases symbol env s
  · rw [hstate]
    exact .declare hname hspan hdefine
  · exact (Recorded.quiet hquiet).weaken (Multiset.zero_le _)

/-- A step that runs between the opening of a scope and its closing. -/
theorem RecordsWhen.scoped {kind : ScopeKind} {n : Node} {f : α → Check β} (hp : Records head U p)
    (hU : ∀ m ∈ U, m ∈ n.preorder) (hf : ∀ a, Records head V (f a)) :
    Records head (n ::ₘ U + V) (do
      modifyTable (·.enter kind n.span)
      let a ← p
      modifyTable (·.leave)
      f a) := by
  intro env s henv hs _
  have entered := ((modifyTable_byName (·.enter kind n.span)).faithful henv hs).1
  obtain ⟨hrecorded, hfaithful⟩ := hp env _ henv entered trivial
  have left := ((modifyTable_byName (·.leave)).faithful henv hfaithful).1
  obtain ⟨hrecorded', hfaithful'⟩ := hf _ env _ henv left trivial
  exact ⟨(Recorded.scope kind n hU hrecorded).seq hrecorded', hfaithful'⟩

theorem inScope_records {kind : ScopeKind} {n : Node} (hp : Records head U p)
    (hU : ∀ m ∈ U, m ∈ n.preorder) : Records head (n ::ₘ U) (inScope kind n.span p) := by
  rw [← add_zero (n ::ₘ U)]
  exact hp.scoped hU fun a => .pure a

/-- A node whose span is that of a scope. -/
theorem inScope_node {kind : ScopeKind} {n : Node} (hp : Records head (Node.all n.children) p) :
    Records head (Node.all [n]) (inScope kind n.span p) := by
  have below : ∀ m ∈ Node.all n.children, m ∈ n.preorder := by
    intro m hm
    rw [← Node.mem_all_singleton, Node.all_singleton]
    exact Multiset.mem_cons_of_mem hm
  rw [Node.all_singleton]
  exact inScope_records hp below

end Records

/-! ## Reports -/

theorem report_still (d : Diagnostic) : Still head (report d) :=
  (report_byName d).still fun _ _ => ⟨rfl, rfl⟩

theorem error_still (code : DiagnosticCode) (span : Span) (message : String) :
    Still head (error code span message) := report_still _

theorem warning_still (code : DiagnosticCode) (span : Span) (message : String) :
    Still head (warning code span message) := report_still _

theorem setOutState_still (id : Nat) (f : OutState → OutState) : Still head (setOutState id f) :=
  (setOutState_byName id f).still fun _ _ => ⟨rfl, rfl⟩

end Check

end SimFront
