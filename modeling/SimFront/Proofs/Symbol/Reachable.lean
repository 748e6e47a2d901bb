import SimFront.Proofs.Symbol.Grafted

/-!
# The tables that can be built, and what a declaration changes for lookups

A table is built from a new one by entering and leaving scopes, declaring, recording uses,
whichever they are, and changing symbols that keep their names and scopes (`Reachable`).  The
current scope only ever moves to a new child or to its parent, so scopes are numbered in the
order in which a walk of the tree from the top meets them (`Preordered`).

A declaration in a scope is what its name means there and in every scope below from which
no nearer declaration of the name is seen (`Sees`).  It changes no other lookup, and a
declaration that is refused changes none (`lookupFrom?_after_defineIn`).
-/

namespace SimFront.SymbolTable

variable {t t' : SymbolTable} {scope i c p : Nat} {symbol : Symbol}

/-! ## Building -/

/-- A table can be built from a new one. -/
inductive Reachable : SymbolTable → Prop
  | new (moduleName : String) (span : Span) : Reachable (new moduleName span)
  | enter {t : SymbolTable} (h : Reachable t) (kind : ScopeKind) (span : Span) :
    Reachable (t.enter kind span)
  | leave {t : SymbolTable} (h : Reachable t) : Reachable t.leave
  | defineIn {t t' : SymbolTable} {scope id : Nat} {symbol : Symbol} (h : Reachable t)
    (hscope : scope < t.scopes.size) (hdefine : t.defineIn scope symbol = .ok (id, t')) :
    Reachable t'
  | references {t : SymbolTable} (h : Reachable t) (rs : References) :
    Reachable { t with references := rs }
  | modifySymbol {t : SymbolTable} (h : Reachable t) (id : Nat) {f : Symbol → Symbol}
    (hname : ∀ s, (f s).name = s.name) (hscope : ∀ s, (f s).scope = s.scope) :
    Reachable (t.modifySymbol id f)

theorem Reachable.tryDefineIn (h : t.Reachable) (hscope : scope < t.scopes.size)
    (symbol : Symbol) : (t.tryDefineIn scope symbol).Reachable := by
  unfold SymbolTable.tryDefineIn
  split
  · next hdefine => exact h.defineIn hscope hdefine
  · exact h

theorem Consistent.modifySymbol (h : t.Consistent) (id : Nat) {f : Symbol → Symbol}
    (hname : ∀ s, (f s).name = s.name) (hscope : ∀ s, (f s).scope = s.scope) :
    (t.modifySymbol id f).Consistent := by
  have hsymbol (i : Nat) : (t.modifySymbol id f).symbol? i =
      if id = i then (t.symbol? i).map f else t.symbol? i := Array.getElem?_modify
  refine ⟨h.current, h.id, h.top, h.parent, h.child, fun {i sc} hsc e he => ?_, h.distinct,
    fun {i s} hs => ?_⟩
  · obtain ⟨s, hs, hn, hin⟩ := h.named hsc e he
    rw [hsymbol, hs]
    split
    · exact ⟨f s, rfl, (hname s).trans hn, (hscope s).trans hin⟩
    · exact ⟨s, rfl, hn, hin⟩
  · rw [hsymbol] at hs
    split at hs
    · obtain ⟨old, hold, rfl⟩ := Option.map_eq_some_iff.1 hs
      rw [hname, hscope]
      exact h.listed hold
    · exact h.listed hs

theorem Reachable.consistent (h : t.Reachable) : t.Consistent := by
  induction h with
  | new moduleName span => exact consistent_new moduleName span
  | enter _ kind span ih => exact ih.enter kind span
  | leave _ ih => exact ih.leave
  | defineIn _ hscope hdefine ih => exact ih.defineIn hscope hdefine
  | references _ rs ih => exact ih.of_references rs
  | modifySymbol _ id hname hscope ih => exact ih.modifySymbol id hname hscope

/-- What a client builds by edits can be built. -/
theorem Reachable.edited (h : t.Reachable) {edits : List TableEdit}
    (hallowed : t.AllowsAll edits) : (t.edited edits).Reachable := by
  induction edits generalizing t with
  | nil => exact h
  | cons e rest ih =>
    refine ih ?_ hallowed.2
    cases e with
    | enter kind span => exact h.enter kind span
    | leave => exact h.leave
    | define symbol => exact h.tryDefineIn h.consistent.current symbol
    | defineIn scope symbol => exact h.tryDefineIn hallowed.1 symbol
    | refer symbol span => exact h.references _

/-! ## Parents -/

theorem Consistent.parent?_lt (h : t.Consistent) (hp : t.parent? i = some p) : p < i := by
  obtain ⟨sc, hsc, hparent⟩ := Option.bind_eq_some_iff.1 hp
  exact (h.parent hsc hparent).1

theorem lt_of_parent? (hp : t.parent? i = some p) : i < t.scopes.size := by
  obtain ⟨sc, hsc, -⟩ := Option.bind_eq_some_iff.1 hp
  exact lt_of_scope? hsc

theorem Consistent.mem_children (h : t.Consistent) (hp : t.parent? c = some p) :
    c ∈ t.children p := by
  obtain ⟨sc, hsc, hparent⟩ := Option.bind_eq_some_iff.1 hp
  exact List.count_pos_iff.1 (by rw [(h.parent hsc hparent).2]; exact Nat.one_pos)

theorem Consistent.parent?_eq_none (h : t.Consistent) (hi : i < t.scopes.size) :
    t.parent? i = none ↔ i = root := by
  obtain ⟨sc, hsc⟩ := exists_scope? hi
  rw [← h.top hsc, parent?, hsc]
  rfl

theorem parent?_root (h : t.Consistent) : t.parent? root = none := by
  cases hp : t.parent? root with
  | none => rfl
  | some p => exact absurd (h.parent?_lt hp) (Nat.not_lt_zero p)

/-- The scopes around a scope are its parent and those around that one. -/
theorem Consistent.enclosing_of_parent (h : t.Consistent) (hp : t.parent? i = some p) :
    t.enclosing i = i :: t.enclosing p := by
  rw [enclosing_eq, hp]
  exact congrArg (i :: ·) (if_pos (h.parent?_lt hp))

theorem enclosing_of_top (hp : t.parent? i = none) : t.enclosing i = [i] := by
  rw [enclosing_eq, hp]

theorem Consistent.mem_enclosing_iff (h : t.Consistent) (hp : t.parent? i = some p) {a : Nat} :
    a ∈ t.enclosing i ↔ a = i ∨ a ∈ t.enclosing p := by
  rw [h.enclosing_of_parent hp, List.mem_cons]

/-! ## The order of numbers -/

/-- Scopes are numbered as a walk of their tree from the top meets them. -/
structure Preordered (t : SymbolTable) : Prop where
  /-- The children of a scope have it around them. -/
  parent : ∀ {p c}, c ∈ t.children p → t.parent? c = some p
  /-- Children are listed in the order in which they were opened. -/
  sorted : ∀ p, (t.children p).Pairwise (· < ·)
  /-- What was opened after a scope that is still open lies within it. -/
  inside : ∀ a ∈ t.enclosing t.current, ∀ j, a ≤ j → j < t.scopes.size → a ∈ t.enclosing j
  /-- What was opened after a scope and before one of its children lies within it. -/
  before : ∀ {p c}, t.parent? c = some p → ∀ j, p ≤ j → j < c → p ∈ t.enclosing j

/-- The order is read off how scopes hang and which one is current. -/
theorem Preordered.of_scopes (h : t.Preordered) (hparent : ∀ i, t'.parent? i = t.parent? i)
    (hchildren : ∀ i, t'.children i = t.children i) (hsize : t'.scopes.size = t.scopes.size)
    (hpath : ∀ a ∈ t.enclosing t'.current, a ∈ t.enclosing t.current) : t'.Preordered := by
  have henclosing (i : Nat) : t'.enclosing i = t.enclosing i :=
    enclosing_congr fun j _ => hparent j
  refine ⟨fun {p c} hc => ?_, fun p => ?_, fun a ha j hle hj => ?_, fun {p c} hp j hle hj => ?_⟩
  · rw [hparent]
    exact h.parent (hchildren p ▸ hc)
  · rw [hchildren]
    exact h.sorted p
  · rw [henclosing] at ha ⊢
    exact h.inside a (hpath a ha) j hle (hsize ▸ hj)
  · rw [henclosing]
    exact h.before (hparent c ▸ hp) j hle hj

theorem preordered_new (moduleName : String) (span : Span) :
    (new moduleName span).Preordered := by
  have hparent (i : Nat) : (new moduleName span).parent? i = none := by
    cases i <;> rfl
  have hchildren (i : Nat) : (new moduleName span).children i = [] := by
    cases i <;> rfl
  refine ⟨fun {p c} hc => ?_, fun p => ?_, fun a ha j _ hj => ?_, fun {p c} hp => ?_⟩
  · rw [hchildren] at hc
    cases hc
  · rw [hchildren]
    exact .nil
  · have hj : j = root := Nat.lt_one_iff.1 hj
    exact hj ▸ ha
  · rw [hparent] at hp
    cases hp

theorem Consistent.children_enter (h : t.Consistent) (kind : ScopeKind) (span : Span) (p : Nat) :
    (t.enter kind span).children p =
      if p = t.current then t.children p ++ [t.scopes.size] else t.children p := by
  by_cases hp : p < t.scopes.size
  · exact SymbolTable.children_enter hp
  · have hne : p ≠ t.current := fun heq => hp (heq ▸ h.current)
    have hnone : t.scope? p = none := Array.getElem?_eq_none (Nat.le_of_not_lt hp)
    unfold children
    rw [if_neg hne, scope?_enter_eq, hnone]
    by_cases hsize : p = t.scopes.size <;> simp [hsize]

theorem Preordered.enter (h : t.Preordered) (ht : t.Consistent) (kind : ScopeKind)
    (span : Span) : (t.enter kind span).Preordered := by
  have henter := ht.enter kind span
  have hold {i : Nat} (hi : i < t.scopes.size) :
      (t.enter kind span).enclosing i = t.enclosing i :=
    (t.extends_enter kind span).enclosing hi
  have hnew : (t.enter kind span).enclosing t.scopes.size =
      t.scopes.size :: t.enclosing t.current := by
    rw [henter.enclosing_of_parent (p := t.current) (by rw [parent?_enter, if_pos rfl]),
      hold ht.current]
  have hsize := t.size_enter kind span
  refine ⟨fun {p c} hc => ?_, fun p => ?_, fun a ha j hle hj => ?_, fun {p c} hp j hle hj => ?_⟩
  · rw [ht.children_enter] at hc
    rw [parent?_enter]
    have hkept (hc : c ∈ t.children p) :
        (if c = t.scopes.size then some t.current else t.parent? c) = some p := by
      have hparent := h.parent hc
      rw [if_neg (Nat.ne_of_lt (lt_of_parent? hparent)), hparent]
    split at hc
    · next hp =>
      rcases List.mem_append.1 hc with hc | hc
      · exact hkept hc
      · rw [if_pos (List.mem_singleton.1 hc), hp]
    · exact hkept hc
  · rw [ht.children_enter]
    split
    · refine List.pairwise_append.2 ⟨h.sorted p, List.pairwise_singleton _ _, ?_⟩
      intro a ha b hb
      rw [List.mem_singleton.1 hb]
      exact lt_of_parent? (h.parent ha)
    · exact h.sorted p
  · have ha : a ∈ t.scopes.size :: t.enclosing t.current := hnew ▸ ha
    rw [hsize] at hj
    by_cases hlast : j = t.scopes.size
    · rw [hlast, hnew]
      exact ha
    · have hj : j < t.scopes.size := by omega
      rcases List.mem_cons.1 ha with rfl | ha
      · omega
      · rw [hold hj]
        exact h.inside a ha j hle hj
  · rw [parent?_enter] at hp
    split at hp
    · next hc =>
      cases hp
      have hj : j < t.scopes.size := by omega
      rw [hold hj]
      exact h.inside _ (t.self_mem_enclosing _) j hle hj
    · have hc := lt_of_parent? hp
      rw [hold (by omega)]
      exact h.before hp j hle hj

theorem Preordered.leave (h : t.Preordered) (ht : t.Consistent) : t.leave.Preordered := by
  cases hp : t.parent? t.current with
  | none =>
    have hleave : t.leave = t := by
      unfold SymbolTable.leave
      rw [show (t.scope? t.current).bind (·.parent?) = none from hp]
    rw [hleave]
    exact h
  | some p =>
    rw [leave_of_parent? hp]
    have hpath (a : Nat) : a ∈ t.enclosing t.current ↔ a = t.current ∨ a ∈ t.enclosing p :=
      ht.mem_enclosing_iff hp
    exact h.of_scopes (fun _ => rfl) (fun _ => rfl) rfl fun a ha => (hpath a).2 (.inr ha)

theorem parent?_defineIn {id : Nat} (h : t.defineIn scope symbol = .ok (id, t')) (i : Nat) :
    t'.parent? i = t.parent? i := by
  obtain ⟨-, -, rfl⟩ | ⟨_, -, -, -, -, -, rfl⟩ := defineIn_cases h
  · exact parent?_append t scope symbol i
  · rfl

theorem Preordered.defineIn {id : Nat} (h : t.Preordered)
    (hdefine : t.defineIn scope symbol = .ok (id, t')) : t'.Preordered := by
  refine h.of_scopes (parent?_defineIn hdefine) (children_defineIn hdefine)
    (size_scopes_defineIn hdefine) fun a ha => ?_
  rw [current_defineIn hdefine] at ha
  exact ha

/-- In every table scopes are numbered in the order of a walk from the top. -/
theorem Reachable.preordered (h : t.Reachable) : t.Preordered := by
  induction h with
  | new moduleName span => exact preordered_new moduleName span
  | enter h kind span ih => exact ih.enter h.consistent kind span
  | leave h ih => exact ih.leave h.consistent
  | defineIn _ _ hdefine ih => exact ih.defineIn hdefine
  | @references t _ rs ih =>
    exact ih.of_scopes (fun _ => rfl) (fun _ => rfl) rfl fun _ ha => ha
  | @modifySymbol t _ id _ _ _ ih =>
    exact ih.of_scopes (fun _ => rfl) (fun _ => rfl) rfl fun _ ha => ha

end SimFront.SymbolTable

namespace SimFront.SymbolTable

variable {t t' : SymbolTable} {outer scope i id : Nat} {name : String} {symbol : Symbol}

/-! ## Ways outwards -/

/-- The scopes on the way from a scope up to `outer`, which is not among them. -/
inductive Way (t : SymbolTable) (outer : Nat) : Nat → List Nat → Prop
  | here : Way t outer outer []
  | up {i p : Nat} {below : List Nat} (hp : t.parent? i = some p) (h : Way t outer p below) :
    Way t outer i (i :: below)

/-- From scope `i` one comes to `outer` with no declaration of the name on the way. -/
def Sees (t : SymbolTable) (outer : Nat) (name : String) (i : Nat) : Prop :=
  ∃ below, t.Way outer i below ∧ ∀ j ∈ below, t.declared? j name = none

theorem sees_self (t : SymbolTable) (outer : Nat) (name : String) : t.Sees outer name outer :=
  ⟨[], .here, fun _ hj => nomatch hj⟩

/-- Another scope sees what its parent sees, if it does not declare the name itself. -/
theorem sees_iff (hi : i ≠ outer) : t.Sees outer name i ↔
    t.declared? i name = none ∧ ∃ p, t.parent? i = some p ∧ t.Sees outer name p := by
  constructor
  · rintro ⟨below, hway, hfree⟩
    cases hway with
    | here => exact absurd rfl hi
    | @up _ p below hp hway =>
      exact ⟨hfree i List.mem_cons_self, p, hp, below, hway,
        fun j hj => hfree j (List.mem_cons_of_mem i hj)⟩
  · rintro ⟨hfree, p, hp, below, hway, hbelow⟩
    refine ⟨i :: below, .up hp hway, fun j hj => ?_⟩
    rcases List.mem_cons.1 hj with rfl | hj
    · exact hfree
    · exact hbelow j hj

/-! ## Lookups scope by scope -/

/-- A name means what its scope declares, or else what it means in the parent. -/
theorem Consistent.lookupFrom?_eq (h : t.Consistent) (i : Nat) (name : String) :
    t.lookupFrom? i name =
      (t.declared? i name).or ((t.parent? i).bind (t.lookupFrom? · name)) := by
  unfold lookupFrom?
  cases hp : t.parent? i with
  | none =>
    rw [enclosing_of_top hp, List.findSome?_cons]
    cases t.declared? i name <;> rfl
  | some p =>
    rw [h.enclosing_of_parent hp, List.findSome?_cons]
    cases t.declared? i name <;> rfl

/-- A declaration is found from where it is seen, and from elsewhere what was found before. -/
theorem lookupFrom?_defineIn (h : t.Consistent) (hscope : scope < t.scopes.size)
    (hdefine : t.defineIn scope symbol = .ok (id, t')) (i : Nat) (name : String) :
    (name = symbol.name ∧ t.Sees scope name i → t'.lookupFrom? i name = some id) ∧
      (¬ (name = symbol.name ∧ t.Sees scope name i) →
        t'.lookupFrom? i name = t.lookupFrom? i name) := by
  have h' : t'.Consistent := h.defineIn hscope hdefine
  -- upwards along the parents, which are older
  induction i using Nat.strongRecOn with
  | ind i ih =>
    rw [h'.lookupFrom?_eq, h.lookupFrom?_eq, parent?_defineIn hdefine]
    by_cases hi : i = scope
    · subst hi
      rw [declared?_defineIn hdefine hscope]
      by_cases hname : symbol.name = name
      · rw [if_pos hname]
        exact ⟨fun _ => rfl, fun hno => (hno ⟨hname.symm, t.sees_self i name⟩).elim⟩
      · rw [if_neg hname]
        refine ⟨fun hyes => absurd hyes.1.symm hname, fun _ => ?_⟩
        cases hp : t.parent? i with
        | none => rfl
        | some p =>
          have hsame := (ih p (h.parent?_lt hp)).2 fun hyes => hname hyes.1.symm
          rw [Option.bind_some, Option.bind_some, hsame]
    · rw [declared?_defineIn_of_ne hdefine hi, sees_iff hi]
      cases hd : t.declared? i name with
      | some other => exact ⟨fun hyes => (nomatch hyes.2.1), fun _ => rfl⟩
      | none =>
        rw [Option.none_or, Option.none_or]
        cases hp : t.parent? i with
        | none =>
          refine ⟨fun hyes => ?_, fun _ => rfl⟩
          obtain ⟨p, hp', -⟩ := hyes.2.2
          cases hp'
        | some p =>
          obtain ⟨hfound, hsame⟩ := ih p (h.parent?_lt hp)
          rw [Option.bind_some, Option.bind_some]
          refine ⟨fun hyes => ?_, fun hno => hsame fun hyes => ?_⟩
          · obtain ⟨hname, -, q, hq, hsees⟩ := hyes
            cases hq
            exact hfound ⟨hname, hsees⟩
          · exact hno ⟨hyes.1, rfl, p, rfl, hyes.2⟩

/-! ## Every declaration -/

/-- A refusal names what has the name in the scope. -/
theorem existing_of_defineIn {d : DuplicateName} (h : t.defineIn scope symbol = .error d) :
    d.name = symbol.name ∧ t.declared? scope symbol.name = some d.existing := by
  unfold defineIn at h
  split at h
  · cases h
  · next existing hexisting =>
    split at h
    · cases h
      exact ⟨rfl, hexisting⟩
    · split at h
      · cases h
      · cases h
        exact ⟨rfl, hexisting⟩

/-- **Shadowing.**  In every table that can be built, a declaration that is refused leaves the
table as it is.  One that is made, be it of a new symbol or in the place of a heading, is
what its name means from its scope and from each scope below that sees it; every other
lookup has the answer that it had. -/
theorem lookupFrom?_after_defineIn (h : t.Reachable) (hscope : scope < t.scopes.size)
    (symbol : Symbol) :
    (∀ d, t.defineIn scope symbol = .error d → t.tryDefineIn scope symbol = t ∧
      d.name = symbol.name ∧ t.declared? scope symbol.name = some d.existing) ∧
    ∀ id t', t.defineIn scope symbol = .ok (id, t') → t.tryDefineIn scope symbol = t' ∧
      (∀ i, t.Sees scope symbol.name i → t'.lookupFrom? i symbol.name = some id) ∧
      ∀ i name, ¬ (name = symbol.name ∧ t.Sees scope name i) →
        t'.lookupFrom? i name = t.lookupFrom? i name := by
  refine ⟨fun d hrefused => ?_, fun id t' hdefine => ?_⟩
  · have hsame : t.tryDefineIn scope symbol = t := by
      unfold tryDefineIn
      rw [hrefused]
    exact ⟨hsame, existing_of_defineIn hrefused⟩
  · have hafter : t.tryDefineIn scope symbol = t' := by
      unfold tryDefineIn
      rw [hdefine]
    have hlookup := lookupFrom?_defineIn h.consistent hscope hdefine
    exact ⟨hafter, fun i hsees => (hlookup i symbol.name).1 ⟨rfl, hsees⟩,
      fun i name => (hlookup i name).2⟩

/-- A heading that a local variable hides in one procedure is completed: an object beside the
procedure sees the completed one, a record within the procedure still the variable. -/
theorem lookupFrom?_after_completion :
    let heading : Symbol := { name := "P", kind := .procedure, span := {}, isForward := true }
    let t := (new "M" {}).edited [.define heading, .enter .procedure {},
      .define { heading with kind := .var }, .enter .record {}, .leave, .leave, .enter .object {}]
    let t' := t.tryDefineIn root { heading with isForward := false }
    t.Reachable ∧ root < t.scopes.size ∧ t'.lookupFrom? 3 "P" = some 0 ∧
      t'.lookupFrom? 2 "P" = some 1 := by
  intro heading t t'
  have ht : t.Reachable := (Reachable.new "M" {}).edited (by decide)
  have hroot : root < t.scopes.size := by decide
  have hparent : t.parent? 2 = some 1 := by decide
  have hold : t.lookupFrom? 2 "P" = some 1 := by
    have hrecord : t.declared? 2 "P" = none := by decide
    have hprocedure : t.declared? 1 "P" = some 1 := by decide
    rw [ht.consistent.lookupFrom?_eq, hrecord, hparent, Option.none_or, Option.bind_some,
      ht.consistent.lookupFrom?_eq, hprocedure, Option.some_or]
  have hsees : t.Sees root "P" 3 := ⟨[3], .up (by decide) .here, by decide⟩
  have hhidden : ¬ t.Sees root "P" 2 := by
    intro hsees
    obtain ⟨-, p, hp, hsees⟩ := (sees_iff (by decide)).1 hsees
    rw [hparent] at hp
    cases hp
    exact absurd ((sees_iff (by decide)).1 hsees).1 (by decide)
  obtain ⟨-, hmade⟩ := lookupFrom?_after_defineIn ht hroot { heading with isForward := false }
  have hid : (t.defineIn root { heading with isForward := false }).toOption.map (·.1) = some 0 := by
    decide
  cases hdefine : t.defineIn root { heading with isForward := false } with
  | error d =>
    rw [hdefine] at hid
    cases hid
  | ok result =>
    obtain ⟨id, u⟩ := result
    rw [hdefine] at hid
    cases hid
    obtain ⟨hafter, hfound, hsame⟩ := hmade 0 u hdefine
    refine ⟨ht, hroot, ?_, ?_⟩
    · rw [show t' = u from hafter]
      exact hfound 3 hsees
    · rw [show t' = u from hafter, hsame 2 "P" fun hyes => hhidden hyes.2]
      exact hold

end SimFront.SymbolTable
