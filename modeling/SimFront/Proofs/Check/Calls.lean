import SimFront.Proofs.Check.Views
import SimFront.Proofs.Check.Declarations

/-!
# Calls of names that are built in

A call asks only the scopes around whether a built-in name is hidden, whereas the meaning of a name
hangs on the members of the object implementations around as well.  So a call of a member that has
a built-in name is taken for a call of the built-in procedure.  Only there do the two ways of
telling what the callee is differ (`checkCall_meaning`).
-/

namespace SimFront.Check

variable {env : Env} {s : CheckState}

/-! ## Where a name gets its meaning -/

/-- The object whose implementation has the scope. -/
def objectAt? (env : Env) (t : SymbolTable) (scope : Nat) : Option ResolvedObject :=
  if (t.scope? scope).any (·.kind = .object) then
    (env.objects.find? (·.scope = scope)).bind (·.object?)
  else none

/-- The object whose implementation has the scope has a member of the name, be it inherited. -/
def MemberAt (env : Env) (s : CheckState) (name : String) (scope : Nat) : Prop :=
  ∃ o, objectAt? env s.table scope = some o ∧ ((findMember o name).outcome env s).1.isSome

theorem outcome_table {α : Type} (f : SymbolTable → Check α) :
    (table >>= f).outcome env s = (f s.table).outcome env s := rfl

/-- What a step comes to that goes on with what it finds. -/
theorem outcome_find {α β : Type} {p : Check α} {f : α → Check β} (hs : s.Faithful env)
    (hp : Touches (Standing.plain env.head fun _ => False) p)
    (hf : ∀ a, SeesNames env (f a)) :
    ((p >>= f).outcome env s).1 = ((f (p.outcome env s).1).outcome env s).1 := by
  obtain ⟨htouched, hs', -⟩ := hp env s ⟨rfl, hs⟩
  exact hf _ _ _ hs hs' (.of_touched htouched)

theorem objectMemberAt_isSome (hs : s.Faithful env) (scope : Nat) (id : Ident) :
    ((objectMemberAt scope id).outcome env s).1.isSome ↔ MemberAt env s id.name scope := by
  rw [objectMemberAt, outcome_table, MemberAt, objectAt?]
  cases s.table.scope? scope with
  | none => simp
  | some sc =>
    dsimp only
    split
    · next hkind =>
      rw [outcome_read]
      cases (env.objects.find? (·.scope = scope)).bind (·.object?) with
      | none => simp [hkind]
      | some o =>
        dsimp only
        rw [outcome_find hs (findMember_touches o id.name)]
        · cases hfound : ((findMember o id.name).outcome env s).1 with
          | none => simp [hkind, hfound]
          | some m =>
            simp only [hkind, hfound, Option.any_some, decide_true, if_true, Option.some.injEq,
              exists_eq_left', Option.isSome_some, iff_true]
            rfl
        · intro m?
          split
          · exact .bind (memberBinding_query _ _) (memberBinding_sees _ _) fun _ => .pure _
          · exact .pure _
    · next hkind => simp [hkind]

/-- A name gets its meaning in the first scope that declares it or has a member of that name. -/
theorem nameIn_cons (hs : s.Faithful env) (id : Ident) (scope : Nat) (rest : List Nat) :
    ((nameIn id (scope :: rest)).outcome env s).1 =
      ((s.table.declared? scope id.name).map Binding.declared).or
        (((objectMemberAt scope id).outcome env s).1.or ((nameIn id rest).outcome env s).1) := by
  rw [nameIn, outcome_table]
  cases s.table.declared? scope id.name with
  | some symbol => rfl
  | none =>
    dsimp only
    rw [outcome_find hs (objectMemberAt_touches scope id)]
    · cases ((objectMemberAt scope id).outcome env s).1 <;> rfl
    · intro b?
      split
      · exact .pure _
      · exact nameIn_sees id rest

theorem nameIn_isSome (hs : s.Faithful env) (id : Ident) (scopes : List Nat) :
    ((nameIn id scopes).outcome env s).1.isSome ↔
      (scopes.findSome? (s.table.declared? · id.name)).isSome ∨
        ∃ scope ∈ scopes, MemberAt env s id.name scope := by
  induction scopes with
  | nil => simp [nameIn]
  | cons scope rest ih =>
    rw [nameIn_cons hs, List.findSome?_cons, Option.isSome_or, Option.isSome_or, Bool.or_eq_true,
      Bool.or_eq_true, objectMemberAt_isSome hs, ih, List.exists_mem_cons_iff]
    cases s.table.declared? scope id.name <;> simp [or_left_comm]

/-! ## Meanings that are not built in -/

/-- The step comes to a value as `P` says, whatever state it starts from. -/
def Always {α : Type} (P : α → Prop) (p : Check α) : Prop := ∀ env s, P (p.outcome env s).1

section Always

variable {α β : Type} {P : α → Prop} {Q : β → Prop} {p : Check α} {f : α → Check β}

theorem Always.pure {a : α} (h : P a) : Always P (Pure.pure a) := fun _ _ => h

theorem Always.bind (hp : Always P p) (hf : ∀ a, P a → Always Q (f a)) : Always Q (p >>= f) :=
  fun env s => hf _ (hp env s) env _

theorem Always.after (hf : ∀ a, Always Q (f a)) : Always Q (p >>= f) := fun env _ => hf _ env _

theorem Always.ne {a : α} (h : Always (· ≠ a) p) {env : Env} {s : CheckState} :
    (p.outcome env s).1 ≠ a := h env s

end Always

theorem memberBinding_always (m : Member) (use : Span) : Always (· ≠ .builtin) (memberBinding m use) := by
  unfold memberBinding
  dsimp only
  split
  · exact .pure nofun
  · refine .after fun id? => ?_
    cases id? <;> exact .pure nofun

theorem objectMemberAt_always (scope : Nat) (id : Ident) :
    Always (· ≠ some .builtin) (objectMemberAt scope id) := by
  refine .after fun t => ?_
  split
  · split
    · refine .after fun around => ?_
      split
      · refine .after fun m? => ?_
        cases m? with
        | some m =>
          refine .bind (memberBinding_always m id.span) fun b hb => .pure fun h => hb ?_
          exact Option.some.inj h
        | none => exact .pure nofun
      · exact .pure nofun
    · exact .pure nofun
  · exact .pure nofun

theorem nameIn_always (id : Ident) (scopes : List Nat) :
    Always (· ≠ some .builtin) (nameIn id scopes) := by
  induction scopes with
  | nil => exact .pure (by rintro ⟨⟩)
  | cons scope rest ih =>
    refine .after fun t => ?_
    split
    · exact .pure (by rintro ⟨⟩)
    · refine .bind (objectMemberAt_always scope id) fun b? hb => ?_
      cases b? with
      | some b => exact .pure hb
      | none => exact ih

/-- What is found outside the module is a copy. -/
theorem lookupExternal_always (name : String) :
    Always (fun found => ∀ b, found = .found b → ∃ x, b = .external x) (lookupExternal name) := by
  refine .after fun around => .after fun table? => ?_
  split
  · next x _ =>
    refine .pure fun b h => ⟨x, ?_⟩
    cases h
    rfl
  · refine .after fun s => .after fun found? => ?_
    split
    · next x =>
      refine .pure fun b h => ⟨x, ?_⟩
      cases h
      rfl
    · refine .after fun unresolved => ?_
      split
      · exact .pure fun _ h => nomatch h
      · exact .pure fun _ h => nomatch h

theorem resolveName_always (id : Ident) :
    Always (fun b? => b? = some .builtin → isBuiltinName id.name) (resolveName id) := by
  refine .after fun t => .bind (nameIn_always id _) fun b? hb => ?_
  cases b? with
  | some b => exact .pure fun h => absurd h hb
  | none =>
    dsimp only
    split
    · next hbuiltin => exact .pure fun _ => hbuiltin
    · refine .bind (lookupExternal_always id.name) fun found hfound => ?_
      cases found with
      | found b =>
        obtain ⟨x, rfl⟩ := hfound b rfl
        exact .pure nofun
      | unknowable => exact .pure nofun
      | missing =>
        dsimp only
        split
        · exact .pure nofun
        · refine .after fun suppressed => ?_
          split
          · exact .pure nofun
          · exact .after fun _ => .pure nofun

/-- A name has its built-in meaning where no scope around gives it another. -/
theorem resolveName_builtin (env : Env) (s : CheckState) (id : Ident) :
    ((resolveName id).outcome env s).1 = some .builtin ↔ isBuiltinName id.name ∧
      ((nameIn id (s.table.enclosing s.table.current)).outcome env s).1 = none := by
  have hbuiltin := resolveName_always id env s
  have hscoped := nameIn_always id (s.table.enclosing s.table.current) env s
  rw [resolveName, outcome_table, outcome_bind] at hbuiltin ⊢
  cases hb : ((nameIn id (s.table.enclosing s.table.current)).outcome env s).1 with
  | some b =>
    rw [hb] at hscoped
    simpa using hscoped
  | none =>
    rw [hb] at hbuiltin
    refine ⟨fun h => ⟨hbuiltin h, rfl⟩, fun ⟨h, _⟩ => ?_⟩
    rw [if_pos h]
    rfl

/-! ## Calls -/

/-- The call is taken for one of the built-in procedure of the name. -/
def CallsBuiltin (env : Env) (s : CheckState) (f : Ident) : Prop :=
  ((builtinCallee? (.name f)).outcome env s).1 = some f.name

theorem outcome_builtinCallee? (env : Env) (s : CheckState) (f : Ident) :
    (builtinCallee? (.name f)).outcome env s =
      (if isBuiltinName f.name && (s.table.lookupId? f.name).isNone then some f.name else none, s) := by
  rw [builtinCallee?, outcome_table]
  split <;> rfl

theorem callsBuiltin_iff (env : Env) (s : CheckState) (f : Ident) :
    CallsBuiltin env s f ↔ isBuiltinName f.name ∧ s.table.lookupId? f.name = none := by
  rw [CallsBuiltin, outcome_builtinCallee?, ← Option.isNone_iff_eq_none, ← Bool.and_eq_true]
  split
  · next h => simp [h]
  · next h => simp [h]

/-- What reading a name comes to, given its meaning: the use of a declaration is recorded. -/
def readMeaning (id : Ident) : Option Binding → Check Ty
  | none => pure .unknown
  | some b => do
    match b with
    | .declared symbol => noteRead symbol id.span
    | _ => pure ()
    valueType b

theorem readName_eq (id : Ident) : readName id = resolveName id >>= readMeaning id := rfl

/-- A call of a plain name whose meaning is built in is checked as one of the built-in procedure,
and one that is not so checked goes by the declaration or the member that the name means.  But
where an object implementation around has a member of a built-in name that no scope declares,
its own or an inherited one, the call is checked as one of the built-in procedure as well. -/
theorem checkCall_meaning (env : Env) (s : CheckState) (hs : s.Faithful env) (f : Ident)
    (args : List Expr) (span : Span) :
    (((resolveName f).outcome env s).1 = some .builtin ↔ CallsBuiltin env s f ∧
      ∀ scope ∈ s.table.enclosing s.table.current, ¬ MemberAt env s f.name scope) ∧
    (CallsBuiltin env s f → (checkExpr (.call (.name f) args span)).outcome env s =
      (builtinCall f.name (checkEach args)).outcome env s) ∧
    (¬ CallsBuiltin env s f → (checkExpr (.call (.name f) args span)).outcome env s =
      (do callResult (← readMeaning f (← resolveName f)) (checkEach args) span).outcome env s) := by
  refine ⟨?_, fun hbuiltin => ?_, fun hbuiltin => ?_⟩
  · rw [resolveName_builtin, callsBuiltin_iff, ← Option.not_isSome_iff_eq_none, nameIn_isSome hs,
      ← Option.not_isSome_iff_eq_none, not_or, and_assoc, not_exists]
    simp only [not_and]
    rfl
  · rw [CallsBuiltin] at hbuiltin
    rw [checkExpr, checkCall, outcome_bind, hbuiltin, outcome_builtinCallee?]
  · have hnone : ((builtinCallee? (.name f)).outcome env s).1 = none := by
      rw [callsBuiltin_iff, ← Option.isNone_iff_eq_none, ← Bool.and_eq_true] at hbuiltin
      rw [outcome_builtinCallee?]
      exact if_neg hbuiltin
    rw [checkExpr, checkCall, outcome_bind, hnone, outcome_builtinCallee?, checkExpr, readName_eq]
    rfl

/-- An object type with a method HALT. -/
def haltingObject : ResolvedObject := ⟨"O", ⟨[], [], [("HALT", ⟨.ask, ⟨[], none⟩, false⟩)]⟩, none⟩

/-- In the implementation of the object type with a method HALT. -/
def haltingEnv : Env :=
  { resolver? := none, moduleName := "M", moduleKind := .main
    objects := [⟨1, some haltingObject, true⟩] }

def haltingState : CheckState :=
  { table := (SymbolTable.new "M" default).enter .object default }

theorem checkCall_meaning_halt : haltingState.Faithful haltingEnv ∧
    CallsBuiltin haltingEnv haltingState ⟨"HALT", default⟩ ∧
    ((resolveName ⟨"HALT", default⟩).outcome haltingEnv haltingState).1 ≠ some .builtin := by
  have hfaithful : haltingState.Faithful haltingEnv :=
    ⟨nofun, rfl, List.Pairwise.nil, nofun, nofun⟩
  have hcalls : CallsBuiltin haltingEnv haltingState ⟨"HALT", default⟩ :=
    (callsBuiltin_iff _ _ _).2 ⟨by decide +kernel, by decide +kernel⟩
  have hmember : MemberAt haltingEnv haltingState "HALT" 1 :=
    ⟨haltingObject, rfl, by decide +kernel⟩
  refine ⟨hfaithful, hcalls, fun h => ?_⟩
  have hnone := ((checkCall_meaning haltingEnv haltingState hfaithful ⟨"HALT", default⟩ []
    default).1.1 h).2
  exact hnone 1 (by decide +kernel) hmember

end SimFront.Check
