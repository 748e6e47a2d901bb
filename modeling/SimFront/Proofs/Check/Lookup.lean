import SimFront.Proofs.Check.ByName

/-!
# Looking names up

All that finds out what a name means is a query.
-/

namespace SimFront.Check

variable {head : ModuleHead}

theorem table_query : Query head table := .get (fun _ _ => .pure _) fun _ _ _ => rfl

theorem currentScope_query : Query head currentScope := table_query.bind fun _ => .pure _

theorem symbol?_query (id : Nat) : Query head (symbol? id) := table_query.bind fun _ => .pure _

theorem definitionTable?_query : Query head definitionTable? := by
  refine .read (fun env henv => ?_) fun _ _ _ => rfl
  split
  · next hkind => exact .ask fun _ => (congrArg ModuleHead.kind henv).symm.trans hkind
  · exact .pure none

/-- Whether the module is an implementation module whose definition module is unknown. -/
def lacksDefinition : Check Bool := do
  if (← read).moduleKind = .implementation then pure (← definitionTable?).isNone else pure false

theorem hasUnresolvedSource_eq : hasUnresolvedSource = (do
    let lacking ← lacksDefinition
    let s ← get
    let env ← read
    pure (lacking || (env.resolver?.isNone && !s.wholeImports.isEmpty))) := by
  funext env s
  unfold hasUnresolvedSource lacksDefinition
  show outcome _ env s = outcome _ env s
  rw [outcome_read, outcome_bind, outcome_read]
  split <;> rfl

theorem lacksDefinition_query : Query head lacksDefinition := by
  refine .read (fun env henv => ?_) fun _ _ _ => rfl
  split
  · exact definitionTable?_query.bind fun table? => .pure table?.isNone
  · exact .pure false

/-- Whether there is a resolver is looked at only if something is imported whole. -/
theorem hasUnresolvedSource_query : Query head hasUnresolvedSource := by
  rw [hasUnresolvedSource_eq]
  refine lacksDefinition_query.bind fun lacking => .get (fun s hs => ?_) fun _ _ _ => rfl
  refine .read (fun env henv => .pure _) fun env r? hr => ?_
  cases halone : head.alone with
  | false =>
    have hnone : r?.isNone = env.resolver?.isNone := by
      rw [← Option.not_isSome, ← Option.not_isSome, hr halone]
    simp only [hnone]
  | true => simp only [hs.2 halone, List.isEmpty_nil, Bool.not_true, Bool.and_false]

theorem suppressUnknown_query : Query head suppressUnknown := by
  refine .read (fun env henv => ?_) fun _ _ _ => rfl
  split
  · exact .pure true
  · exact hasUnresolvedSource_query

theorem firstImported?_query (name : String) {ms : List String} (hms : head.name ∉ ms) :
    Query head (firstImported? name ms) := by
  induction ms with
  | nil => exact .pure none
  | cons m ms ih =>
    obtain ⟨hm, hms⟩ := not_or.1 (mt List.mem_cons.2 hms)
    refine .bind (.ask fun h => absurd h.symm hm) fun table? => ?_
    split
    · exact .pure _
    · exact ih hms

theorem lookupExternal_query (name : String) : Query head (lookupExternal name) := by
  refine .read (fun env henv => .bind definitionTable?_query fun table? => ?_) fun _ _ _ => rfl
  split
  · exact .pure _
  · refine .get (fun s hs => .bind (firstImported?_query name hs.1) fun found? => ?_) fun _ _ _ => rfl
    split
    · exact .pure _
    · refine hasUnresolvedSource_query.bind fun unresolved => ?_
      split
      · exact .pure _
      · exact .pure _

theorem lookup_query (module? : Option String) (name : String) (scope : Nat) :
    Query head (lookup module? name scope) := by
  refine .read (fun env henv => table_query.bind fun t => ?_) fun _ _ _ => rfl
  cases module? with
  | none =>
    dsimp only
    split
    · exact .pure _
    · exact lookupExternal_query name
  | some m =>
    dsimp only
    split
    · split
      · exact .pure _
      · split
        · exact definitionTable?_query.bind fun _ => .pure _
        · exact .pure _
    · next hm =>
      have hname : env.moduleName = head.name := congrArg ModuleHead.name henv
      exact (Query.ask fun h => absurd (h.trans hname.symm) hm).bind fun _ => .pure _

theorem bindingSymbol?_query (b : Binding) : Query head (bindingSymbol? b) := by
  cases b with
  | declared id => exact symbol?_query id
  | external s => exact .pure _
  | builtin => exact .pure _

theorem valueType_query (b : Binding) : Query head (valueType b) := by
  refine (bindingSymbol?_query b).bind fun s? => ?_
  cases s? with
  | none => exact .pure _
  | some s =>
    dsimp only
    split
    · exact .pure _
    · exact .pure _

theorem isPlaceholder_query (b : Binding) : Query head (isPlaceholder b) := by
  cases b with
  | declared id => exact .get (fun _ _ => .pure _) fun _ _ _ => rfl
  | external s => exact .pure _
  | builtin => exact .pure _

/-! ## Types -/

theorem declaredType?_query (module? : Option String) (name : String) (scope : Nat) :
    Query head (declaredType? module? name scope) := by
  refine (lookup_query module? name scope).bind fun found => ?_
  cases found with
  | found b =>
    refine (bindingSymbol?_query b).bind fun s? => ?_
    cases s? with
    | none => exact .pure _
    | some s =>
      dsimp only
      split
      · exact .pure _
      · exact .pure _
  | unknowable => exact .pure _
  | missing => exact .pure _

theorem followNames_query (scope hops : Nat) (t : Ty) : Query head (followNames scope hops t) := by
  induction hops generalizing t with
  | zero => exact .pure none
  | succ hops ih =>
    cases t with
    | named module? name =>
      unfold followNames
      split
      · exact .pure _
      · refine (declaredType?_query module? name scope).bind fun t? => ?_
        cases t? with
        | none => exact .pure none
        | some t => exact ih t
    | _ => exact .pure (some _)

theorem resolveNamed_query (module? : Option String) (name : String) :
    Query head (resolveNamed module? name) :=
  currentScope_query.bind fun scope => followNames_query scope maxHops _

theorem normalize_query (t : Ty) : Query head (normalize t) := by
  cases t with
  | named module? name =>
    refine (resolveNamed_query module? name).bind fun t? => ?_
    split
    · exact .pure _
    · exact .pure _
    · exact .pure _
    · exact .pure _
  | _ => exact .pure _

theorem assignable_query (target source : Ty) : Query head (assignable target source) :=
  (normalize_query target).bind fun _ => (normalize_query source).bind fun _ => .pure _

/-! ## Objects -/

theorem objectOrigin?_query (module? : Option String) (name : String) :
    Query head (objectOrigin? module? name) := by
  refine .read (fun env henv => ?_) fun _ _ _ => rfl
  dsimp only
  split
  · exact .pure _
  · refine currentScope_query.bind fun scope => (lookup_query module? name scope).bind fun found => ?_
    cases found with
    | found b => exact (bindingSymbol?_query b).bind fun _ => .pure _
    | unknowable => exact .pure _
    | missing => exact .pure _

theorem findObject_query (module? : Option String) (name : String) :
    Query head (findObject module? name) := by
  refine (resolveNamed_query module? name).bind fun t? => ?_
  split
  · exact (objectOrigin?_query module? name).bind fun _ => .pure _
  · exact .pure _

theorem baseObject_query (base : Ty) : Query head (baseObject base) := by
  cases base with
  | named module? name => exact findObject_query module? name
  | _ => exact findObject_query none ""

theorem mapM_query {α β : Type} {f : α → Check β} (hf : ∀ a, Query head (f a)) (as : List α) :
    Query head (as.mapM f) := by
  induction as with
  | nil => exact .pure []
  | cons a as ih =>
    rw [List.mapM_cons]
    exact (hf a).bind fun _ => ih.bind fun _ => .pure _

theorem baseObjects_query (o : ResolvedObject) : Query head (baseObjects o) :=
  mapM_query baseObject_query o.info.bases

theorem memberSymbol?_query (owner name : String) : Query head (memberSymbol? owner name) :=
  .get (fun _ _ => .pure _) fun _ _ _ => rfl

theorem memberBinding_query (m : Member) (use : Span) : Query head (memberBinding m use) := by
  unfold memberBinding
  dsimp only
  split
  · exact .pure _
  · refine (memberSymbol?_query m.owner m.name).bind fun id? => ?_
    cases id? with
    | none => exact .pure _
    | some id => exact .pure _

/-! ## Searches of a given depth -/

theorem firstHit_query {α : Type} (missing? : Option α)
    {search : ResolvedObject → List String → Check (Option α × List String)}
    (hsearch : ∀ o visited, Query head (search o visited)) (os : List (Option ResolvedObject))
    (visited : List String) : Query head (firstHit missing? search os visited) := by
  induction os generalizing visited with
  | nil => exact .pure _
  | cons o? os ih =>
    cases o? with
    | none =>
      cases missing? with
      | none => exact ih visited
      | some hit => exact .pure _
    | some o =>
      refine (hsearch o visited).bind fun found => ?_
      split
      · exact .pure _
      · exact ih _

theorem searchIn_query {α : Type} (missing? : Option α) (hit? : ResolvedObject → Option α)
    (depth : Nat) (o : ResolvedObject) (visited : List String) :
    Query head (searchIn missing? hit? depth o visited) := by
  induction depth generalizing o visited with
  | zero => exact .pure _
  | succ depth ih =>
    unfold searchIn
    split
    · exact .pure _
    · split
      · exact .pure _
      · exact (baseObjects_query o).bind fun bases => firstHit_query missing? ih bases _

theorem reaches_query (key : String) (depth : Nat) (stack : List ResolvedObject)
    (visited : List String) : Query head (reaches key depth stack visited) := by
  fun_induction reaches key depth stack visited with
  | case1 => exact .pure false
  | case2 => exact .pure true
  | case3 _ _ _ _ _ _ ih => exact ih
  | case4 => exact .pure false
  | case5 o stack visited hne hnew depth ih => exact (baseObjects_query o).bind ih

end SimFront.Check
