import SimFront.Proofs.Check.Recast

/-!
# What names mean is seen alike

From when the declarations of a module are in its table, an analysis only records uses and makes
reports.  What a name means and what an object inherits hang on neither: in states that agree up
to that (`CheckState.Agrees`) they are seen alike (`SeesNames`).  So what is found while the
analysis goes on is what is found in the end.
-/

namespace SimFront

/-- The same is declared, imported whole and noted in two states. -/
structure CheckState.Agrees (s t : CheckState) : Prop where
  table : ∃ rs, t.table = { s.table with references := rs }
  wholeImports : t.wholeImports = s.wholeImports
  objectDecls : t.objectDecls = s.objectDecls

namespace CheckState.Agrees

variable {s t u : CheckState}

theorem refl (s : CheckState) : s.Agrees s := ⟨⟨_, rfl⟩, rfl, rfl⟩

theorem symm (h : s.Agrees t) : t.Agrees s where
  table := by
    obtain ⟨rs, hrs⟩ := h.table
    exact ⟨s.table.references, by rw [hrs]⟩
  wholeImports := h.wholeImports.symm
  objectDecls := h.objectDecls.symm

theorem trans (h : s.Agrees t) (h' : t.Agrees u) : s.Agrees u where
  table := by
    obtain ⟨rs, hrs⟩ := h.table
    obtain ⟨rs', hrs'⟩ := h'.table
    exact ⟨rs', by rw [hrs', hrs]⟩
  wholeImports := h'.wholeImports.trans h.wholeImports
  objectDecls := h'.objectDecls.trans h.objectDecls

theorem of_like (h : s.Like t) : s.Agrees t := by
  unfold Like at h
  rw [h]
  exact ⟨⟨_, rfl⟩, rfl, rfl⟩

theorem of_touched {place : Span → Prop} (h : s.Touched place t) : s.Agrees t where
  table := by
    obtain ⟨rs, hrs, -⟩ := h.table
    exact ⟨rs, hrs⟩
  wholeImports := h.wholeImports
  objectDecls := h.objectDecls

end CheckState.Agrees

namespace Check

open CheckState (Agrees)

variable {α β : Type} {env : Env}

/-- States that agree give the query the same value. -/
def SeesNames (env : Env) (p : Check α) : Prop :=
  ∀ s t, s.Faithful env → t.Faithful env → s.Agrees t → (p.outcome env t).1 = (p.outcome env s).1

/-! ## Rules -/

section Rules

variable {p : Check α}

theorem SeesNames.pure (a : α) : SeesNames env (pure a : Check α) := fun _ _ _ _ _ => rfl

theorem SeesNames.bind {f : α → Check β} (hp : Query env.head p) (h : SeesNames env p)
    (hf : ∀ a, SeesNames env (f a)) : SeesNames env (p >>= f) := by
  intro s t hs ht hst
  obtain ⟨-, hlike, hs'⟩ := hp.stable hs hs (CheckState.Like.refl s)
  obtain ⟨-, hlike', ht'⟩ := hp.stable ht ht (CheckState.Like.refl t)
  rw [outcome_bind, outcome_bind, h s t hs ht hst]
  exact hf _ _ _ hs' ht' ((Agrees.of_like hlike).symm.trans (hst.trans (.of_like hlike')))

theorem SeesNames.read {f : Env → Check α} (h : SeesNames env (f env)) :
    SeesNames env (MonadReader.read >>= f) := h

theorem SeesNames.get {f : CheckState → Check α} (hf : ∀ s, s.Faithful env → SeesNames env (f s))
    (hsame : ∀ s t, s.Agrees t → f t = f s) : SeesNames env (MonadState.get >>= f) := by
  intro s t hs ht hst
  rw [outcome_get, outcome_get, hsame s t hst]
  exact hf s hs s t hs ht hst

/-- Uses that were recorded are not looked at. -/
theorem SeesNames.table {f : SymbolTable → Check α} (hf : ∀ t, SeesNames env (f t))
    (hsame : ∀ t rs, f { t with references := rs } = f t) :
    SeesNames env (Check.table >>= f) :=
  SeesNames.get (f := fun s => f s.table) (fun s _ => hf s.table) fun s t hst => by
    obtain ⟨rs, hrs⟩ := hst.table
    rw [hrs, hsame]

theorem SeesNames.ask (name : String) : SeesNames env (moduleTable? name) := fun s t hs ht _ => by
  rw [moduleTable?_value hs, moduleTable?_value ht]

end Rules

/-! ## Names -/

theorem currentScope_sees : SeesNames env currentScope := .table (fun _ => .pure _) fun _ _ => rfl

theorem symbol?_sees (id : Nat) : SeesNames env (symbol? id) :=
  .table (fun _ => .pure _) fun _ _ => rfl

theorem definitionTable?_sees : SeesNames env definitionTable? := by
  refine .read ?_
  split
  · exact .ask _
  · exact .pure none

theorem hasUnresolvedSource_sees : SeesNames env hasUnresolvedSource := by
  rw [hasUnresolvedSource_eq]
  refine .bind lacksDefinition_query (.read ?_) fun lacking => .get (fun s _ => .read (.pure _))
    fun s t hst => by rw [hst.wholeImports]
  split
  · exact .bind definitionTable?_query definitionTable?_sees fun _ => .pure _
  · exact .pure false

theorem firstImported?_sees (name : String) {ms : List String} (hms : env.head.name ∉ ms) :
    SeesNames env (firstImported? name ms) := by
  induction ms with
  | nil => exact .pure none
  | cons m ms ih =>
    obtain ⟨hm, hms⟩ := not_or.1 (mt List.mem_cons.2 hms)
    refine .bind (.ask fun h => absurd h.symm hm) (.ask m) fun table? => ?_
    split
    · exact .pure _
    · exact ih hms

theorem lookupExternal_sees (name : String) : SeesNames env (lookupExternal name) := by
  refine .read (.bind definitionTable?_query definitionTable?_sees fun table? => ?_)
  split
  · exact .pure _
  · refine .get (fun s hs => ?_) fun s t hst => by rw [hst.wholeImports]
    refine .bind (firstImported?_query name hs.imports) (firstImported?_sees name hs.imports)
      fun found? => ?_
    split
    · exact .pure _
    · refine .bind hasUnresolvedSource_query hasUnresolvedSource_sees fun unresolved => ?_
      split
      · exact .pure _
      · exact .pure _

theorem lookup_sees (module? : Option String) (name : String) (scope : Nat) :
    SeesNames env (lookup module? name scope) := by
  refine .read (.table (fun t => ?_) fun t rs => ?_)
  · cases module? with
    | none =>
      dsimp only
      split
      · exact .pure _
      · exact lookupExternal_sees name
    | some m =>
      dsimp only
      split
      · split
        · exact .pure _
        · split
          · exact .bind definitionTable?_query definitionTable?_sees fun _ => .pure _
          · exact .pure _
      · next hm => exact .bind (.ask fun h => absurd h hm) (.ask m) fun _ => .pure _
  · have hlookup (i : Nat) (x : String) :
        SymbolTable.lookupFrom? { t with references := rs } i x = t.lookupFrom? i x := by
      apply SymbolTable.lookupFrom?_of_scopes
      rfl
    simp only [hlookup]

theorem bindingSymbol?_sees (b : Binding) : SeesNames env (bindingSymbol? b) := by
  cases b with
  | declared id => exact symbol?_sees id
  | external s => exact .pure _
  | builtin => exact .pure _

/-! ## Types -/

theorem declaredType?_sees (module? : Option String) (name : String) (scope : Nat) :
    SeesNames env (declaredType? module? name scope) := by
  refine .bind (lookup_query module? name scope) (lookup_sees module? name scope) fun found => ?_
  cases found with
  | found b =>
    refine .bind (bindingSymbol?_query b) (bindingSymbol?_sees b) fun s? => ?_
    cases s? with
    | none => exact .pure _
    | some s =>
      dsimp only
      split
      · exact .pure _
      · exact .pure _
  | unknowable => exact .pure _
  | missing => exact .pure _

theorem followNames_sees (scope hops : Nat) (t : Ty) :
    SeesNames env (followNames scope hops t) := by
  induction hops generalizing t with
  | zero => exact .pure none
  | succ hops ih =>
    cases t with
    | named module? name =>
      unfold followNames
      split
      · exact .pure _
      · refine .bind (declaredType?_query module? name scope)
          (declaredType?_sees module? name scope) fun t? => ?_
        cases t? with
        | none => exact .pure none
        | some t => exact ih t
    | _ => exact .pure (some _)

theorem resolveNamed_sees (module? : Option String) (name : String) :
    SeesNames env (resolveNamed module? name) :=
  .bind currentScope_query currentScope_sees fun scope => followNames_sees scope maxHops _

/-! ## Objects -/

theorem objectOrigin?_sees (module? : Option String) (name : String) :
    SeesNames env (objectOrigin? module? name) := by
  refine .read ?_
  dsimp only
  split
  · exact .pure _
  · refine .bind currentScope_query currentScope_sees fun scope =>
      .bind (lookup_query module? name scope) (lookup_sees module? name scope) fun found => ?_
    cases found with
    | found b => exact .bind (bindingSymbol?_query b) (bindingSymbol?_sees b) fun _ => .pure _
    | unknowable => exact .pure _
    | missing => exact .pure _

theorem findObject_sees (module? : Option String) (name : String) :
    SeesNames env (findObject module? name) := by
  refine .bind (resolveNamed_query module? name) (resolveNamed_sees module? name) fun t? => ?_
  split
  · exact .bind (objectOrigin?_query module? name) (objectOrigin?_sees module? name)
      fun _ => .pure _
  · exact .pure _

theorem baseObject_sees (base : Ty) : SeesNames env (baseObject base) := by
  cases base with
  | named module? name => exact findObject_sees module? name
  | _ => exact findObject_sees none ""

theorem mapM_sees {f : α → Check β} (hf : ∀ a, Query env.head (f a))
    (h : ∀ a, SeesNames env (f a)) (as : List α) : SeesNames env (as.mapM f) := by
  induction as with
  | nil => exact .pure []
  | cons a as ih =>
    rw [List.mapM_cons]
    exact .bind (hf a) (h a) fun _ => .bind (mapM_query hf as) ih fun _ => .pure _

theorem baseObjects_sees (o : ResolvedObject) : SeesNames env (baseObjects o) :=
  mapM_sees baseObject_query baseObject_sees o.info.bases

theorem memberSymbol?_sees (owner name : String) : SeesNames env (memberSymbol? owner name) := by
  refine .get (fun _ _ => .pure _) fun s t hst => ?_
  obtain ⟨rs, hrs⟩ := hst.table
  rw [hst.objectDecls, hrs]
  rfl

/-! ## Searches -/

theorem firstHit_sees (missing? : Option α)
    {search : ResolvedObject → List String → Check (Option α × List String)}
    (hquery : ∀ o visited, Query env.head (search o visited))
    (h : ∀ o visited, SeesNames env (search o visited)) (os : List (Option ResolvedObject))
    (visited : List String) : SeesNames env (firstHit missing? search os visited) := by
  induction os generalizing visited with
  | nil => exact .pure _
  | cons o? os ih =>
    cases o? with
    | none =>
      cases missing? with
      | none => exact ih visited
      | some hit => exact .pure _
    | some o =>
      refine .bind (hquery o visited) (h o visited) fun found => ?_
      split
      · exact .pure _
      · exact ih _

theorem searchIn_sees (missing? : Option α) (hit? : ResolvedObject → Option α) (depth : Nat)
    (o : ResolvedObject) (visited : List String) :
    SeesNames env (searchIn missing? hit? depth o visited) := by
  induction depth generalizing o visited with
  | zero => exact .pure _
  | succ depth ih =>
    unfold searchIn
    split
    · exact .pure _
    · split
      · exact .pure _
      · exact .bind (baseObjects_query o) (baseObjects_sees o) fun bases =>
          firstHit_sees missing? (searchIn_query missing? hit? depth) ih bases _

theorem reaches_sees (key : String) (depth : Nat) (stack : List ResolvedObject)
    (visited : List String) : SeesNames env (reaches key depth stack visited) := by
  fun_induction reaches key depth stack visited with
  | case1 => exact .pure false
  | case2 => exact .pure true
  | case3 _ _ _ _ _ _ ih => exact ih
  | case4 => exact .pure false
  | case5 o stack visited hne hnew depth ih =>
    exact .bind (baseObjects_query o) (baseObjects_sees o) ih

/-- Searches go equally deep. -/
theorem searchDepth_sees (o : ResolvedObject) {f : Nat → Check α}
    (hf : ∀ n, SeesNames env (f n)) : SeesNames env (searchDepth o >>= f) := by
  intro s t hs ht hst
  have hdepth : ((searchDepth o).outcome env t).1 = ((searchDepth o).outcome env s).1 := by
    obtain ⟨rs, hrs⟩ := hst.table
    show 1 + _ + t.table.namedBases.length + _ = _
    rw [hrs]
    rfl
  rw [outcome_bind, outcome_bind, hdepth]
  exact hf _ s t hs ht hst

theorem baseMethod_sees (o : ResolvedObject) (name : String) : SeesNames env (baseMethod o name) :=
  searchDepth_sees o fun n => .bind (baseObjects_query o) (baseObjects_sees o) fun bases =>
    .bind (firstHit_query none (searchIn_query none _ n) bases [o.key])
      (firstHit_sees none (searchIn_query none _ n) (searchIn_sees none _ n) bases [o.key])
      fun _ => .pure _

theorem chainResolved_sees (o : ResolvedObject) : SeesNames env (chainResolved o) :=
  searchDepth_sees o fun n => .bind (searchIn_query (some ()) _ n o [])
    (searchIn_sees (some ()) _ n o []) fun _ => .pure _

theorem inheritsItself_sees (o : ResolvedObject) : SeesNames env (inheritsItself o) :=
  searchDepth_sees o fun n => .bind (baseObjects_query o) (baseObjects_sees o) fun _ =>
    reaches_sees o.key n _ []

theorem mismatch_sees (name : String) (span : Span) (s : Signature) (base : Member)
    (baseSignature : Signature) : SeesNames env (mismatch name span s base baseSignature) := by
  unfold mismatch
  extract_lets _ _ rest
  have reported (declared? : Option Nat) : SeesNames env (rest declared?) := by
    cases declared? with
    | none => exact .bind (.pure _) (.pure _) fun _ => .pure _
    | some id => exact .bind (symbol?_query id) (symbol?_sees id) fun _ => .pure _
  split
  · exact .bind (.pure _) (.pure _) reported
  · exact .bind (memberSymbol?_query _ _) (memberSymbol?_sees _ _) reported

/-! ## Names in bodies -/

/-- What is found on the way may be looked at, for a find touches nothing that is seen. -/
theorem SeesNames.find {p : Check α} {f : α → Check β}
    (hp : Touches (Standing.plain env.head fun _ => False) p) (h : SeesNames env p)
    (hf : ∀ a, SeesNames env (f a)) : SeesNames env (p >>= f) := by
  intro s t hs ht hst
  obtain ⟨htouched, hs', -⟩ := hp env s ⟨rfl, hs⟩
  obtain ⟨htouched', ht', -⟩ := hp env t ⟨rfl, ht⟩
  rw [outcome_bind, outcome_bind, h s t hs ht hst]
  exact hf _ _ _ hs' ht' ((Agrees.of_touched htouched).symm.trans (hst.trans (.of_touched htouched')))

theorem normalize_sees (type : Ty) : SeesNames env (normalize type) := by
  cases type with
  | named module? name =>
    refine .bind (resolveNamed_query module? name) (resolveNamed_sees module? name) fun t? => ?_
    split <;> exact .pure _
  | _ => exact .pure _

theorem assignable_sees (target source : Ty) : SeesNames env (assignable target source) :=
  .bind (normalize_query target) (normalize_sees target) fun _ =>
    .bind (normalize_query source) (normalize_sees source) fun _ => .pure _

theorem valueType_sees (b : Binding) : SeesNames env (valueType b) := by
  refine .bind (bindingSymbol?_query b) (bindingSymbol?_sees b) fun s? => ?_
  split
  · split <;> exact .pure _
  · exact .pure _

theorem memberBinding_sees (m : Member) (use : Span) : SeesNames env (memberBinding m use) := by
  unfold memberBinding
  dsimp only
  split
  · exact .pure _
  · refine .bind (memberSymbol?_query _ _) (memberSymbol?_sees _ _) fun id? => ?_
    split <;> exact .pure _

theorem findMember_sees (o : ResolvedObject) (name : String) : SeesNames env (findMember o name) :=
  searchDepth_sees o fun n => .bind (searchIn_query none _ n o []) (searchIn_sees none _ n o [])
    fun _ => .pure _

theorem objectMemberAt_sees (scope : Nat) (id : Ident) : SeesNames env (objectMemberAt scope id) := by
  refine .table (fun t => ?_) fun _ _ => rfl
  split
  · split
    · refine .read ?_
      split
      · next o _ =>
        refine .find (findMember_touches o id.name)
          (findMember_sees o id.name) fun m? => ?_
        split
        · exact .bind (memberBinding_query _ _) (memberBinding_sees _ _) fun _ => .pure _
        · exact .pure _
      · exact .pure _
    · exact .pure _
  · exact .pure _

theorem nameIn_sees (id : Ident) (scopes : List Nat) : SeesNames env (nameIn id scopes) := by
  induction scopes with
  | nil => exact .pure none
  | cons scope rest ih =>
    refine .table (fun t => ?_) fun _ _ => rfl
    split
    · exact .pure _
    · refine .find (objectMemberAt_touches scope id)
        (objectMemberAt_sees scope id) fun b? => ?_
      split
      · exact .pure _
      · exact ih

theorem suppressUnknown_sees : SeesNames env suppressUnknown := by
  refine .read ?_
  split
  · exact .pure _
  · exact hasUnresolvedSource_sees

end Check

end SimFront
