import SimFront.Proofs.Check.Lookup

/-!
# Searches along the bases of objects

A search visits no key twice, and the objects that it can come to are the one it
starts from and those that stand behind the bases of that object and behind the bases
named in the tables at hand (`InSearch`).  So a search comes to the same end at every
depth that is not below the number of keys not visited yet (`searchIn_deep`), and
`searchDepth` is such a depth.
-/

namespace SimFront.Check

variable {α β : Type}

/-! ## Values of queries -/

/-- All values that a query can come to satisfy a property, however much is remembered. -/
def Gives (env : Env) (s : CheckState) (p : Check α) (Q : α → Prop) : Prop :=
  ∀ t, t.Faithful env → s.Like t → Q (p.outcome env t).1

section Gives

variable {env : Env} {s : CheckState}

theorem Gives.pure {Q : α → Prop} {a : α} (h : Q a) : Gives env s (pure a) Q :=
  fun _ _ _ => h

theorem Gives.bind {p : Check α} {f : α → Check β} {Q : α → Prop} {R : β → Prop}
    (hp : Query env.head p) (h : Gives env s p Q) (hf : ∀ a, Q a → Gives env s (f a) R) :
    Gives env s (p >>= f) R := by
  intro t ht hst
  rw [outcome_bind]
  obtain ⟨-, hlike, hfaithful⟩ := hp.stable ht ht (CheckState.Like.refl t)
  exact hf _ (h t ht hst) _ hfaithful (hst.trans hlike)

theorem Gives.read {f : Env → Check α} {Q : α → Prop} (h : Gives env s (f env) Q) :
    Gives env s (MonadReader.read >>= f) Q := h

theorem Gives.get {f : CheckState → Check α} {Q : α → Prop}
    (h : ∀ t, t.Faithful env → s.Like t → Gives env s (f t) Q) :
    Gives env s (MonadState.get >>= f) Q := fun t ht hst => h t ht hst t ht hst

theorem Gives.table : Gives env s Check.table (· = s.table) := by
  intro t _ hst
  show t.table = s.table
  rw [hst]

theorem Gives.ask (name : String) : Gives env s (moduleTable? name) (· = env.answer name) :=
  fun _ ht _ => moduleTable?_value ht name

theorem Gives.symbol (id : Nat) :
    Gives env s (bindingSymbol? (.declared id)) (· = s.table.symbol? id) :=
  .bind table_query .table fun _ htable => .pure (congrArg (·.symbol? id) htable)

theorem Gives.trivial (p : Check α) : Gives env s p fun _ => True := fun _ _ _ => True.intro

/-- A query gives one value. -/
theorem Gives.value {p : Check α} (hp : Query env.head p) (hs : s.Faithful env) :
    Gives env s p (· = (p.outcome env s).1) :=
  fun _ ht hst => (hp.stable hs ht hst).1

end Gives

/-! ## The bases that are named somewhere -/

/-- The bases that object types of the module name, and those of other modules as the module
sees them. -/
def namedBases (env : Env) (t : SymbolTable) : List Ty :=
  t.namedBases ++
    (env.resolver?.getD []).flatMap fun e => e.2.namedBases.map (Ty.qualify e.1)

/-- If a type is an object type, its bases are named in the tables at hand. -/
def HasNamedBases (env : Env) (t : SymbolTable) (type : Ty) : Prop :=
  ∀ info, type = .object info → ∀ base ∈ info.bases, base ∈ namedBases env t

theorem mem_symbolBases {t : SymbolTable} {s : Symbol} (hs : s ∈ t.symbols) {info : ObjectInfo}
    (hinfo : s.type = .object info) {base : Ty} (hbase : base ∈ info.bases) :
    base ∈ t.namedBases := by
  refine List.mem_flatMap.2 ⟨s, hs.val, ?_⟩
  rw [hinfo]
  exact hbase

theorem qualifyAll_eq_map (module : String) (ts : List Ty) :
    qualifyAll module ts = ts.map (Ty.qualify module) := by
  induction ts with
  | nil => rw [qualifyAll, List.map_nil]
  | cons t ts ih => rw [qualifyAll, ih, List.map_cons]

/-- Only object types look like object types from another module. -/
theorem eq_object_of_qualify {t : Ty} {module : String} {info : ObjectInfo}
    (h : t.qualify module = .object info) :
    ∃ o, t = .object o ∧ info.bases = o.bases.map (Ty.qualify module) := by
  cases t with
  | object o =>
    obtain ⟨bases, fields, methods⟩ := o
    rw [Ty.qualify, ObjectInfo.qualify] at h
    obtain rfl := Ty.object.inj h
    exact ⟨_, rfl, qualifyAll_eq_map module bases⟩
  | named m? n => cases m? <;> simp [Ty.qualify] at h
  | _ => simp [Ty.qualify] at h

theorem hasNamedBases_declared (env : Env) {t : SymbolTable} {id : Nat} {s : Symbol}
    (h : t.symbol? id = some s) : HasNamedBases env t s.type :=
  fun _ hinfo _ hbase =>
    List.mem_append_left _ (mem_symbolBases (Array.mem_of_getElem? h) hinfo hbase)

theorem hasNamedBases_exported {env : Env} {t other : SymbolTable} {module name : String}
    {s : Symbol} (hother : env.answer module = some other)
    (h : other.exported? module name = some s) : HasNamedBases env t s.type := by
  obtain ⟨original, horiginal, rfl⟩ := Option.map_eq_some_iff.1 h
  obtain ⟨id, -, hid⟩ := Option.bind_eq_some_iff.1 horiginal
  obtain ⟨r, hr, hfind⟩ := Option.bind_eq_some_iff.1 hother
  have hmem : (module, other) ∈ r := by
    obtain ⟨l, l', hl, -⟩ := List.lookup_eq_some_iff.1 hfind
    rw [hl]
    exact List.mem_append_right _ List.mem_cons_self
  intro info hinfo base hbase
  obtain ⟨o, htype, hbases⟩ := eq_object_of_qualify hinfo
  rw [hbases] at hbase
  obtain ⟨b, hb, rfl⟩ := List.mem_map.1 hbase
  refine List.mem_append_right _ (List.mem_flatMap.2 ⟨(module, other), ?_, ?_⟩)
  · rw [hr]
    exact hmem
  · exact List.mem_map.2 ⟨b, mem_symbolBases (Array.mem_of_getElem? hid) htype hb, rfl⟩

/-! ## What lookups find -/

/-- The symbol that a binding outside of the module carries has its bases named. -/
def BindingNamed (env : Env) (t : SymbolTable) : Lookup → Prop
  | .found (.external s) => HasNamedBases env t s.type
  | _ => True

section Lookups

variable {env : Env} {s : CheckState}

theorem lookupIn_named {module name : String} {table? : Option SymbolTable}
    (h : table? = env.answer module) : BindingNamed env s.table (lookupIn module name table?) := by
  unfold lookupIn
  split
  · exact True.intro
  · split
    · next hexported => exact hasNamedBases_exported h.symm hexported
    · exact True.intro

theorem firstImported?_named (name : String) {ms : List String} (hms : env.head.name ∉ ms) :
    Gives env s (firstImported? name ms) fun found? =>
      ∀ symbol, found? = some symbol → HasNamedBases env s.table symbol.type := by
  induction ms with
  | nil => exact .pure fun _ h => nomatch h
  | cons m ms ih =>
    obtain ⟨hm, hms⟩ := not_or.1 (mt List.mem_cons.2 hms)
    refine .bind (.ask fun h => absurd h.symm hm) (.ask m) fun table? htable => ?_
    split
    · next symbol hsymbol =>
      refine .pure fun _ h => ?_
      obtain rfl := Option.some.inj h
      obtain ⟨other, hother, hexported⟩ := Option.bind_eq_some_iff.1 hsymbol
      exact hasNamedBases_exported (htable.symm.trans hother) hexported
    · exact ih hms

theorem definitionTable?_answer :
    Gives env s definitionTable? fun table? =>
      ∀ other, table? = some other → env.answer env.moduleName = some other := by
  unfold definitionTable?
  refine .read ?_
  split
  · intro t ht _ other hother
    rw [← hother]
    exact (moduleTable?_value ht _).symm
  · exact .pure fun _ h => nomatch h

theorem lookupExternal_named (name : String) :
    Gives env s (lookupExternal name) (BindingNamed env s.table) := by
  unfold lookupExternal
  refine .read (.bind definitionTable?_query definitionTable?_answer fun table? htable => ?_)
  split
  · next symbol hsymbol =>
    obtain ⟨other, hother, hexported⟩ := Option.bind_eq_some_iff.1 hsymbol
    exact .pure (hasNamedBases_exported (htable other hother) hexported)
  · refine .get fun t ht _ => .bind (firstImported?_query name ht.imports)
      (firstImported?_named name ht.imports) fun found? hfound => ?_
    split
    · next symbol => exact .pure (hfound symbol rfl)
    · refine .bind hasUnresolvedSource_query (.trivial _) fun unresolved _ => ?_
      split <;> exact .pure True.intro

theorem lookup_named (module? : Option String) (name : String) (scope : Nat) :
    Gives env s (lookup module? name scope) (BindingNamed env s.table) := by
  unfold lookup
  refine .read (.bind table_query .table fun table _ => ?_)
  cases module? with
  | none =>
    dsimp only
    split
    · exact .pure True.intro
    · exact lookupExternal_named name
  | some m =>
    dsimp only
    split
    · next hm =>
      split
      · exact .pure True.intro
      · split
        · next hkind =>
          refine .bind definitionTable?_query ?_ fun _ htable => .pure (lookupIn_named htable)
          unfold definitionTable?
          refine .read ?_
          rw [if_pos hkind, hm]
          exact .ask _
        · exact .pure True.intro
    · next hm =>
      exact .bind (.ask fun h => absurd h hm) (.ask m) fun table? htable =>
        .pure (lookupIn_named htable)

theorem declaredType?_named (module? : Option String) (name : String) (scope : Nat) :
    Gives env s (declaredType? module? name scope) fun type? =>
      ∀ type, type? = some type → HasNamedBases env s.table type := by
  refine .bind (lookup_query module? name scope) (lookup_named module? name scope)
    fun found hfound => ?_
  cases found with
  | found b =>
    have symbols : Gives env s (bindingSymbol? b) fun symbol? =>
        ∀ symbol, symbol? = some symbol → HasNamedBases env s.table symbol.type := by
      cases b with
      | declared id =>
        intro t ht hst symbol hsymbol
        rw [Gives.symbol id t ht hst] at hsymbol
        exact hasNamedBases_declared env hsymbol
      | external symbol =>
        refine .pure fun _ h => ?_
        obtain rfl := Option.some.inj h
        exact hfound
      | builtin => exact .pure fun _ h => nomatch h
    refine .bind (bindingSymbol?_query b) symbols fun symbol? hsymbol => ?_
    cases symbol? with
    | none => exact .pure fun _ h => nomatch h
    | some symbol =>
      dsimp only
      split
      · refine .pure fun _ h => ?_
        obtain rfl := Option.some.inj h
        exact hsymbol symbol rfl
      · exact .pure fun _ h => nomatch h
  | unknowable => exact .pure fun _ h => nomatch h
  | missing => exact .pure fun _ h => nomatch h

theorem followNames_named (scope hops : Nat) {type : Ty} (h : HasNamedBases env s.table type) :
    Gives env s (followNames scope hops type) fun type? =>
      ∀ type, type? = some type → HasNamedBases env s.table type := by
  induction hops generalizing type with
  | zero => exact .pure fun _ h => nomatch h
  | succ hops ih =>
    have stop : Gives env s (pure (some type)) fun type? =>
        ∀ type, type? = some type → HasNamedBases env s.table type := by
      refine .pure fun _ hsome => ?_
      obtain rfl := Option.some.inj hsome
      exact h
    cases type with
    | named module? name =>
      unfold followNames
      split
      · next b hb =>
        refine .pure fun _ hsome info hinfo => ?_
        obtain rfl := Option.some.inj hsome
        cases module? with
        | none =>
          obtain ⟨builtin, -, rfl⟩ := Option.map_eq_some_iff.1 hb
          cases hinfo
        | some m => cases hb
      · refine .bind (declaredType?_query module? name scope)
          (declaredType?_named module? name scope) fun type? htype => ?_
        cases type? with
        | none => exact .pure fun _ h => nomatch h
        | some type => exact ih (htype type rfl)
    | _ => exact stop

theorem resolveNamed_named (module? : Option String) (name : String) :
    Gives env s (resolveNamed module? name) fun type? =>
      ∀ type, type? = some type → HasNamedBases env s.table type :=
  .bind currentScope_query (.trivial _) fun scope _ =>
    followNames_named scope maxHops fun _ h => nomatch h

theorem findObject_named (module? : Option String) (name : String) :
    Gives env s (findObject module? name) fun o? =>
      ∀ o, o? = some o → ∀ base ∈ o.info.bases, base ∈ namedBases env s.table := by
  refine .bind (resolveNamed_query module? name) (resolveNamed_named module? name)
    fun type? htype => ?_
  split
  · next info =>
    refine .bind (objectOrigin?_query module? name) (.trivial _) fun origin? _ => .pure fun o ho => ?_
    obtain rfl := Option.some.inj ho
    exact htype _ rfl info rfl
  · exact .pure fun _ h => nomatch h

theorem baseObject_named (base : Ty) :
    Gives env s (baseObject base) fun o? =>
      ∀ o, o? = some o → ∀ base ∈ o.info.bases, base ∈ namedBases env s.table := by
  cases base with
  | named module? name => exact findObject_named module? name
  | _ => exact findObject_named none ""

end Lookups

/-! ## The objects that a search can come to -/

/-- The key of the object that a base stands for, if it stands for one. -/
def baseKey? (env : Env) (s : CheckState) (base : Ty) : Option String :=
  ((baseObject base).outcome env s).1.map (·.key)

/-- The bases that a search from an object can come to. -/
def searchBases (env : Env) (s : CheckState) (start : ResolvedObject) : List Ty :=
  start.info.bases ++ namedBases env s.table

/-- The keys that a search from an object can come to. -/
def searchKeys (env : Env) (s : CheckState) (start : ResolvedObject) : List String :=
  start.key :: (searchBases env s start).filterMap (baseKey? env s)

/-- A search from `start` can come to the object. -/
structure InSearch (env : Env) (s : CheckState) (start o : ResolvedObject) : Prop where
  key : o.key ∈ searchKeys env s start
  bases : ∀ base ∈ o.info.bases, base ∈ searchBases env s start

/-- How deep a search from an object may go. -/
def searchBound (env : Env) (s : CheckState) (o : ResolvedObject) : Nat :=
  1 + o.info.bases.length + s.table.namedBases.length +
    ((env.resolver?.getD []).flatMap (·.2.namedBases)).length

theorem length_searchKeys_le (env : Env) (s : CheckState) (o : ResolvedObject) :
    (searchKeys env s o).length ≤ searchBound env s o := by
  have others : ((env.resolver?.getD []).flatMap fun e =>
      e.2.namedBases.map (Ty.qualify e.1)).length =
        ((env.resolver?.getD []).flatMap (·.2.namedBases)).length := by
    simp only [List.length_flatMap, List.length_map]
  have found := List.length_filterMap_le (baseKey? env s) (searchBases env s o)
  unfold searchBases namedBases at found
  rw [List.length_append, List.length_append, others] at found
  unfold searchKeys searchBound searchBases namedBases
  rw [List.length_cons]
  omega

theorem inSearch_start (env : Env) (s : CheckState) (o : ResolvedObject) : InSearch env s o o :=
  ⟨List.mem_cons_self, fun _ hbase => List.mem_append_left _ hbase⟩

section Searches

variable {env : Env} {s : CheckState} {start : ResolvedObject}

theorem Gives.mapM {f : α → Check β} {Q : β → Prop} (hf : ∀ a, Query env.head (f a)) {as : List α}
    (h : ∀ a ∈ as, Gives env s (f a) Q) : Gives env s (as.mapM f) fun bs => ∀ b ∈ bs, Q b := by
  induction as with
  | nil => exact .pure fun _ hb => nomatch hb
  | cons a as ih =>
    rw [List.mapM_cons]
    refine .bind (hf a) (h a List.mem_cons_self) fun b hb => ?_
    refine .bind (mapM_query hf as) (ih fun a' ha' => h a' (List.mem_cons_of_mem a ha'))
      fun bs hbs => .pure fun c hc => ?_
    rcases List.mem_cons.1 hc with rfl | hc
    · exact hb
    · exact hbs c hc

/-- A search goes on from objects it can come to, to objects it can come to. -/
theorem baseObjects_inSearch (hs : s.Faithful env) {o : ResolvedObject}
    (ho : InSearch env s start o) :
    Gives env s (baseObjects o) fun os => ∀ o? ∈ os, ∀ o', o? = some o' →
      InSearch env s start o' := by
  refine .mapM baseObject_query fun base hbase => ?_
  intro t ht hst o' ho'
  refine ⟨List.mem_cons_of_mem _ (List.mem_filterMap.2 ⟨base, ho.bases base hbase, ?_⟩), ?_⟩
  · unfold baseKey?
    rw [← Gives.value (baseObject_query base) hs t ht hst, ho', Option.map_some]
  · intro b hb
    exact List.mem_append_right _ (baseObject_named base t ht hst o' ho' b hb)

/-! ## Depth -/

/-- How many of some keys were not visited. -/
def unvisited (keys visited : List String) : Nat :=
  keys.countP fun k => !visited.contains k

theorem unvisited_le_length (keys visited : List String) :
    unvisited keys visited ≤ keys.length :=
  List.countP_le_length

theorem visited_of_unvisited_eq_zero {keys visited : List String} (h : unvisited keys visited = 0)
    {k : String} (hk : k ∈ keys) : visited.contains k = true := by
  have hzero := List.countP_eq_zero.1 h k hk
  rw [Bool.not_eq_true', Bool.not_eq_false] at hzero
  exact hzero

theorem unvisited_mono {keys visited visited' : List String} (h : visited ⊆ visited') :
    unvisited keys visited' ≤ unvisited keys visited := by
  refine List.countP_mono_left fun k _ hk => ?_
  rw [Bool.not_eq_true', ← Bool.not_eq_true, List.contains_iff_mem] at hk ⊢
  exact fun hmem => hk (h hmem)

/-- A visit leaves fewer keys to visit. -/
theorem unvisited_cons_lt {keys visited : List String} {k : String} (hk : k ∈ keys)
    (hnew : visited.contains k = false) :
    unvisited keys (k :: visited) < unvisited keys visited := by
  have le (keys : List String) : unvisited keys (k :: visited) ≤ unvisited keys visited :=
    unvisited_mono (List.subset_cons_self k visited)
  induction keys with
  | nil => cases hk
  | cons c keys ih =>
    have step (visited : List String) : unvisited (c :: keys) visited =
        unvisited keys visited + if !visited.contains c then 1 else 0 :=
      List.countP_cons
    rw [step, step]
    by_cases hc : c = k
    · subst hc
      rw [hnew, List.contains_cons, beq_self_eq_true, Bool.true_or]
      have := le keys
      simp only [Bool.not_true, Bool.not_false, Bool.false_eq_true, if_false, if_true]
      omega
    · rcases List.mem_cons.1 hk with rfl | hk
      · exact absurd rfl hc
      · have hsame : (k :: visited).contains c = visited.contains c := by
          rw [List.contains_cons, beq_false_of_ne hc, Bool.false_or]
        rw [hsame]
        have := ih hk
        omega

/-- If two searches come to the same end on every object that can be come to, so do their
runs over many objects. -/
theorem firstHit_deep (missing? : Option α)
    (search search' : ResolvedObject → List String → Check (Option α × List String))
    (hquery : ∀ o visited, Query env.head (search o visited)) {floor : List String}
    (h : ∀ o visited t, t.Faithful env → s.Like t → InSearch env s start o → floor ⊆ visited →
      (search' o visited).outcome env t = (search o visited).outcome env t ∧
        visited ⊆ ((search o visited).outcome env t).1.2)
    {os : List (Option ResolvedObject)} (hos : ∀ o? ∈ os, ∀ o, o? = some o → InSearch env s start o)
    {visited : List String} (hfloor : floor ⊆ visited) {t : CheckState} (ht : t.Faithful env)
    (hst : s.Like t) :
    (firstHit missing? search' os visited).outcome env t =
        (firstHit missing? search os visited).outcome env t ∧
      visited ⊆ ((firstHit missing? search os visited).outcome env t).1.2 := by
  induction os generalizing visited t with
  | nil => exact ⟨rfl, fun _ hk => hk⟩
  | cons o? os ih =>
    have hrest : ∀ o? ∈ os, ∀ o, o? = some o → InSearch env s start o :=
      fun o? ho => hos o? (List.mem_cons_of_mem _ ho)
    cases o? with
    | none =>
      cases missing? with
      | none => exact ih hrest hfloor ht hst
      | some hit => exact ⟨rfl, fun _ hk => hk⟩
    | some o =>
      obtain ⟨hsame, hsub⟩ := h o visited t ht hst (hos _ List.mem_cons_self o rfl) hfloor
      obtain ⟨-, hlike, hfaithful⟩ := (hquery o visited).stable ht ht (CheckState.Like.refl t)
      unfold firstHit
      rw [outcome_bind, outcome_bind, hsame]
      generalize (search o visited).outcome env t = found at hsub hlike hfaithful ⊢
      obtain ⟨⟨hit?, visited'⟩, t'⟩ := found
      cases hit? with
      | some hit => exact ⟨rfl, hsub⟩
      | none =>
        obtain ⟨hsame', hsub'⟩ :=
          ih hrest (List.Subset.trans hfloor hsub) hfaithful (hst.trans hlike)
        exact ⟨hsame', List.Subset.trans hsub hsub'⟩

/-- A search comes to the same end at every depth that is not below the number of keys not
visited yet. -/
theorem searchIn_deep (missing? : Option α) (hit? : ResolvedObject → Option α)
    (hs : s.Faithful env) {n m : Nat} (hnm : n ≤ m) {o : ResolvedObject} {visited : List String}
    (hn : unvisited (searchKeys env s start) visited ≤ n) (ho : InSearch env s start o)
    {t : CheckState} (ht : t.Faithful env) (hst : s.Like t) :
    (searchIn missing? hit? m o visited).outcome env t =
        (searchIn missing? hit? n o visited).outcome env t ∧
      visited ⊆ ((searchIn missing? hit? n o visited).outcome env t).1.2 := by
  induction n generalizing m o visited t with
  | zero =>
    have hseen := visited_of_unvisited_eq_zero (Nat.le_zero.1 hn) ho.key
    refine ⟨?_, fun _ hk => hk⟩
    cases m with
    | zero => rfl
    | succ m =>
      unfold searchIn
      rw [if_pos hseen]
  | succ n ih =>
    obtain ⟨m, rfl⟩ := Nat.exists_eq_add_of_le' (Nat.le_trans (Nat.succ_le_succ (Nat.zero_le n)) hnm)
    unfold searchIn
    split
    · exact ⟨rfl, fun _ hk => hk⟩
    · next hnew =>
      rw [Bool.not_eq_true] at hnew
      split
      · exact ⟨rfl, List.subset_cons_self _ _⟩
      · have hfresh : unvisited (searchKeys env s start) (o.key :: visited) ≤ n := by
          have := unvisited_cons_lt ho.key hnew
          omega
        have hbases := baseObjects_inSearch hs ho t ht hst
        obtain ⟨-, hlike, hfaithful⟩ :=
          (baseObjects_query o).stable ht ht (CheckState.Like.refl t)
        rw [outcome_bind, outcome_bind]
        have hdeep := firstHit_deep missing? (searchIn missing? hit? n)
          (searchIn missing? hit? m) (searchIn_query missing? hit? n)
          (fun o' visited' t' ht' hst' ho' hfloor =>
            ih (Nat.le_of_succ_le_succ hnm) (Nat.le_trans (unvisited_mono hfloor) hfresh) ho' ht' hst')
          hbases (List.Subset.refl _) hfaithful (hst.trans hlike)
        exact ⟨hdeep.1, List.Subset.trans (List.subset_cons_self _ _) hdeep.2⟩

theorem reaches_deep (hs : s.Faithful env) (key : String) {n m : Nat} (hnm : n ≤ m)
    {stack : List ResolvedObject} {visited : List String}
    (hn : unvisited (searchKeys env s start) visited ≤ n)
    (hstack : ∀ o ∈ stack, InSearch env s start o) {t : CheckState} (ht : t.Faithful env)
    (hst : s.Like t) :
    (reaches key m stack visited).outcome env t = (reaches key n stack visited).outcome env t := by
  induction n generalizing m stack visited t with
  | zero =>
    induction stack with
    | nil =>
      unfold reaches
      rfl
    | cons o stack ih =>
      have hseen := visited_of_unvisited_eq_zero (Nat.le_zero.1 hn)
        (hstack o List.mem_cons_self).key
      unfold reaches
      rw [if_pos hseen, if_pos hseen]
      split
      · rfl
      · exact ih fun o' ho' => hstack o' (List.mem_cons_of_mem o ho')
  | succ n ih =>
    obtain ⟨m, rfl⟩ := Nat.exists_eq_add_of_le' (Nat.le_trans (Nat.succ_le_succ (Nat.zero_le n)) hnm)
    induction stack with
    | nil =>
      unfold reaches
      rfl
    | cons o stack ihs =>
      have hrest : ∀ o' ∈ stack, InSearch env s start o' :=
        fun o' ho' => hstack o' (List.mem_cons_of_mem o ho')
      have ho := hstack o List.mem_cons_self
      unfold reaches
      split
      · rfl
      · split
        · exact ihs hrest
        · next hnew =>
          rw [Bool.not_eq_true] at hnew
          have hbases := baseObjects_inSearch hs ho t ht hst
          obtain ⟨-, hlike, hfaithful⟩ :=
            (baseObjects_query o).stable ht ht (CheckState.Like.refl t)
          dsimp only
          rw [outcome_bind, outcome_bind]
          refine ih (Nat.le_of_succ_le_succ hnm) ?_ (fun o' ho' => ?_) hfaithful (hst.trans hlike)
          · have := unvisited_cons_lt ho.key hnew
            omega
          · rcases List.mem_append.1 ho' with ho' | ho'
            · obtain ⟨o?, ho?, hsome⟩ := List.mem_filterMap.1 (List.mem_reverse.1 ho')
              exact hbases o? ho? o' hsome
            · exact hrest o' ho'

end Searches

/-! ## Searches as deep as they have to go -/

variable {head : ModuleHead}

/-- The step comes to the same end at every depth that a search from the object may need. -/
def Settles (o : ResolvedObject) (f : Nat → Check α) : Prop :=
  ∀ env s n, s.Faithful env → searchBound env s o ≤ n →
    (f n).outcome env s = (f (searchBound env s o)).outcome env s

/-- A search of which no more comes at a greater depth knows other modules by name. -/
theorem searchDepth_byName (o : ResolvedObject) {f : Nat → Check α} (hf : ∀ n, Query head (f n))
    (hdeep : Settles o f) : ByName head (searchDepth o >>= f) :=
  @ByName.search head _ f (fun env s => searchBound env s o) (fun n => .query (hf n))
    fun env s n _ => hdeep env s n

theorem unvisited_le_searchBound (env : Env) (s : CheckState) (o : ResolvedObject)
    (visited : List String) : unvisited (searchKeys env s o) visited ≤ searchBound env s o :=
  Nat.le_trans (unvisited_le_length _ _) (length_searchKeys_le env s o)

/-- The search through an object and all its bases. -/
theorem searchIn_settles (missing? : Option α) (hit? : ResolvedObject → Option α)
    (o : ResolvedObject) (f : Option α × List String → β) :
    Settles o (fun n => do pure (f (← searchIn missing? hit? n o []))) := by
  intro env s n hs hn
  have hdeep := searchIn_deep missing? hit? hs hn (unvisited_le_searchBound env s o [])
    (inSearch_start env s o) hs (CheckState.Like.refl s)
  rw [outcome_bind, outcome_bind, hdeep.1]

theorem searchIn_byName (missing? : Option α) (hit? : ResolvedObject → Option α)
    (o : ResolvedObject) (f : Option α × List String → β) :
    ByName head (searchDepth o >>= fun depth => do
      pure (f (← searchIn missing? hit? depth o []))) :=
  searchDepth_byName o (fun n => (searchIn_query missing? hit? n o []).bind fun _ => .pure _)
    (searchIn_settles missing? hit? o f)

theorem findMember_byName (o : ResolvedObject) (name : String) : ByName head (findMember o name) :=
  searchIn_byName none (·.member? name) o (·.1)

theorem chainResolved_byName (o : ResolvedObject) : ByName head (chainResolved o) :=
  searchIn_byName (some ()) (fun _ => none) o (·.1.isNone)

/-- The search through the bases of an object. -/
theorem baseMethod_settles (o : ResolvedObject) (name : String) :
    Settles o (fun n => do
      let bases ← baseObjects o
      let (found, _) ← firstHit none (searchIn none (·.member? name) n) bases [o.key]
      pure (found.filter (·.kind = .method))) := by
  intro env s n hs hn
  have hbases := baseObjects_inSearch hs (inSearch_start env s o) s hs (CheckState.Like.refl s)
  obtain ⟨-, hlike, hfaithful⟩ := (baseObjects_query o).stable hs hs (CheckState.Like.refl s)
  rw [outcome_bind, outcome_bind, outcome_bind, outcome_bind]
  have hdeep := firstHit_deep none (searchIn none (·.member? name) (searchBound env s o))
    (searchIn none (·.member? name) n) (searchIn_query none _ _)
    (fun o' visited t ht hst ho' _ => searchIn_deep none (·.member? name) hs hn
      (unvisited_le_searchBound env s o visited) ho' ht hst)
    hbases (List.nil_subset [o.key]) hfaithful hlike
  rw [hdeep.1]

theorem baseMethod_byName (o : ResolvedObject) (name : String) : ByName head (baseMethod o name) :=
  searchDepth_byName o (fun n => (baseObjects_query o).bind fun bases =>
    (firstHit_query none (searchIn_query none _ n) bases [o.key]).bind fun _ => .pure _)
    (baseMethod_settles o name)

theorem inheritsItself_settles (o : ResolvedObject) :
    Settles o (fun n => do
      let bases := (← baseObjects o).filterMap id
      reaches o.key n bases.reverse []) := by
  intro env s n hs hn
  have hbases := baseObjects_inSearch hs (inSearch_start env s o) s hs (CheckState.Like.refl s)
  obtain ⟨-, hlike, hfaithful⟩ := (baseObjects_query o).stable hs hs (CheckState.Like.refl s)
  dsimp only
  rw [outcome_bind, outcome_bind]
  refine reaches_deep hs o.key hn (unvisited_le_searchBound env s o []) (fun o' ho' => ?_)
    hfaithful hlike
  obtain ⟨o?, ho?, hsome⟩ := List.mem_filterMap.1 (List.mem_reverse.1 ho')
  exact hbases o? ho? o' hsome

theorem inheritsItself_byName (o : ResolvedObject) : ByName head (inheritsItself o) :=
  searchDepth_byName o (fun n => (baseObjects_query o).bind fun _ => reaches_query o.key n _ [])
    (inheritsItself_settles o)

end SimFront.Check
