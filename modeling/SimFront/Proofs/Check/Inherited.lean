import SimFront.Proofs.Check.Hierarchy
import SimFront.Proofs.Check.ModuleScopes
import SimFront.Proofs.Check.Search

/-!
# Members of the objects of a module

A search for a member goes through the objects that the names of bases stand for
(`visits_findMember`).  Where keys tell these apart, it finds what an object declares or inherits,
also in circles; where there are none it finds what a plain search does, one that looks at an
object, its fields before its methods, and then at its bases in their order (`findMember_iff`).
Where a module is analysed on its own (`Alone`), the objects are its own object types, however
they are named, and their names tell them apart (`Alone.keyed`).
-/

namespace SimFront

namespace ResolvedObject

/-- An object type has a field or a method of its own under a name. -/
def Declares (o : ResolvedObject) (name : String) : Prop :=
  (Members.find? o.info.fields name).isSome ∨ (Members.find? o.info.methods name).isSome

end ResolvedObject

namespace Check

open Hierarchy (Acyclic Inherits Keyed Plain Visits)

variable {α β : Type} {env : Env} {s : CheckState}

/-! ## Searches from object to object -/

/-- The objects that the bases of an object stand for, in the order of their declaration. -/
def basesOf (env : Env) (s : CheckState) (o : ResolvedObject) : List ResolvedObject :=
  o.info.bases.filterMap fun base => ((baseObject base).outcome env s).1

theorem Gives.values {f : α → Check β} (hf : ∀ a, Query env.head (f a)) (hs : s.Faithful env)
    (as : List α) : Gives env s (as.mapM f) (· = as.map fun a => ((f a).outcome env s).1) := by
  induction as with
  | nil => exact .pure rfl
  | cons a as ih =>
    rw [List.mapM_cons]
    refine .bind (hf a) (.value (hf a) hs) fun b hb => ?_
    refine .bind (mapM_query hf as) ih fun bs hbs => .pure ?_
    rw [hb, hbs, List.map_cons]

theorem baseObjects_value (hs : s.Faithful env) (o : ResolvedObject) :
    Gives env s (baseObjects o) fun os => os.filterMap id = basesOf env s o := by
  intro t ht hst
  unfold baseObjects
  rw [Gives.values baseObject_query hs o.info.bases t ht hst, List.filterMap_map]
  rfl

section Searches

variable {start : ResolvedObject} {hit? : ResolvedObject → Option α}

/-- Searches of single objects make up a search of many; bases that were not found are left
out. -/
theorem firstHit_visits {search : ResolvedObject → List String → Check (Option α × List String)}
    (hquery : ∀ o visited, Query env.head (search o visited)) {floor : List String}
    (h : ∀ o visited t, t.Faithful env → s.Like t → InSearch env s start o → floor ⊆ visited →
      Visits (basesOf env s) hit? [o] visited ((search o visited).outcome env t).1.1
        ((search o visited).outcome env t).1.2)
    {os : List (Option ResolvedObject)} (hos : ∀ o? ∈ os, ∀ o, o? = some o → InSearch env s start o)
    {visited : List String} (hfloor : floor ⊆ visited) {t : CheckState} (ht : t.Faithful env)
    (hst : s.Like t) :
    Visits (basesOf env s) hit? (os.filterMap id) visited
      ((firstHit none search os visited).outcome env t).1.1
      ((firstHit none search os visited).outcome env t).1.2 := by
  induction os generalizing visited t with
  | nil => exact .done
  | cons o? os ih =>
    have hrest : ∀ o? ∈ os, ∀ o, o? = some o → InSearch env s start o :=
      fun o? ho => hos o? (List.mem_cons_of_mem _ ho)
    cases o? with
    | none => exact ih hrest hfloor ht hst
    | some o =>
      have hvisits := h o visited t ht hst (hos _ List.mem_cons_self o rfl) hfloor
      obtain ⟨-, hlike, hfaithful⟩ := (hquery o visited).stable ht ht (CheckState.Like.refl t)
      unfold firstHit
      rw [outcome_bind]
      generalize (search o visited).outcome env t = found at hvisits hlike hfaithful ⊢
      obtain ⟨⟨found?, visited'⟩, t'⟩ := found
      cases found? with
      | some found => exact hvisits.stop
      | none =>
        exact hvisits.cons
          (ih hrest (List.Subset.trans hfloor hvisits.subset) hfaithful (hst.trans hlike))

/-- A search that may go deep enough goes through an object and all its bases. -/
theorem searchIn_visits (hs : s.Faithful env) {n : Nat} {o : ResolvedObject} {visited : List String}
    (hn : unvisited (searchKeys env s start) visited ≤ n) (ho : InSearch env s start o)
    {t : CheckState} (ht : t.Faithful env) (hst : s.Like t) :
    Visits (basesOf env s) hit? [o] visited ((searchIn none hit? n o visited).outcome env t).1.1
      ((searchIn none hit? n o visited).outcome env t).1.2 := by
  induction n generalizing o visited t with
  | zero =>
    have hseen := visited_of_unvisited_eq_zero (Nat.le_zero.1 hn) ho.key
    exact .seen (List.contains_iff_mem.1 hseen) .done
  | succ n ih =>
    unfold searchIn
    split
    · next hseen => exact .seen (List.contains_iff_mem.1 hseen) .done
    · next hnew =>
      have hunseen : o.key ∉ visited := fun hmem => hnew (List.contains_iff_mem.2 hmem)
      split
      · next hit => exact .own hunseen hit
      · next hmiss =>
        have hfresh : unvisited (searchKeys env s start) (o.key :: visited) ≤ n := by
          have := unvisited_cons_lt ho.key (Bool.eq_false_iff.2 hnew)
          omega
        have hbases := baseObjects_inSearch hs ho t ht hst
        have hvalue := baseObjects_value hs o t ht hst
        obtain ⟨-, hlike, hfaithful⟩ :=
          (baseObjects_query o).stable ht ht (CheckState.Like.refl t)
        rw [outcome_bind]
        refine .through hunseen hmiss (hvalue ▸ ?_)
        exact firstHit_visits (searchIn_query none hit? n)
          (fun o' visited' t' ht' hst' ho' hfloor =>
            ih (Nat.le_trans (unvisited_mono hfloor) hfresh) ho' ht' hst')
          hbases (List.Subset.refl _) hfaithful (hst.trans hlike)

end Searches

/-- No other module is known, and the scope of the module itself is the current one. -/
structure Alone (env : Env) (s : CheckState) : Prop where
  resolver : env.resolver? = none
  faithful : s.Faithful env
  current : s.table.current = SymbolTable.root
  own : ∀ id symbol, s.table.symbol? id = some symbol → symbol.kind = .type → symbol.origin? = none

theorem alone_after (m : Module) : Alone (.ofModule none m) (.after none m) where
  resolver := rfl
  faithful := faithful_after none m
  current := (reachable_after none m).2
  own _ _ := ownTypes_after m

/-- If a name is found, the module itself declares it, and it is qualified by no other one. -/
def OwnFound (env : Env) (s : CheckState) (module? : Option String) (name : String) : Lookup → Prop
  | .found b => module?.filter (· ≠ env.moduleName) = none ∧
      ∃ id, b = .declared id ∧ s.table.lookupFrom? SymbolTable.root name = some id
  | _ => True

/-- The declaration of a type under a name of the module. -/
def NamesType (s : CheckState) (name : String) (symbol : Symbol) : Prop :=
  symbol.kind = .type ∧ ∃ id, s.table.lookupFrom? SymbolTable.root name = some id ∧
    s.table.symbol? id = some symbol

/-- A name declares one type at most. -/
theorem NamesType.unique {name : String} {a b : Symbol} (h : NamesType s name a)
    (h' : NamesType s name b) : a = b := by
  obtain ⟨-, id, hid, ha⟩ := h
  obtain ⟨-, id', hid', hb⟩ := h'
  obtain rfl := Option.some.inj (hid.symm.trans hid')
  exact Option.some.inj (ha.symm.trans hb)

namespace Alone

theorem answer (h : Alone env s) (name : String) : env.answer name = none := by
  rw [Env.answer, h.resolver]
  rfl

theorem definitionTable? (h : Alone env s) : Gives env s definitionTable? (· = none) := by
  intro t ht hst
  cases hvalue : (Check.definitionTable?.outcome env t).1 with
  | none => rfl
  | some other =>
    have hanswer := definitionTable?_answer t ht hst other hvalue
    rw [h.answer] at hanswer
    cases hanswer

theorem firstImported? (h : Alone env s) (name : String) {ms : List String}
    (hms : env.head.name ∉ ms) : Gives env s (firstImported? name ms) (· = none) := by
  induction ms with
  | nil => exact .pure rfl
  | cons m ms ih =>
    obtain ⟨hm, hms⟩ := not_or.1 (mt List.mem_cons.2 hms)
    refine .bind (.ask fun h => absurd h.symm hm) (.ask m) fun table? htable => ?_
    rw [htable, h.answer]
    exact ih hms

/-- What the module does not declare itself is not found elsewhere. -/
theorem lookupExternal (h : Alone env s) (name : String) :
    Gives env s (lookupExternal name) (OwnFound env s none name) := by
  unfold Check.lookupExternal
  refine .read (.bind definitionTable?_query h.definitionTable? fun table? htable => ?_)
  rw [htable, Option.bind_none]
  refine .get fun t ht _ => .bind (firstImported?_query name ht.imports)
    (h.firstImported? name ht.imports) fun found? hfound => ?_
  rw [hfound]
  refine .bind hasUnresolvedSource_query (.trivial _) fun unresolved _ => ?_
  split
  · exact .pure True.intro
  · exact .pure True.intro

theorem lookup (h : Alone env s) (module? : Option String) (name : String) :
    Gives env s (lookup module? name SymbolTable.root) (OwnFound env s module? name) := by
  unfold Check.lookup
  refine .read (.bind table_query .table fun table htable => ?_)
  subst htable
  cases module? with
  | none =>
    dsimp only
    split
    · next id hid => exact .pure ⟨rfl, id, rfl, hid⟩
    · exact h.lookupExternal name
  | some m =>
    dsimp only
    split
    · next hm =>
      split
      · next id hid =>
        refine .pure ⟨?_, id, rfl, hid⟩
        rw [Option.filter_some_eq_none]
        simpa using hm
      · split
        · refine .bind definitionTable?_query h.definitionTable? fun table? htable => .pure ?_
          rw [htable]
          exact True.intro
        · exact .pure True.intro
    · next hm =>
      refine .bind (.ask fun h => absurd h hm) (.ask m) fun table? htable => .pure ?_
      rw [htable, h.answer]
      exact True.intro

/-- The type of a name is that of a declaration of the module. -/
theorem declaredType? (h : Alone env s) (module? : Option String) (name : String) :
    Gives env s (declaredType? module? name SymbolTable.root) fun type? => ∀ type,
      type? = some type → module?.filter (· ≠ env.moduleName) = none ∧
        ∃ symbol, NamesType s name symbol ∧ symbol.type = type := by
  refine .bind (lookup_query module? name _) (h.lookup module? name) fun found hfound => ?_
  cases found with
  | unknowable => exact .pure (by rintro _ ⟨⟩)
  | missing => exact .pure (by rintro _ ⟨⟩)
  | found b =>
    obtain ⟨hmodule, id, rfl, hid⟩ := hfound
    refine .bind (bindingSymbol?_query _) (.symbol id) fun symbol? hsymbol => ?_
    cases symbol? with
    | none => exact .pure (by rintro _ ⟨⟩)
    | some symbol =>
      dsimp only
      split
      · next hkind =>
        exact .pure fun type htype =>
          ⟨hmodule, symbol, ⟨hkind, id, hid, hsymbol.symm⟩, Option.some.inj htype⟩
      · exact .pure (by rintro _ ⟨⟩)

/-- The way along names to an object type leads over a declaration of the module. -/
theorem followNames (h : Alone env s) (module? : Option String) (name : String) (hops : Nat) :
    Gives env s (followNames SymbolTable.root (hops + 1) (.named module? name)) fun type? =>
      ∀ info, type? = some (.object info) → module?.filter (· ≠ env.moduleName) = none ∧
        ∃ symbol, NamesType s name symbol ∧
          ((followNames SymbolTable.root hops symbol.type).outcome env s).1 =
            some (.object info) := by
  rw [Check.followNames]
  split
  · next b hb =>
    -- built-in types are no object types
    refine .pure fun info hinfo => ?_
    obtain rfl := Option.some.inj hinfo
    cases module? with
    | none =>
      obtain ⟨builtin, -, hobject⟩ := Option.map_eq_some_iff.1 hb
      cases hobject
    | some m => cases hb
  · refine .bind (declaredType?_query module? name _) (h.declaredType? module? name)
      fun type? htype => ?_
    cases type? with
    | none => exact .pure (by rintro _ ⟨⟩)
    | some type =>
      obtain ⟨hmodule, symbol, hsymbol, rfl⟩ := htype type rfl
      intro t ht hst info hinfo
      have hvalue := Gives.value (followNames_query SymbolTable.root hops symbol.type) h.faithful t
        ht hst
      exact ⟨hmodule, symbol, hsymbol, hvalue.symm.trans hinfo⟩

theorem currentScope (h : Alone env s) : Gives env s currentScope (· = SymbolTable.root) :=
  .bind table_query .table fun table htable => .pure (by rw [htable, h.current])

/-- A type of the module comes from no other module. -/
theorem objectOrigin? (h : Alone env s) {module? : Option String} {name : String} {symbol : Symbol}
    (hmodule : module?.filter (· ≠ env.moduleName) = none) (hsymbol : NamesType s name symbol) :
    Gives env s (objectOrigin? module? name) (· = none) := by
  obtain ⟨hkind, id, hid, hdeclared⟩ := hsymbol
  unfold Check.objectOrigin?
  refine .read ?_
  dsimp only
  rw [hmodule]
  refine .bind currentScope_query h.currentScope fun scope hscope => ?_
  subst hscope
  refine .bind (lookup_query module? name _) (h.lookup module? name) fun found hfound => ?_
  cases found with
  | unknowable => exact .pure rfl
  | missing => exact .pure rfl
  | found b =>
    obtain ⟨-, id', rfl, hid'⟩ := hfound
    obtain rfl := Option.some.inj (hid.symm.trans hid')
    refine .bind (bindingSymbol?_query _) (.symbol id) fun symbol? hsome => .pure ?_
    rw [hsome, hdeclared, Option.bind_some, h.own id symbol hdeclared hkind]

/-- An object type that is found is declared by the module under its name. -/
theorem findObject (h : Alone env s) (module? : Option String) (name : String) :
    Gives env s (findObject module? name) fun o? => ∀ o, o? = some o →
      o.name = name ∧ o.origin? = none ∧ ∃ symbol, NamesType s name symbol ∧
        ((Check.followNames SymbolTable.root 8 symbol.type).outcome env s).1 =
          some (.object o.info) := by
  have hresolve : Gives env s (resolveNamed module? name) fun type? => ∀ info,
      type? = some (.object info) → module?.filter (· ≠ env.moduleName) = none ∧
        ∃ symbol, NamesType s name symbol ∧
          ((Check.followNames SymbolTable.root 8 symbol.type).outcome env s).1 =
            some (.object info) := by
    refine .bind currentScope_query h.currentScope fun scope hscope => ?_
    subst hscope
    exact h.followNames module? name 8
  refine .bind (resolveNamed_query module? name) hresolve fun type? htype => ?_
  split
  · next info =>
    obtain ⟨hmodule, symbol, hsymbol, hfollow⟩ := htype info rfl
    refine .bind (objectOrigin?_query module? name) (h.objectOrigin? hmodule hsymbol)
      fun origin? horigin => .pure ?_
    rintro o ⟨⟩
    exact ⟨rfl, horigin, symbol, hsymbol, hfollow⟩
  · exact .pure (by rintro _ ⟨⟩)

end Alone

/-- An object type that is found under some name, qualified or not. -/
def Known (env : Env) (s : CheckState) (o : ResolvedObject) : Prop :=
  ∃ module? name, ((findObject module? name).outcome env s).1 = some o

theorem lookup_own {name : String} {id : Nat}
    (hid : s.table.lookupFrom? SymbolTable.root name = some id) :
    Gives env s (lookup (some env.moduleName) name SymbolTable.root)
      (· = .found (.declared id)) := by
  unfold lookup
  refine .read (.bind table_query .table fun table htable => ?_)
  subst htable
  dsimp only
  rw [if_pos rfl, hid]
  exact .pure rfl

theorem NamesType.declaredType? {name : String} {symbol : Symbol} (h : NamesType s name symbol) :
    Gives env s (declaredType? (some env.moduleName) name SymbolTable.root)
      (· = some symbol.type) := by
  obtain ⟨hkind, id, hid, hdeclared⟩ := h
  refine .bind (lookup_query _ name _) (lookup_own hid) fun found hfound => ?_
  subst hfound
  refine .bind (bindingSymbol?_query _) (.symbol id) fun symbol? hsome => ?_
  rw [hsome, hdeclared]
  dsimp only
  rw [if_pos hkind]
  exact .pure rfl

/-- Every object type that the module declares is found, by its qualified name if not by the bare
one. -/
theorem Alone.known (h : Alone env s) {name : String} {symbol : Symbol} {info : ObjectInfo}
    (hsymbol : NamesType s name symbol) (hinfo : symbol.type = .object info) :
    Known env s ⟨name, info, none⟩ := by
  have hresolve : Gives env s (resolveNamed (some env.moduleName) name)
      (· = some (.object info)) := by
    refine .bind currentScope_query h.currentScope fun scope hscope => ?_
    subst hscope
    refine .bind (declaredType?_query _ name _) hsymbol.declaredType? fun type? hsome => ?_
    subst hsome
    rw [hinfo]
    exact .pure rfl
  have horigin : Gives env s (Check.objectOrigin? (some env.moduleName) name) (· = none) :=
    h.objectOrigin? (by simp) hsymbol
  have hobject : Gives env s (Check.findObject (some env.moduleName) name)
      (· = some ⟨name, info, none⟩) := by
    refine .bind (resolveNamed_query _ name) hresolve fun type? hsome => ?_
    subst hsome
    refine .bind (objectOrigin?_query _ name) horigin fun origin? hnone => .pure ?_
    rw [hnone]
  exact ⟨_, name, hobject s h.faithful (CheckState.Like.refl s)⟩

/-- The name under which an object type is found tells it apart, and a base is found under its
name. -/
theorem Alone.keyed (h : Alone env s) : Keyed (basesOf env s) (Known env s) where
  closed o _ o' ho' := by
    obtain ⟨base, -, hbase⟩ := List.mem_filterMap.1 ho'
    cases base with
    | named module? name => exact ⟨module?, name, hbase⟩
    | _ => exact ⟨none, "", hbase⟩
  apart := by
    rintro o o' ⟨module?, name, ho⟩ ⟨module'?, name', ho'⟩ hkey
    obtain ⟨hname, horigin, symbol, hsymbol, hfollow⟩ :=
      h.findObject module? name s h.faithful (CheckState.Like.refl s) o ho
    obtain ⟨hname', horigin', symbol', hsymbol', hfollow'⟩ :=
      h.findObject module'? name' s h.faithful (CheckState.Like.refl s) o' ho'
    unfold ResolvedObject.key at hkey
    rw [horigin, horigin'] at hkey
    subst hname hname'
    rw [← show o.name = o'.name from hkey] at hsymbol'
    obtain rfl := hsymbol.unique hsymbol'
    have hinfo : o.info = o'.info :=
      Ty.object.inj (Option.some.inj (hfollow.symm.trans hfollow'))
    cases o
    cases o'
    simp_all

end Check

end SimFront
