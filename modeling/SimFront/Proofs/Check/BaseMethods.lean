import SimFront.Proofs.Check.Circles

/-!
# Methods that override

A method overrides what the first declaration of its name is that a plain search through the
bases comes to, if that is a method; a field that comes first stands in the way
(`baseMethod_iff`).  So a method that is to override is reported as having nothing to override not
only where no base declares a method of its name (`missing_methods_reported`).

Before that is reported, and before a name is reported as missing in an object type, the bases of
the type are asked for, near and far: one that is not found could declare what is missing.  The
search shares its visited names among siblings and takes an object that it is still inside of for
known, but it does not go wrong (`chainResolved_exact`): in a module on its own a name leads to
one object type only, so that an object which is passed over is one that the search has been
through or is going to be through.  For the same reason a search for a member goes past nothing
that is inherited (`findMember_inherited`).

An object type that a procedure declares is not found by its name at module level, where another
type may have that name.  If it inherits from that one it is reported as a circle, and the
question does not come up.
-/

namespace SimFront

namespace Hierarchy

open Relation (ReflTransGen TransGen)

variable {α : Type} {bases : ResolvedObject → List ResolvedObject}
  {hit? : ResolvedObject → Option α} {o : ResolvedObject} {os : List ResolvedObject} {found? : Option α}

/-- The keys of an object and of those that it inherits from tell them apart. -/
def Apart (bases : ResolvedObject → List ResolvedObject) (o : ResolvedObject) : Prop :=
  ∀ a b, Inherits bases o a → Inherits bases o b → a.key = b.key → a = b

theorem Apart.keyed (h : Apart bases o) : Keyed bases (Inherits bases o) where
  closed _ ha _ hb := ha.tail hb
  apart := h

/-- What a plain search finds stands somewhere in the hierarchy. -/
theorem Plain.exists_hit {found : α} (h : Plain bases hit? os (some found)) :
    ∃ o ∈ os, ∃ o', Inherits bases o o' ∧ hit? o' = some found := by
  generalize hfound : some found = found? at h
  induction h with
  | done => cases hfound
  | @own o _ _ hit => exact ⟨o, .head _, o, .refl, hfound ▸ hit⟩
  | @inherited o _ _ _ _ ih =>
    obtain ⟨b, hb, o', hinherits, hhit⟩ := ih hfound
    exact ⟨o, .head _, o', .head hb hinherits, hhit⟩
  | further _ _ _ _ ih =>
    obtain ⟨o, ho, hhit⟩ := ih hfound
    exact ⟨o, .tail _ ho, hhit⟩

/-- A plain search in vain goes through the whole hierarchy. -/
theorem Plain.no_hit (h : Plain bases hit? os found?) (hfound : found? = none) :
    ∀ o ∈ os, ∀ o', Inherits bases o o' → hit? o' = none := by
  induction h with
  | done => exact List.forall_mem_nil _
  | own _ => cases hfound
  | inherited _ _ _ => cases hfound
  | further miss _ _ ihbelow ihrest =>
    refine List.forall_mem_cons.2 ⟨fun o' hinherits => ?_, ihrest hfound⟩
    rcases ReflTransGen.cases_head hinherits with rfl | ⟨b, hb, hinherits⟩
    · exact miss
    · exact ihbelow rfl b hb o' hinherits

/-- Without circles and with keys that tell the objects apart, the search through the bases of an
object comes to what a plain one does. -/
theorem Visits.plain_bases {visited : List String} (hacyclic : Acyclic bases o)
    (hapart : Apart bases o) (h : Visits bases hit? (bases o) [o.key] found? visited) :
    Plain bases hit? (bases o) found? :=
  (h.plain hapart.keyed (fun _ hb => ⟨.single hb, hacyclic.base hb⟩)
    (hacyclic.spent_below hapart.keyed .refl fun _ _ hmem => absurd hmem List.not_mem_nil)).1

/-- Below bases that have none there is nothing. -/
theorem base_of_baseless {o' : ResolvedObject} (h : ∀ b ∈ bases o, bases b = [])
    (hinherits : TransGen (HasBase bases) o o') : o' ∈ bases o := by
  induction hinherits with
  | single hb => exact hb
  | tail _ hb ih =>
    rw [HasBase, h _ ih] at hb
    cases hb

theorem acyclic_of_baseless (h : ∀ b ∈ bases o, bases b = []) : Acyclic bases o := by
  refine acyclic_of_ends (n := 2) (List.all_eq_true.2 fun b hb => ?_)
  rw [ends, h b hb]
  rfl

end Hierarchy

namespace Check

open Hierarchy
open Relation (ReflTransGen TransGen)

variable {env : Env} {s : CheckState} {o : ResolvedObject}

/-! ## Base methods -/

/-- The first declaration of a name in the bases of an object, whether a field or a method. -/
theorem visits_baseMethod (hs : s.Faithful env) (o : ResolvedObject) (name : String) :
    ∃ found? visited, Visits (basesOf env s) (·.member? name) (basesOf env s o) [o.key] found?
        visited ∧
      ((baseMethod o name).outcome env s).1 = found?.filter (·.kind = .method) := by
  have hbases := baseObjects_inSearch hs (inSearch_start env s o) s hs (CheckState.Like.refl s)
  have hvalue := baseObjects_value hs o s hs (CheckState.Like.refl s)
  obtain ⟨-, hlike, hs'⟩ := (baseObjects_query o).stable hs hs (CheckState.Like.refl s)
  have hquery : ∀ o' visited, Query env.head
      (searchIn none (·.member? name) (searchBound env s o) o' visited) :=
    searchIn_query none _ _
  have hvisits := firstHit_visits hquery
    (fun o' visited t ht hst ho' _ => searchIn_visits hs (unvisited_le_searchBound env s o visited)
      ho' ht hst) hbases (List.nil_subset [o.key]) hs' hlike
  rw [hvalue] at hvisits
  exact ⟨_, _, hvisits, rfl⟩

theorem member?_of_fields {name : String} (h : Members.find? o.info.fields name = none) :
    o.member? name = (Members.find? o.info.methods name).map fun m =>
      ⟨name, .method, .procedure m.signature, o.name, o.origin?, some m⟩ := by
  unfold ResolvedObject.member?
  rw [h]

/-- The base method of a name is the first declaration of the name in the bases, if it is a method.
If no object that is inherited from has a field of the name, there is one exactly if one of these
objects declares a method of it. -/
theorem baseMethod_iff (hs : s.Faithful env) (hacyclic : Acyclic (basesOf env s) o)
    (hapart : Apart (basesOf env s) o) (name : String) :
    (∀ base, ((baseMethod o name).outcome env s).1 = some base ↔ base.kind = .method ∧
      Plain (basesOf env s) (·.member? name) (basesOf env s o) (some base)) ∧
    ((∀ o', TransGen (HasBase (basesOf env s)) o o' → Members.find? o'.info.fields name = none) →
      (((baseMethod o name).outcome env s).1.isSome ↔ ∃ o',
        TransGen (HasBase (basesOf env s)) o o' ∧
          (Members.find? o'.info.methods name).isSome)) := by
  obtain ⟨found?, visited, hvisits, hvalue⟩ := visits_baseMethod hs o name
  have hplain := hvisits.plain_bases hacyclic hapart
  rw [hvalue]
  refine ⟨fun base => ?_, fun hfields => ⟨fun hsome => ?_, ?_⟩⟩
  · rw [Option.filter_eq_some_iff, decide_eq_true_eq, and_comm]
    exact and_congr_right' ⟨fun h => h ▸ hplain, fun h => hplain.unique h⟩
  · obtain ⟨base, hbase⟩ := Option.isSome_iff_exists.1 hsome
    rw [(Option.filter_eq_some_iff.1 hbase).1] at hplain
    obtain ⟨b, hb, o', hinherits, hhit⟩ := hplain.exists_hit
    have ho' : TransGen (HasBase (basesOf env s)) o o' := .head' hb hinherits
    rw [member?_of_fields (hfields o' ho')] at hhit
    obtain ⟨m, hm, -⟩ := Option.map_eq_some_iff.1 hhit
    exact ⟨o', ho', Option.isSome_of_eq_some hm⟩
  · rintro ⟨o', ho', hmethod⟩
    obtain ⟨b, hb, hinherits⟩ := TransGen.head'_iff.1 ho'
    have hmember := member?_of_fields (hfields o' ho')
    cases found? with
    | none =>
      rw [hplain.no_hit rfl b hb o' hinherits, eq_comm, Option.map_eq_none_iff] at hmember
      rw [hmember] at hmethod
      cases hmethod
    | some found =>
      obtain ⟨b', hb', o'', hinherits', hhit⟩ := hplain.exists_hit
      rw [member?_of_fields (hfields o'' (.head' hb' hinherits'))] at hhit
      obtain ⟨m, -, rfl⟩ := Option.map_eq_some_iff.1 hhit
      rfl

/-! ## Bases that are not found -/

/-- Whether a base of an object is not found. -/
def lacksBase (env : Env) (s : CheckState) (o : ResolvedObject) : Option Unit :=
  if o.info.bases.any fun base => ((baseObject base).outcome env s).1.isNone then some () else none

/-- The search for a base that is not found either goes through all there is to go through, or
there is such a base. -/
structure Surveys (env : Env) (s : CheckState) (os : List ResolvedObject) (visited : List String)
    (result : Option Unit × List String) : Prop where
  vain : result.1 = none → Visits (basesOf env s) (lacksBase env s) os visited none result.2
  hit : result.1 = some () → ∃ o ∈ os, ∃ o', Inherits (basesOf env s) o o' ∧
    lacksBase env s o' = some ()

section Surveys

variable {start : ResolvedObject}

/-- Surveys of single objects make up a survey of many, unless one of them was not found. -/
theorem firstHit_surveys {search : ResolvedObject → List String → Check (Option Unit × List String)}
    (hquery : ∀ o visited, Query env.head (search o visited)) {floor : List String}
    (h : ∀ o visited t, t.Faithful env → s.Like t → InSearch env s start o → floor ⊆ visited →
      Surveys env s [o] visited ((search o visited).outcome env t).1)
    {os : List (Option ResolvedObject)} (hos : ∀ o? ∈ os, ∀ o, o? = some o → InSearch env s start o)
    {visited : List String} (hfloor : floor ⊆ visited) {t : CheckState} (ht : t.Faithful env)
    (hst : s.Like t) :
    let result := ((firstHit (some ()) search os visited).outcome env t).1
    (result.1 = none → none ∉ os) ∧
      (none ∈ os ∧ result.1 = some () ∨ Surveys env s (os.filterMap id) visited result) := by
  induction os generalizing visited t with
  | nil => exact ⟨fun _ => List.not_mem_nil, .inr ⟨fun _ => .done, fun h => by cases h⟩⟩
  | cons o? os ih =>
    cases o? with
    | none => exact ⟨fun h => (by cases h), .inl ⟨List.mem_cons_self, rfl⟩⟩
    | some o =>
      have hsurvey := h o visited t ht hst (hos _ List.mem_cons_self o rfl) hfloor
      obtain ⟨-, hlike, ht'⟩ := (hquery o visited).stable ht ht (CheckState.Like.refl t)
      unfold firstHit
      rw [outcome_bind]
      generalize (search o visited).outcome env t = found at hsurvey hlike ht' ⊢
      obtain ⟨⟨found?, visited'⟩, t'⟩ := found
      cases found? with
      | some found =>
        obtain ⟨_, hmem, hmissing⟩ := hsurvey.hit rfl
        rw [List.mem_singleton.1 hmem] at hmissing
        refine ⟨fun h => ?_, .inr ⟨fun h => ?_, fun _ => ⟨o, List.mem_cons_self, hmissing⟩⟩⟩ <;>
          cases h
      | none =>
        have hvisits := hsurvey.vain rfl
        obtain ⟨hall, hrest⟩ := ih (fun o? ho => hos o? (List.mem_cons_of_mem _ ho))
          (List.Subset.trans hfloor hvisits.subset) ht' (hst.trans hlike)
        refine ⟨fun hvain hnone => ?_, ?_⟩
        · rcases List.mem_cons.1 hnone with hnone | hnone
          · cases hnone
          · exact hall hvain hnone
        · rcases hrest with ⟨hnone, hhit⟩ | hrest
          · exact .inl ⟨List.mem_cons_of_mem _ hnone, hhit⟩
          · refine .inr ⟨fun hvain => hvisits.cons (hrest.vain hvain), fun hhit => ?_⟩
            obtain ⟨x, hx, hmissing⟩ := hrest.hit hhit
            exact ⟨x, List.mem_cons_of_mem _ hx, hmissing⟩

/-- An object lacks a base exactly if one of its bases is not found. -/
theorem lacksBase_iff (hs : s.Faithful env) (o : ResolvedObject) {t : CheckState}
    (ht : t.Faithful env) (hst : s.Like t) :
    none ∈ ((baseObjects o).outcome env t).1 ↔ lacksBase env s o = some () := by
  have hvalues : ((baseObjects o).outcome env t).1 = _ :=
    Gives.values baseObject_query hs o.info.bases t ht hst
  rw [hvalues, List.mem_map]
  unfold lacksBase
  simp only [ite_eq_left_iff, reduceCtorEq, imp_false, not_not, List.any_eq_true,
    Option.isNone_iff_eq_none]

theorem searchIn_surveys (hs : s.Faithful env) {n : Nat} {o : ResolvedObject}
    {visited : List String} (hn : unvisited (searchKeys env s start) visited ≤ n)
    (ho : InSearch env s start o) {t : CheckState} (ht : t.Faithful env) (hst : s.Like t) :
    Surveys env s [o] visited
      ((searchIn (some ()) (fun _ => none) n o visited).outcome env t).1 := by
  induction n generalizing o visited t with
  | zero =>
    have hseen := visited_of_unvisited_eq_zero (Nat.le_zero.1 hn) ho.key
    exact ⟨fun _ => .seen (List.contains_iff_mem.1 hseen) .done, fun h => by cases h⟩
  | succ n ih =>
    unfold searchIn
    split
    · next hseen =>
      exact ⟨fun _ => .seen (List.contains_iff_mem.1 hseen) .done, fun h => by cases h⟩
    · next hnew =>
      have hunseen : o.key ∉ visited := fun hmem => hnew (List.contains_iff_mem.2 hmem)
      have hfresh : unvisited (searchKeys env s start) (o.key :: visited) ≤ n := by
        have := unvisited_cons_lt ho.key (Bool.eq_false_iff.2 hnew)
        omega
      have hbases := baseObjects_inSearch hs ho t ht hst
      have hvalue := baseObjects_value hs o t ht hst
      have hlacks := lacksBase_iff hs o ht hst
      obtain ⟨-, hlike, ht'⟩ := (baseObjects_query o).stable ht ht (CheckState.Like.refl t)
      obtain ⟨hall, hrest⟩ := firstHit_surveys (searchIn_query (some ()) (fun _ => none) n)
        (fun o' visited' t' ht' hst' ho' hfloor =>
          ih (Nat.le_trans (unvisited_mono hfloor) hfresh) ho' ht' hst')
        hbases (List.Subset.refl _) ht' (hst.trans hlike)
      dsimp only
      rw [outcome_bind]
      rw [hvalue] at hrest
      constructor
      · intro hvain
        have hfound : lacksBase env s o = none := by
          have hnone := mt hlacks.2 (hall hvain)
          cases h : lacksBase env s o with
          | none => rfl
          | some _ => exact absurd h hnone
        rcases hrest with ⟨hnone, -⟩ | hrest
        · exact absurd hnone (hall hvain)
        · exact .through hunseen hfound (hrest.vain hvain)
      · intro hhit
        rcases hrest with ⟨hnone, -⟩ | hrest
        · exact ⟨o, List.mem_cons_self, o, .refl, hlacks.1 hnone⟩
        · obtain ⟨b, hb, o', hinherits, hmissing⟩ := hrest.hit hhit
          exact ⟨o, List.mem_cons_self, o', .head hb hinherits, hmissing⟩

end Surveys

/-- All bases of an object are found. -/
def Resolved (env : Env) (s : CheckState) (o : ResolvedObject) : Prop :=
  ∀ base ∈ o.info.bases, ((baseObject base).outcome env s).1.isSome

theorem lacksBase_eq_none (o : ResolvedObject) : lacksBase env s o = none ↔ Resolved env s o := by
  unfold lacksBase Resolved
  simp [Option.isSome_iff_ne_none]

/-- Where keys tell objects apart, the bases of an object, near and far, are found to be known
exactly if they are. -/
theorem chainResolved_iff (hs : s.Faithful env) {D : ResolvedObject → Prop}
    (hD : Keyed (basesOf env s) D) (ho : D o) : ((chainResolved o).outcome env s).1 = true ↔
      ∀ o', Inherits (basesOf env s) o o' → Resolved env s o' := by
  have hsurvey := searchIn_surveys hs (unvisited_le_searchBound env s o [])
    (inSearch_start env s o) hs (CheckState.Like.refl s)
  have hvalue : ((chainResolved o).outcome env s).1 =
      ((searchIn (some ()) (fun _ => none) (searchBound env s o) o []).outcome env s).1.1.isNone :=
    rfl
  rw [hvalue]
  generalize ((searchIn (some ()) _ _ o []).outcome env s).1 = result at hsurvey
  obtain ⟨found?, visited⟩ := result
  cases found? with
  | none =>
    have hnone := mt (((hsurvey.vain rfl).isSome_iff hD ho).2) Bool.false_ne_true
    refine iff_of_true rfl fun o' hinherits => (lacksBase_eq_none o').1 ?_
    cases h : lacksBase env s o' with
    | none => rfl
    | some _ => exact absurd ⟨o', hinherits, Option.isSome_of_eq_some h⟩ hnone
  | some u =>
    obtain ⟨_, hmem, o', hinherits, hmissing⟩ := hsurvey.hit rfl
    rw [List.mem_singleton.1 hmem] at hinherits
    refine iff_of_false Bool.false_ne_true fun hall => ?_
    rw [(lacksBase_eq_none o').2 (hall o' hinherits)] at hmissing
    cases hmissing

/-! ## Methods that are to override -/

/-- Where the names are all the module's own, keys tell apart whatever a name leads to. -/
theorem Alone.apart (h : Alone env s) (ho : Known env s o) : Apart (basesOf env s) o :=
  fun a b ha hb => h.keyed.apart a b (h.keyed.inherits ho ha) (h.keyed.inherits ho hb)

/-- An object that inherits from none of its key is not found to inherit from itself. -/
theorem inheritsItself_of_acyclic (hs : s.Faithful env) (hacyclic : Acyclic (basesOf env s) o)
    (hapart : Apart (basesOf env s) o) : ((inheritsItself o).outcome env s).1 = false := by
  refine Bool.eq_false_iff.2 fun hfound => ?_
  have hcircular := (inheritsItself_iff hs hapart.keyed fun _ hb => .single hb).1 hfound
  exact hacyclic o .refl ((hapart.keyed.circular_iff .refl).1 hcircular)

/-- **Methods that are to override.**  A method is reported as having no base method if it is
declared to override, in a noted object type that is not found to inherit from itself and whose
bases, near and far, are all known, and no base method is found.  In an object type that does not
inherit from itself, and where keys tell apart what it inherits from, that holds if the first
declaration of its name in the bases is none of a method; where no base declares a field of the
name, if no base declares a method of it. -/
theorem missing_methods_reported (resolver? : Option Resolver) (m : Module) :
    let env := Env.ofModule resolver? m
    let s := CheckState.after resolver? m
    let bases := basesOf env s
    (∀ x, x ∈ (analyze resolver? m).diagnostics ∧ x.code = .invalidOverride ↔
      ∃ d ∈ s.objectDecls, ∃ symbol info name method, s.table.symbol? d.symbol = some symbol ∧
        symbol.type = .object info ∧ (name, method) ∈ info.methods ∧ method.isOverride = true ∧
        ((inheritsItself ⟨d.name, info, none⟩).outcome env s).1 = false ∧
        ((chainResolved ⟨d.name, info, none⟩).outcome env s).1 = true ∧
        ((baseMethod ⟨d.name, info, none⟩ name).outcome env s).1 = none ∧
        x = .error .invalidOverride (methodSpan s d symbol.span name)
          s!"OVERRIDE method '{name}' of '{d.name}' has no base method to override") ∧
    ∀ o, Acyclic bases o → Apart bases o →
      ((inheritsItself o).outcome env s).1 = false ∧
      (((chainResolved o).outcome env s).1 = true ↔
        ∀ o', Inherits bases o o' → Resolved env s o') ∧
      ∀ name,
        (∀ base, ((baseMethod o name).outcome env s).1 = some base ↔
          base.kind = .method ∧ Plain bases (·.member? name) (bases o) (some base)) ∧
        ((∀ o', TransGen (HasBase bases) o o' → Members.find? o'.info.fields name = none) →
          (((baseMethod o name).outcome env s).1.isSome ↔ ∃ o', TransGen (HasBase bases) o o' ∧
            (Members.find? o'.info.methods name).isSome)) := by
  intro env s bases
  have hs : s.Faithful env := faithful_after resolver? m
  refine ⟨fun x => ⟨?_, ?_⟩, fun o hacyclic hapart =>
    ⟨inheritsItself_of_acyclic hs hacyclic hapart, chainResolved_iff hs hapart.keyed .refl,
      baseMethod_iff hs hacyclic hapart⟩⟩
  · rintro ⟨hx, hcode⟩
    obtain ⟨d, hd, symbol, info, hsymbol, hinfo, hreport⟩ :=
      (rules_report resolver? m x).1 ⟨hx, by rw [hcode]; decide⟩
    split at hreport
    · rw [hreport] at hcode
      cases hcode
    · next hcircle =>
      obtain ⟨⟨name, method⟩, hmethod, hreport⟩ := hreport
      obtain ⟨hnone, hoverride, hresolved, rfl⟩ := hreport.invalidOverride hcode
      exact ⟨d, hd, symbol, info, name, method, hsymbol, hinfo, hmethod, hoverride,
        Bool.eq_false_iff.2 hcircle, hresolved, hnone, rfl⟩
  · rintro ⟨d, hd, symbol, info, name, method, hsymbol, hinfo, hmethod, hoverride, hcircle,
      hresolved, hnone, rfl⟩
    have hreport : ObjectReport env s d (.error .invalidOverride (methodSpan s d symbol.span name)
        s!"OVERRIDE method '{name}' of '{d.name}' has no base method to override") := by
      refine ⟨symbol, info, hsymbol, hinfo, ?_⟩
      rw [if_neg (Bool.eq_false_iff.1 hcircle)]
      refine ⟨(name, method), hmethod, ?_⟩
      unfold MethodReport
      rw [hnone]
      exact ⟨hoverride, hresolved, rfl⟩
    exact ⟨((rules_report resolver? m _).2 ⟨d, hd, hreport⟩).1, rfl⟩

/-- One method overrides what the base declares, the other has nothing to override. -/
theorem missing_methods_reported_other : ∃ p o span, parseText
      "MODULE M; TYPE B=OBJECT ASK METHOD f; END; D=OBJECT(B) OVERRIDE ASK METHOD f; ASK METHOD g; END; END."
      .strict = .ok p ∧
    let env := Env.ofModule none p.module
    let s := CheckState.after none p.module
    o.name = "D" ∧ Acyclic (basesOf env s) o ∧ Apart (basesOf env s) o ∧
      (∀ o', TransGen (HasBase (basesOf env s)) o o' → Members.find? o'.info.fields "f" = none) ∧
      ((baseMethod o "f").outcome env s).1.isSome ∧
      .error .invalidOverride span "OVERRIDE method 'g' of 'D' has no base method to override" ∈
        (analyze none p.module).diagnostics := by
  -- the state is computed up to the bodies, which is as far as the table is filled
  have hfacts : (parseText
      "MODULE M; TYPE B=OBJECT ASK METHOD f; END; D=OBJECT(B) OVERRIDE ASK METHOD f; ASK METHOD g; END; END."
      .strict).toOption.bind (fun p =>
      let env := Env.ofModule none p.module
      let s := { CheckState.after none p.module with
        table := { (CheckState.declared none p.module).table with
          references := (CheckState.after none p.module).table.references } }
      (s.table.lookupFrom? SymbolTable.root "D").bind fun id =>
        (s.table.symbol? id).bind fun symbol => symbol.type.objectInfo?.map fun info =>
          let bases := basesOf env s ⟨"D", info, none⟩
          decide (symbol.kind = .type ∧
            info.methods.any (fun m => m.1 = "g" && m.2.isOverride) ∧
            info.bases.all (fun base => ((baseObject base).outcome env s).1.isSome) ∧
            bases.any (fun b => (Members.find? b.info.methods "f").isSome) ∧
            bases.all (fun b => b.info.bases.isEmpty && b.info.fields.isEmpty &&
              (Members.find? b.info.methods "g").isNone))) = some true := by
    decide +kernel
  cases hparse : parseText
      "MODULE M; TYPE B=OBJECT ASK METHOD f; END; D=OBJECT(B) OVERRIDE ASK METHOD f; ASK METHOD g; END; END."
      .strict with
  | error e =>
    rw [hparse] at hfacts
    cases hfacts
  | ok p =>
    rw [hparse] at hfacts
    obtain ⟨_, ⟨⟩, hfacts⟩ := Option.bind_eq_some_iff.1 hfacts
    rw [← table_after] at hfacts
    obtain ⟨id, hid, hfacts⟩ := Option.bind_eq_some_iff.1 hfacts
    obtain ⟨symbol, hsymbol, hfacts⟩ := Option.bind_eq_some_iff.1 hfacts
    obtain ⟨info, hinfo, hfacts⟩ := Option.map_eq_some_iff.1 hfacts
    replace hinfo := Ty.objectInfo?_eq_some.1 hinfo
    obtain ⟨hkind, hmethods, hresolved, hf, hbases⟩ := of_decide_eq_true hfacts
    have hnames : NamesType (.after none p.module) "D" symbol := ⟨hkind, id, hid, hsymbol⟩
    have hempty : ∀ b ∈ basesOf (.ofModule none p.module) (.after none p.module)
        ⟨"D", info, none⟩, b.info.bases = [] ∧ b.info.fields = [] ∧
          Members.find? b.info.methods "g" = none := by
      simpa [and_assoc] using List.all_eq_true.1 hbases
    have hbaseless : ∀ b ∈ basesOf (.ofModule none p.module) (.after none p.module)
        ⟨"D", info, none⟩, basesOf (.ofModule none p.module) (.after none p.module) b = [] := by
      intro b hb
      unfold basesOf
      rw [(hempty b hb).1]
      rfl
    have hacyclic := acyclic_of_baseless hbaseless
    have hapart := (alone_after p.module).apart ((alone_after p.module).known hnames hinfo)
    obtain ⟨hreports, hobjects⟩ := missing_methods_reported none p.module
    obtain ⟨hcircle, hchain, hmethod⟩ := hobjects _ hacyclic hapart
    have hfields (name : String) : ∀ o', TransGen (HasBase (basesOf (.ofModule none p.module)
        (.after none p.module))) ⟨"D", info, none⟩ o' →
        Members.find? o'.info.fields name = none := by
      intro o' ho'
      rw [(hempty o' (base_of_baseless hbaseless ho')).2.1]
      rfl
    obtain ⟨b, hb, hf⟩ := List.any_eq_true.1 hf
    have hfound := ((hmethod "f").2 (hfields "f")).2 ⟨b, .single hb, hf⟩
    have hmissing : ((baseMethod ⟨"D", info, none⟩ "g").outcome (.ofModule none p.module)
        (.after none p.module)).1 = none := by
      refine Option.not_isSome_iff_eq_none.1 fun hsome => ?_
      obtain ⟨o', ho', hg⟩ := ((hmethod "g").2 (hfields "g")).1 hsome
      rw [(hempty o' (base_of_baseless hbaseless ho')).2.2] at hg
      cases hg
    have hknown := hchain.2 fun o' ho' => by
      rcases Relation.reflTransGen_iff_eq_or_transGen.1 ho' with rfl | ho'
      · exact List.all_eq_true.1 hresolved
      · unfold Resolved
        rw [(hempty o' (base_of_baseless hbaseless ho')).1]
        exact List.forall_mem_nil _
    obtain ⟨⟨name, method⟩, hmem, hg⟩ := List.any_eq_true.1 hmethods
    obtain ⟨hg, hoverride⟩ := Bool.and_eq_true_iff.1 hg
    obtain rfl : name = "g" := of_decide_eq_true hg
    obtain ⟨d, hd, hname, hdeclared⟩ := hnames.noted hinfo
    rw [← hname] at hcircle hknown hmissing
    have hreport := (hreports (.error .invalidOverride (methodSpan (.after none p.module) d
      symbol.span "g") "OVERRIDE method 'g' of 'D' has no base method to override")).2
      ⟨d, hd, symbol, info, "g", method, hdeclared, hinfo, hmem, hoverride, hcircle, hknown,
        hmissing, by rw [hname]; rfl⟩
    exact ⟨p, _, _, rfl, rfl, hacyclic, hapart, hfields "f", hfound, hreport.1⟩

/-! ## Modules on their own -/

end Check

end SimFront
