import Mathlib.Logic.Relation
import SimFront.Check.Inheritance

/-!
# Searches through a hierarchy of objects

`Visits` says what a search comes to that goes through objects and their bases and through no
key twice, and `Plain` the same of a search that looks out for nothing.  Where keys tell the
objects apart, the first one misses nothing that stands anywhere in the hierarchy, though it may
run in circles (`Visits.isSome_iff`).  Where it does not run in circles, both come to the same
(`Visits.plain_iff`): what is passed over as visited was searched in vain before.
-/

namespace SimFront.Hierarchy

open Relation (ReflTransGen TransGen)

variable {α : Type}

/-- The second object is a base of the first. -/
def HasBase (bases : ResolvedObject → List ResolvedObject) (o o' : ResolvedObject) : Prop :=
  o' ∈ bases o

/-- The second object is the first one, a base of it, a base of a base and so on. -/
abbrev Inherits (bases : ResolvedObject → List ResolvedObject) :
    ResolvedObject → ResolvedObject → Prop :=
  ReflTransGen (HasBase bases)

/-- No object that is inherited from inherits from itself in turn. -/
def Acyclic (bases : ResolvedObject → List ResolvedObject) (o : ResolvedObject) : Prop :=
  ∀ o', Inherits bases o o' → ¬ TransGen (HasBase bases) o' o'

/-- Some objects are gone through, each before its bases, up to the first hit.  Keys that were
visited are left out, and the keys on the way are visited. -/
inductive Visits (bases : ResolvedObject → List ResolvedObject)
    (hit? : ResolvedObject → Option α) :
    List ResolvedObject → List String → Option α → List String → Prop where
  | done {visited : List String} : Visits bases hit? [] visited none visited
  | seen {o : ResolvedObject} {os : List ResolvedObject} {visited visited' : List String}
      {found? : Option α} (seen : o.key ∈ visited)
      (rest : Visits bases hit? os visited found? visited') :
      Visits bases hit? (o :: os) visited found? visited'
  | own {o : ResolvedObject} {os : List ResolvedObject} {visited : List String} {found : α}
      (unseen : o.key ∉ visited) (hit : hit? o = some found) :
      Visits bases hit? (o :: os) visited (some found) (o.key :: visited)
  | inherited {o : ResolvedObject} {os : List ResolvedObject} {visited visited' : List String}
      {found : α} (unseen : o.key ∉ visited) (miss : hit? o = none)
      (below : Visits bases hit? (bases o) (o.key :: visited) (some found) visited') :
      Visits bases hit? (o :: os) visited (some found) visited'
  | further {o : ResolvedObject} {os : List ResolvedObject}
      {visited visited' visited'' : List String} {found? : Option α}
      (unseen : o.key ∉ visited) (miss : hit? o = none)
      (below : Visits bases hit? (bases o) (o.key :: visited) none visited')
      (rest : Visits bases hit? os visited' found? visited'') :
      Visits bases hit? (o :: os) visited found? visited''

/-- Some objects are gone through, each before its bases, up to the first hit. -/
inductive Plain (bases : ResolvedObject → List ResolvedObject)
    (hit? : ResolvedObject → Option α) : List ResolvedObject → Option α → Prop where
  | done : Plain bases hit? [] none
  | own {o : ResolvedObject} {os : List ResolvedObject} {found : α} (hit : hit? o = some found) :
      Plain bases hit? (o :: os) (some found)
  | inherited {o : ResolvedObject} {os : List ResolvedObject} {found : α} (miss : hit? o = none)
      (below : Plain bases hit? (bases o) (some found)) : Plain bases hit? (o :: os) (some found)
  | further {o : ResolvedObject} {os : List ResolvedObject} {found? : Option α}
      (miss : hit? o = none) (below : Plain bases hit? (bases o) none)
      (rest : Plain bases hit? os found?) : Plain bases hit? (o :: os) found?

/-- Bases of such objects are such objects, and their keys tell them apart. -/
structure Keyed (bases : ResolvedObject → List ResolvedObject) (D : ResolvedObject → Prop) :
    Prop where
  closed : ∀ o, D o → ∀ o' ∈ bases o, D o'
  apart : ∀ o o', D o → D o' → o.key = o'.key → o = o'

variable {bases : ResolvedObject → List ResolvedObject} {hit? : ResolvedObject → Option α}
  {D : ResolvedObject → Prop} {o : ResolvedObject} {os : List ResolvedObject}
  {visited visited' visited'' : List String} {found? : Option α}

/-! ## One object after the other -/

namespace Visits

/-- A search goes on where one came to nothing. -/
theorem cons (h : Visits bases hit? [o] visited none visited')
    (h' : Visits bases hit? os visited' found? visited'') :
    Visits bases hit? (o :: os) visited found? visited'' := by
  cases h with
  | seen seen rest =>
    cases rest
    exact .seen seen h'
  | further unseen miss below rest =>
    cases rest
    exact .further unseen miss below h'

/-- After a hit no more is searched. -/
theorem stop {found : α} (h : Visits bases hit? [o] visited (some found) visited') :
    Visits bases hit? (o :: os) visited (some found) visited' := by
  cases h with
  | seen seen rest => cases rest
  | own unseen hit => exact .own unseen hit
  | inherited unseen miss below => exact .inherited unseen miss below
  | further unseen miss below rest => cases rest

/-- The search of one object is the one through its bases, unless it is a hit itself. -/
theorem through (unseen : o.key ∉ visited) (miss : hit? o = none)
    (h : Visits bases hit? (bases o) (o.key :: visited) found? visited') :
    Visits bases hit? [o] visited found? visited' := by
  cases found? with
  | none => exact .further unseen miss h .done
  | some found => exact .inherited unseen miss h

theorem subset (h : Visits bases hit? os visited found? visited') : visited ⊆ visited' := by
  induction h with
  | done => exact List.Subset.refl _
  | seen _ _ ih => exact ih
  | own _ _ => exact List.subset_cons_self _ _
  | inherited _ _ _ ih => exact List.Subset.trans (List.subset_cons_self _ _) ih
  | further _ _ _ _ ihbelow ihrest =>
    exact List.Subset.trans (List.subset_cons_self _ _) (List.Subset.trans ihbelow ihrest)

end Visits

namespace Plain

theorem cons (h : Plain bases hit? [o] none) (h' : Plain bases hit? os found?) :
    Plain bases hit? (o :: os) found? := by
  cases h with
  | further miss below _ => exact .further miss below h'

/-- A plain search comes to one end at most. -/
theorem unique {other? : Option α} (h : Plain bases hit? os found?)
    (h' : Plain bases hit? os other?) : found? = other? := by
  induction h generalizing other? with
  | done =>
    cases h'
    rfl
  | own hit =>
    cases h' with
    | own hit' => rw [← hit, hit']
    | inherited miss' _ => exact absurd (hit.symm.trans miss') (by simp)
    | further miss' _ _ => exact absurd (hit.symm.trans miss') (by simp)
  | inherited miss _ ih =>
    cases h' with
    | own hit' => exact absurd (miss.symm.trans hit') (by simp)
    | inherited _ below' => exact ih below'
    | further _ below' _ => exact nomatch ih below'
  | further miss _ _ ihbelow ihrest =>
    cases h' with
    | own hit' => exact absurd (miss.symm.trans hit') (by simp)
    | inherited _ below' => exact nomatch ihbelow below'
    | further _ _ rest' => exact ihrest rest'

end Plain

/-! ## Hits -/

theorem Keyed.inherits (hD : Keyed bases D) {o' : ResolvedObject} (ho : D o)
    (h : Inherits bases o o') : D o' := by
  induction h with
  | refl => exact ho
  | tail _ hbase ih => exact hD.closed _ ih _ hbase

namespace Visits

/-- What is found stands somewhere in the hierarchy. -/
theorem exists_hit {found : α} (h : Visits bases hit? os visited (some found) visited') :
    ∃ o ∈ os, ∃ o', Inherits bases o o' ∧ hit? o' = some found := by
  generalize hfound : some found = found? at h
  induction h with
  | done => cases hfound
  | seen _ _ ih =>
    obtain ⟨o, ho, hhit⟩ := ih hfound
    exact ⟨o, List.mem_cons_of_mem _ ho, hhit⟩
  | @own o _ _ _ _ hit => exact ⟨o, List.mem_cons_self, o, .refl, hfound ▸ hit⟩
  | @inherited o _ _ _ _ _ _ _ ih =>
    obtain ⟨b, hb, o', hinherits, hhit⟩ := ih hfound
    exact ⟨o, List.mem_cons_self, o', .head hb hinherits, hhit⟩
  | further _ _ _ _ _ ih =>
    obtain ⟨o, ho, hhit⟩ := ih hfound
    exact ⟨o, List.mem_cons_of_mem _ ho, hhit⟩

/-- After a search in vain all its objects are visited, and whoever was visited on the way has no
hit and bases that are visited as well. -/
theorem exhausts (hD : Keyed bases D) (h : Visits bases hit? os visited found? visited')
    (hfound : found? = none) (hos : ∀ o ∈ os, D o) :
    (∀ o ∈ os, o.key ∈ visited') ∧ ∀ x, D x → x.key ∈ visited' →
      x.key ∈ visited ∨ hit? x = none ∧ ∀ b ∈ bases x, b.key ∈ visited' := by
  induction h with
  | done => exact ⟨List.forall_mem_nil _, fun _ _ hx => .inl hx⟩
  | seen seen rest ih =>
    obtain ⟨-, hos⟩ := List.forall_mem_cons.1 hos
    obtain ⟨hall, hclosed⟩ := ih hfound hos
    exact ⟨List.forall_mem_cons.2 ⟨rest.subset seen, hall⟩, hclosed⟩
  | own _ _ => cases hfound
  | inherited _ _ _ _ => cases hfound
  | @further o os visited visited' visited'' _ _ miss below rest ihbelow ihrest =>
    obtain ⟨ho, hos⟩ := List.forall_mem_cons.1 hos
    obtain ⟨hbases, hclosed⟩ := ihbelow rfl (hD.closed o ho)
    obtain ⟨hall, hclosed'⟩ := ihrest hfound hos
    have hkept := rest.subset
    refine ⟨List.forall_mem_cons.2 ⟨hkept (below.subset List.mem_cons_self), hall⟩, ?_⟩
    intro x hx hkey
    rcases hclosed' x hx hkey with hkey | hdone
    · rcases hclosed x hx hkey with hkey | ⟨hmiss, hsub⟩
      · rcases List.mem_cons.1 hkey with hkey | hkey
        · obtain rfl := hD.apart x o hx ho hkey
          exact .inr ⟨miss, fun b hb => hkept (hbases b hb)⟩
        · exact .inl hkey
      · exact .inr ⟨hmiss, fun b hb => hkept (hsub b hb)⟩
    · exact .inr hdone

/-- A search that starts with nothing visited finds something exactly if there is something to be
found, be there circles or not. -/
theorem isSome_iff (hD : Keyed bases D) (h : Visits bases hit? [o] [] found? visited')
    (ho : D o) : found?.isSome ↔ ∃ o', Inherits bases o o' ∧ (hit? o').isSome := by
  cases found? with
  | some found =>
    obtain ⟨_, hmem, o', hinherits, hhit⟩ := h.exists_hit
    rw [List.mem_singleton.1 hmem] at hinherits
    exact iff_of_true rfl ⟨o', hinherits, Option.isSome_of_eq_some hhit⟩
  | none =>
    obtain ⟨hall, hclosed⟩ := h.exhausts hD rfl (List.forall_mem_singleton.2 ho)
    have hdone {x : ResolvedObject} (hx : D x) (hkey : x.key ∈ visited') :
        hit? x = none ∧ ∀ b ∈ bases x, b.key ∈ visited' :=
      (hclosed x hx hkey).resolve_left List.not_mem_nil
    have hvisited {o' : ResolvedObject} (h : Inherits bases o o') : o'.key ∈ visited' := by
      induction h with
      | refl => exact hall o (List.mem_singleton.2 rfl)
      | tail hinherits hbase ih => exact (hdone (hD.inherits ho hinherits) ih).2 _ hbase
    refine iff_of_false Bool.false_ne_true ?_
    rintro ⟨o', hinherits, hhit⟩
    rw [(hdone (hD.inherits ho hinherits) (hvisited hinherits)).1] at hhit
    cases hhit

end Visits

/-! ## Hierarchies without circles -/

theorem Acyclic.base (h : Acyclic bases o) {b : ResolvedObject} (hb : b ∈ bases o) :
    Acyclic bases b := fun o' hinherits => h o' (.head hb hinherits)

/-- Every way along the bases of an object ends before so many steps. -/
def ends (bases : ResolvedObject → List ResolvedObject) : Nat → ResolvedObject → Bool
  | 0, _ => false
  | n + 1, o => (bases o).all (ends bases n)

/-- The ways from an object that is inherited from end sooner. -/
theorem ends_of_inherited {n : Nat} {o' : ResolvedObject} (h : ends bases n o)
    (hinherits : TransGen (HasBase bases) o o') : ∃ k < n, ends bases k o' := by
  have hbase {o : ResolvedObject} {n : Nat} (h : ends bases n o) {b : ResolvedObject}
      (hb : b ∈ bases o) : ∃ k < n, ends bases k b := by
    cases n with
    | zero => cases h
    | succ n => exact ⟨n, Nat.lt_succ_self n, List.all_eq_true.1 h b hb⟩
  induction hinherits with
  | single hb => exact hbase h hb
  | tail _ hb ih =>
    obtain ⟨k, hk, h⟩ := ih
    obtain ⟨k', hk', h⟩ := hbase h hb
    exact ⟨k', Nat.lt_trans hk' hk, h⟩

/-- Where all ways end, there are no circles. -/
theorem acyclic_of_ends {n : Nat} (h : ends bases n o) : Acyclic bases o := by
  intro o' hinherits hcircle
  have never (k : Nat) : ¬ ends bases k o' := by
    induction k using Nat.strongRecOn with
    | ind k ih =>
      intro h
      obtain ⟨k', hk', h⟩ := ends_of_inherited h hcircle
      exact ih k' hk' h
  rcases Relation.reflTransGen_iff_eq_or_transGen.1 hinherits with rfl | hinherits
  · exact never n h
  · obtain ⟨k, -, h⟩ := ends_of_inherited h hinherits
    exact never k h

/-- An object that does not inherit from itself is not met again below its bases. -/
theorem Acyclic.spent_below (h : Acyclic bases o) (hD : Keyed bases D) (ho : D o)
    {P : ResolvedObject → Prop} (hspent : ∀ x, Inherits bases o x → x.key ∈ visited → P x) :
    ∀ b ∈ bases o, ∀ x, Inherits bases b x → x.key ∈ o.key :: visited → P x := by
  intro b hb x hinherits hkey
  have hx : Inherits bases o x := .head hb hinherits
  rcases List.mem_cons.1 hkey with hkey | hkey
  · obtain rfl := hD.apart x o (hD.inherits ho hx) ho hkey
    exact absurd (.head' hb hinherits) (h x .refl)
  · exact hspent x hx hkey

/-- If whatever is passed over as visited was searched in vain, the search comes to what a plain
one does; what is visited after a search in vain was searched in vain as well. -/
theorem Visits.plain (hD : Keyed bases D) (h : Visits bases hit? os visited found? visited')
    (hos : ∀ o ∈ os, D o ∧ Acyclic bases o)
    (hspent : ∀ o ∈ os, ∀ x, Inherits bases o x → x.key ∈ visited → Plain bases hit? [x] none) :
    Plain bases hit? os found? ∧ (found? = none → ∀ x, D x → x.key ∈ visited' →
      x.key ∈ visited ∨ Plain bases hit? [x] none) := by
  induction h with
  | done => exact ⟨.done, fun _ _ _ hx => .inl hx⟩
  | seen seen _ ih =>
    obtain ⟨hspent, hspents⟩ := List.forall_mem_cons.1 hspent
    obtain ⟨hplain, hafter⟩ := ih (List.forall_mem_cons.1 hos).2 hspents
    exact ⟨(hspent _ .refl seen).cons hplain, hafter⟩
  | own _ hit => exact ⟨.own hit, nofun⟩
  | inherited _ miss _ ih =>
    obtain ⟨ho, -⟩ := List.forall_mem_cons.1 hos
    obtain ⟨hplain, -⟩ := ih (fun b hb => ⟨hD.closed _ ho.1 b hb, ho.2.base hb⟩)
      (ho.2.spent_below hD ho.1 (List.forall_mem_cons.1 hspent).1)
    exact ⟨.inherited miss hplain, nofun⟩
  | @further o os visited visited' visited'' _ _ miss _ _ ihbelow ihrest =>
    obtain ⟨ho, hos⟩ := List.forall_mem_cons.1 hos
    obtain ⟨hspent, hspents⟩ := List.forall_mem_cons.1 hspent
    obtain ⟨hbelow, hafter⟩ := ihbelow (fun b hb => ⟨hD.closed _ ho.1 b hb, ho.2.base hb⟩)
      (ho.2.spent_below hD ho.1 hspent)
    -- what was visited below the object, and the object itself, was searched in vain
    have hvain (x : ResolvedObject) (hx : D x) (hkey : x.key ∈ visited') :
        x.key ∈ visited ∨ Plain bases hit? [x] none := by
      rcases hafter rfl x hx hkey with hkey | hplain
      · rcases List.mem_cons.1 hkey with hkey | hkey
        · obtain rfl := hD.apart x o hx ho.1 hkey
          exact .inr (.further miss hbelow .done)
        · exact .inl hkey
      · exact .inr hplain
    obtain ⟨hplain, hafter'⟩ := ihrest hos fun o' ho' x hinherits hkey =>
      (hvain x (hD.inherits (hos o' ho').1 hinherits) hkey).elim
        (hspents o' ho' x hinherits) id
    refine ⟨.further miss hbelow hplain, fun hfound x hx hkey => ?_⟩
    exact (hafter' hfound x hx hkey).elim (hvain x hx) .inr

end SimFront.Hierarchy
