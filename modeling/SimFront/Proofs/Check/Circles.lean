import SimFront.Proofs.Check.Inherited
import SimFront.Proofs.Check.Rules

/-!
# Circles of inheritance

Whether an object type inherits from itself is searched with a stack, and objects are told apart
by the names that they are reached under (`Seeks`).  The search comes to an end, and it finds what
there is to find: an object of the same key among those that are inherited from
(`inheritsItself_iff`).  A module on its own is told of the circles that its object types are in,
where a circle leads back to the very name that it started from (`circles_reported`).  One that
leads back to the type under another name, an alias, is none.
-/

namespace SimFront

/-- What an object type says of its objects. -/
def Ty.objectInfo? : Ty → Option ObjectInfo
  | .object info => some info
  | _ => none

theorem Ty.objectInfo?_eq_some {t : Ty} {info : ObjectInfo} :
    t.objectInfo? = some info ↔ t = .object info := by
  cases t <;> simp [Ty.objectInfo?]

namespace Hierarchy

open Relation (ReflTransGen TransGen)

/-- An object of the same key is inherited from. -/
def Circular (bases : ResolvedObject → List ResolvedObject) (o : ResolvedObject) : Prop :=
  ∃ o', TransGen (HasBase bases) o o' ∧ o'.key = o.key

/-- The objects on a stack are gone through, and the bases of each are put on top of the others,
until one has the key.  Keys that were visited are left out. -/
inductive Seeks (bases : ResolvedObject → List ResolvedObject) (key : String) :
    List ResolvedObject → List String → Bool → Prop where
  | done {visited : List String} : Seeks bases key [] visited false
  | hit {o : ResolvedObject} {stack : List ResolvedObject} {visited : List String} :
      o.key = key → Seeks bases key (o :: stack) visited true
  | seen {o : ResolvedObject} {stack : List ResolvedObject} {visited : List String} {found : Bool} :
      o.key ≠ key → o.key ∈ visited → Seeks bases key stack visited found →
      Seeks bases key (o :: stack) visited found
  | push {o : ResolvedObject} {stack : List ResolvedObject} {visited : List String} {found : Bool} :
      o.key ≠ key → o.key ∉ visited →
      Seeks bases key ((bases o).reverse ++ stack) (o.key :: visited) found →
      Seeks bases key (o :: stack) visited found

variable {bases : ResolvedObject → List ResolvedObject} {D : ResolvedObject → Prop}
  {key : String} {o : ResolvedObject} {stack : List ResolvedObject} {visited : List String}
  {found : Bool}

/-- What is found is inherited from by an object on the stack. -/
theorem Seeks.exists_hit (h : Seeks bases key stack visited found) (hfound : found = true) :
    ∃ o ∈ stack, ∃ o', Inherits bases o o' ∧ o'.key = key := by
  induction h with
  | done => cases hfound
  | @hit o _ _ hkey => exact ⟨o, List.mem_cons_self, o, .refl, hkey⟩
  | seen _ _ _ ih =>
    obtain ⟨o, ho, hhit⟩ := ih hfound
    exact ⟨o, List.mem_cons_of_mem _ ho, hhit⟩
  | @push o stack _ _ _ _ _ ih =>
    obtain ⟨x, hx, o', hinherits, hkey⟩ := ih hfound
    rcases List.mem_append.1 hx with hx | hx
    · exact ⟨o, List.mem_cons_self, o', .head (List.mem_reverse.1 hx) hinherits, hkey⟩
    · exact ⟨x, List.mem_cons_of_mem _ hx, o', hinherits, hkey⟩

/-- After a search in vain the keys that were come to leave out the one that was sought, and they
are closed under bases, if those of the objects visited at first were on the stack or visited. -/
theorem Seeks.exhausts (hD : Keyed bases D) (h : Seeks bases key stack visited found)
    (hfound : found = false) (hstack : ∀ o ∈ stack, D o) (hkey : key ∉ visited)
    (hvisited : ∀ x, D x → x.key ∈ visited → ∀ b ∈ bases x, b ∈ stack ∨ b.key ∈ visited) :
    ∃ keys : List String, key ∉ keys ∧ visited ⊆ keys ∧ (∀ o ∈ stack, o.key ∈ keys) ∧
      ∀ x, D x → x.key ∈ keys → ∀ b ∈ bases x, b.key ∈ keys := by
  induction h with
  | @done visited =>
    refine ⟨visited, hkey, List.Subset.refl _, List.forall_mem_nil _, fun x hx hmem b hb => ?_⟩
    exact (hvisited x hx hmem b hb).resolve_left List.not_mem_nil
  | hit _ => cases hfound
  | @seen o stack visited _ _ hseen _ ih =>
    obtain ⟨-, hrest⟩ := List.forall_mem_cons.1 hstack
    obtain ⟨keys, hnot, hsub, hall, hclosed⟩ := ih hfound hrest hkey fun x hx hmem b hb => by
      rcases hvisited x hx hmem b hb with hb | hb
      · rcases List.mem_cons.1 hb with rfl | hb
        · exact .inr hseen
        · exact .inl hb
      · exact .inr hb
    exact ⟨keys, hnot, hsub, List.forall_mem_cons.2 ⟨hsub hseen, hall⟩, hclosed⟩
  | @push o stack visited _ hne _ _ ih =>
    obtain ⟨ho, hrest⟩ := List.forall_mem_cons.1 hstack
    have hpushed : ∀ x ∈ (bases o).reverse ++ stack, D x := fun x hx =>
      (List.mem_append.1 hx).elim (fun hx => hD.closed o ho x (List.mem_reverse.1 hx)) (hrest x)
    have hnot' : key ∉ o.key :: visited := fun hmem =>
      (List.mem_cons.1 hmem).elim (fun h => hne h.symm) hkey
    obtain ⟨keys, hnot, hsub, hall, hclosed⟩ := ih hfound hpushed hnot' fun x hx hmem b hb => by
      rcases List.mem_cons.1 hmem with hmem | hmem
      · -- the keys tell the objects apart, so the bases of this one are on the stack
        obtain rfl := hD.apart x o hx ho hmem
        exact .inl (List.mem_append_left _ (List.mem_reverse.2 hb))
      · rcases hvisited x hx hmem b hb with hb | hb
        · rcases List.mem_cons.1 hb with rfl | hb
          · exact .inr List.mem_cons_self
          · exact .inl (List.mem_append_right _ hb)
        · exact .inr (List.mem_cons_of_mem _ hb)
    obtain ⟨hkept, hsub⟩ := List.cons_subset.1 hsub
    exact ⟨keys, hnot, hsub, List.forall_mem_cons.2
      ⟨hkept, fun x hx => hall x (List.mem_append_right _ hx)⟩, hclosed⟩

/-- The search from the bases of an object finds out whether an object of its key is inherited
from. -/
theorem Seeks.iff_circular (hD : Keyed bases D) (ho : ∀ b ∈ bases o, D b)
    (h : Seeks bases o.key (bases o).reverse [] found) : found = true ↔ Circular bases o := by
  constructor
  · intro hfound
    obtain ⟨b, hb, o', hinherits, hkey⟩ := h.exists_hit hfound
    exact ⟨o', .head' (List.mem_reverse.1 hb) hinherits, hkey⟩
  · rintro ⟨o', hinherits, hkey⟩
    by_contra hfound
    obtain ⟨keys, hnot, -, hall, hclosed⟩ := h.exhausts hD (Bool.eq_false_iff.2 hfound)
      (fun b hb => ho b (List.mem_reverse.1 hb)) List.not_mem_nil
      fun _ _ hmem => absurd hmem List.not_mem_nil
    have hkeys {x : ResolvedObject} (hx : TransGen (HasBase bases) o x) : D x ∧ x.key ∈ keys := by
      induction hx with
      | single hb => exact ⟨ho _ hb, hall _ (List.mem_reverse.2 hb)⟩
      | tail _ hb ih => exact ⟨hD.closed _ ih.1 _ hb, hclosed _ ih.1 ih.2 _ hb⟩
    exact hnot (hkey ▸ (hkeys hinherits).2)

/-- An object that its key tells apart inherits from itself if it does so from one of its key. -/
theorem Keyed.circular_iff (hD : Keyed bases D) (ho : D o) :
    Circular bases o ↔ TransGen (HasBase bases) o o := by
  refine ⟨fun ⟨o', hinherits, hkey⟩ => ?_, fun h => ⟨o, h, rfl⟩⟩
  obtain rfl := hD.apart o' o (hD.inherits ho hinherits.to_reflTransGen) ho hkey
  exact hinherits

end Hierarchy

namespace Check

open Hierarchy (Circular HasBase Keyed Seeks)
open Relation (TransGen)

variable {env : Env} {s : CheckState}

/-! ## The search -/

/-- A search that may go deep enough goes through all objects on the stack and their bases. -/
theorem reaches_seeks (hs : s.Faithful env) {start : ResolvedObject} (key : String) {n : Nat}
    {stack : List ResolvedObject} {visited : List String}
    (hn : unvisited (searchKeys env s start) visited ≤ n)
    (hstack : ∀ o ∈ stack, InSearch env s start o) {t : CheckState} (ht : t.Faithful env)
    (hst : s.Like t) :
    Seeks (basesOf env s) key stack visited ((reaches key n stack visited).outcome env t).1 := by
  induction n, stack, visited using reaches.induct key generalizing t with
  | case1 n visited =>
    unfold reaches
    exact .done
  | case2 n o stack visited hkey =>
    unfold reaches
    rw [if_pos hkey]
    exact .hit hkey
  | case3 n o stack visited hkey hseen ih =>
    unfold reaches
    rw [if_neg hkey, if_pos hseen]
    exact .seen hkey (List.contains_iff_mem.1 hseen)
      (ih hn (fun o' ho' => hstack o' (.tail _ ho')) ht hst)
  | case4 o stack visited hkey hseen =>
    exact absurd (visited_of_unvisited_eq_zero (Nat.le_zero.1 hn) (hstack o (.head _)).key) hseen
  | case5 o stack visited hkey hseen n ih =>
    have ho := hstack o (.head _)
    have hbases := baseObjects_inSearch hs ho t ht hst
    have hvalue := baseObjects_value hs o t ht hst
    obtain ⟨-, hlike, ht'⟩ := (baseObjects_query o).stable ht ht (CheckState.Like.refl t)
    have hfresh := unvisited_cons_lt ho.key (Bool.eq_false_iff.2 hseen)
    unfold reaches
    rw [if_neg hkey, if_neg hseen]
    refine .push hkey (fun hmem => hseen (List.contains_iff_mem.2 hmem)) ?_
    rw [← hvalue]
    refine ih _ (by omega) (fun o' ho' => ?_) ht' (hst.trans hlike)
    rcases List.mem_append.1 ho' with ho' | ho'
    · obtain ⟨o?, ho?, hsome⟩ := List.mem_filterMap.1 (List.mem_reverse.1 ho')
      exact hbases o? ho? o' hsome
    · exact hstack o' (.tail _ ho')

/-- Where keys tell objects apart, an object type is found to inherit from itself exactly if
an object of its key is inherited from. -/
theorem inheritsItself_iff (hs : s.Faithful env) {D : ResolvedObject → Prop}
    (hD : Keyed (basesOf env s) D) {o : ResolvedObject} (ho : ∀ b ∈ basesOf env s o, D b) :
    ((inheritsItself o).outcome env s).1 = true ↔ Circular (basesOf env s) o := by
  have hbases := baseObjects_inSearch hs (inSearch_start env s o) s hs (CheckState.Like.refl s)
  have hvalue := baseObjects_value hs o s hs (CheckState.Like.refl s)
  obtain ⟨-, hlike, hs'⟩ := (baseObjects_query o).stable hs hs (CheckState.Like.refl s)
  have hseeks : Seeks (basesOf env s) o.key (basesOf env s o).reverse []
      ((inheritsItself o).outcome env s).1 := by
    rw [← hvalue]
    refine reaches_seeks hs o.key (unvisited_le_searchBound env s o []) (fun o' ho' => ?_) hs' hlike
    obtain ⟨o?, ho?, hsome⟩ := List.mem_filterMap.1 (List.mem_reverse.1 ho')
    exact hbases o? ho? o' hsome
  exact hseeks.iff_circular hD ho

/-! ## Modules on their own -/

/-- The bases of any object are found by name. -/
theorem known_of_mem_basesOf {o b : ResolvedObject} (hb : b ∈ basesOf env s o) : Known env s b := by
  obtain ⟨base, -, hbase⟩ := List.mem_filterMap.1 hb
  cases base with
  | named module? name => exact ⟨module?, name, hbase⟩
  | _ => exact ⟨none, "", hbase⟩

/-- An object type that a module on its own declares is noted under its name. -/
theorem NamesType.noted {m : Module} {name : String} {symbol : Symbol} {info : ObjectInfo}
    (h : NamesType (.after none m) name symbol) (hinfo : symbol.type = .object info) :
    ∃ d ∈ (CheckState.after none m).objectDecls, d.name = name ∧
      (CheckState.after none m).table.symbol? d.symbol = some symbol := by
  obtain ⟨hkind, id, hid, hsymbol⟩ := h
  have hnoted := noted_after none m
  obtain ⟨d, hd, rfl⟩ :=
    hnoted.noted id ⟨symbol, info, hsymbol, hkind, ownTypes_after m hsymbol hkind, hinfo⟩
  obtain ⟨symbol', hsymbol', hname⟩ := hnoted.named d hd
  obtain ⟨other, hother, hdeclared⟩ := (reachable_after none m).1.consistent.of_declares
    (SymbolTable.declares_of_lookupFrom? hid)
  rw [hsymbol] at hsymbol' hother
  obtain rfl := Option.some.inj hsymbol'
  obtain rfl := Option.some.inj hother
  exact ⟨d, hd, hname.symm.trans hdeclared, hsymbol⟩

/-- **Circles of inheritance.**  In a module that is analysed without a resolver, circles are
reported on the object types that were noted, and on each just if it inherits from an object that is
reached under its name.  Every object type that is declared at module level is noted under its
name; there nothing else is reached under it, so that this object is the type itself. -/
theorem circles_reported (m : Module) :
    let s := CheckState.after none m
    let bases := basesOf (.ofModule none m) s
    (∀ x, x ∈ (analyze none m).diagnostics ∧ x.code = .circularInheritance ↔
      ∃ d ∈ s.objectDecls, ∃ symbol info, s.table.symbol? d.symbol = some symbol ∧
        symbol.type = .object info ∧ Circular bases ⟨d.name, info, none⟩ ∧
        x = .error .circularInheritance symbol.span
          s!"object type '{d.name}' inherits from itself") ∧
    ∀ name symbol info, NamesType s name symbol → symbol.type = .object info →
      (∃ d ∈ s.objectDecls, d.name = name ∧ s.table.symbol? d.symbol = some symbol) ∧
      (Circular bases ⟨name, info, none⟩ ↔
        TransGen (HasBase bases) ⟨name, info, none⟩ ⟨name, info, none⟩) := by
  intro s bases
  have halone := alone_after m
  have hcircular (o : ResolvedObject) :
      ((inheritsItself o).outcome (.ofModule none m) s).1 = true ↔ Circular bases o :=
    inheritsItself_iff halone.faithful halone.keyed fun b hb => known_of_mem_basesOf hb
  refine ⟨fun x => ⟨?_, ?_⟩, fun name symbol info hsymbol hinfo =>
    ⟨hsymbol.noted hinfo, halone.keyed.circular_iff (halone.known hsymbol hinfo)⟩⟩
  · rintro ⟨hx, hcode⟩
    obtain ⟨d, hd, symbol, info, hsymbol, hinfo, hreport⟩ :=
      (rules_report none m x).1 ⟨hx, by rw [hcode]; decide⟩
    split at hreport
    · next h => exact ⟨d, hd, symbol, info, hsymbol, hinfo, (hcircular _).1 h, hreport⟩
    · obtain ⟨method, -, hmethod⟩ := hreport
      have hmem := hmethod.mem_methodCodes
      rw [hcode] at hmem
      exact absurd hmem (by decide)
  · rintro ⟨d, hd, symbol, info, hsymbol, hinfo, hbases, rfl⟩
    have hreport : ObjectReport (.ofModule none m) s d (.error .circularInheritance symbol.span
        s!"object type '{d.name}' inherits from itself") := by
      refine ⟨symbol, info, hsymbol, hinfo, ?_⟩
      rw [if_pos ((hcircular _).2 hbases)]
    exact ⟨((rules_report none m _).2 ⟨d, hd, hreport⟩).1, rfl⟩

/-- Two object types that inherit from each other. -/
theorem circles_reported_mutual : ∃ p symbol info, parseText
      "MODULE M; TYPE A=OBJECT(B) END; B=OBJECT(A) END; END." .strict = .ok p ∧
    NamesType (.after none p.module) "A" symbol ∧ symbol.type = .object info ∧
    TransGen (HasBase (basesOf (.ofModule none p.module) (.after none p.module)))
      ⟨"A", info, none⟩ ⟨"A", info, none⟩ ∧
    .error .circularInheritance symbol.span "object type 'A' inherits from itself" ∈
      (analyze none p.module).diagnostics := by
  -- the state is computed up to the bodies, which is as far as the table is filled
  have hfacts : (parseText "MODULE M; TYPE A=OBJECT(B) END; B=OBJECT(A) END; END."
      .strict).toOption.bind (fun p =>
      let env := Env.ofModule none p.module
      let s := { CheckState.after none p.module with
        table := { (CheckState.declared none p.module).table with
          references := (CheckState.after none p.module).table.references } }
      (s.table.lookupFrom? SymbolTable.root "A").bind fun id =>
        (s.table.symbol? id).bind fun symbol => symbol.type.objectInfo?.map fun info =>
          decide (symbol.kind = .type ∧ ((basesOf env s ⟨"A", info, none⟩).any fun b =>
            (basesOf env s b).any fun o => o.key = "A") = true)) = some true := by
    decide +kernel
  cases hparse : parseText "MODULE M; TYPE A=OBJECT(B) END; B=OBJECT(A) END; END." .strict with
  | error e =>
    rw [hparse] at hfacts
    cases hfacts
  | ok p =>
    rw [hparse] at hfacts
    obtain ⟨_, ⟨⟩, hfacts⟩ := Option.bind_eq_some_iff.1 hfacts
    rw [← table_after] at hfacts
    obtain ⟨id, hid, hfacts⟩ := Option.bind_eq_some_iff.1 hfacts
    obtain ⟨symbol, hsymbol, hfacts⟩ := Option.bind_eq_some_iff.1 hfacts
    obtain ⟨info, hinfo, hfacts⟩ := Option.map_eq_some_iff.1 hfacts
    replace hinfo := Ty.objectInfo?_eq_some.1 hinfo
    obtain ⟨hkind, hback⟩ := of_decide_eq_true hfacts
    obtain ⟨b, hb, hback⟩ := List.any_eq_true.1 hback
    obtain ⟨o, ho, hkey⟩ := List.any_eq_true.1 hback
    have hnames : NamesType (.after none p.module) "A" symbol := ⟨hkind, id, hid, hsymbol⟩
    have hcircular : Circular (basesOf (.ofModule none p.module) (.after none p.module))
        ⟨"A", info, none⟩ :=
      ⟨o, .tail (.single hb) ho, of_decide_eq_true hkey⟩
    obtain ⟨hreports, hown⟩ := circles_reported p.module
    obtain ⟨⟨d, hd, hname, hdeclared⟩, hself⟩ := hown "A" symbol info hnames hinfo
    have hreport := (hreports (.error .circularInheritance symbol.span
      "object type 'A' inherits from itself")).2 ⟨d, hd, symbol, info, hdeclared, hinfo,
        hname ▸ hcircular, by rw [hname]; rfl⟩
    exact ⟨p, symbol, info, rfl, hnames, hinfo, hself.1 hcircular, hreport.1⟩

end Check

end SimFront
