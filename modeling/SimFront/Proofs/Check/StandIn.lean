import SimFront.Proofs.Check.TouchesExpr
import SimFront.Proofs.Symbol.StandIn

/-!
# Where a name stands for a stand-in

`Missing.Holds k env s` says of a state that the name `k.name` stands for a stand-in wherever
it is looked up, if one is declared, and for nothing else; that no object around gives a member
the name; and that all reports are at certain places.  No object that is found gives a member
the name (`findObject_yields`), so once the stand-in is declared a use of the name leads to it,
nothing is reported on it, and nothing is known of its value (`silent_of_declared`).
-/

namespace SimFront

/-- A name that nothing but a stand-in may have, in the analysis of some module. -/
structure Missing where
  head : ModuleHead
  /-- Where reports are allowed. -/
  place : Span → Prop
  name : String
  /-- The stand-in, once it is declared. -/
  id? : Option Nat
  /-- Where the name may be given for a type, or exported. -/
  mentioned : Span → Prop := fun _ => True
  /-- Whether no other module has the name either. -/
  nowhere : Bool := false

namespace Missing

structure Holds (k : Missing) (env : Env) (s : CheckState) : Prop where
  head : env.head = k.head
  faithful : s.Faithful env
  table : s.table.StandIn k.name k.id? k.place
  placeholder : ∀ id, k.id? = some id → id ∈ s.placeholders
  reports : ∀ d ∈ s.reports, k.place d.span
  pending : ∀ p ∈ s.pendingTypes, p.scope < s.table.scopes.size ∧
    (p.module? = none ∧ p.name = k.name ∧ k.mentioned p.span ∨ k.place p.span)
  outs : ∀ id, k.id? = some id → List.lookup id s.outParams = none
  objects : ∀ c ∈ env.objects, ∀ o, c.object? = some o → o.info.Lacks k.name
  others : ∀ m t, env.answer m = some t → t.LacksMember k.name
  nowhere : k.nowhere = true → ∀ m t, env.answer m = some t →
    t.lookupFrom? SymbolTable.root k.name = none

/-- What is known of all other modules. -/
def Known (k : Missing) (P : SymbolTable → Prop) : Prop :=
  ∀ env s, k.Holds env s → ∀ m t, env.answer m = some t → P t

variable {k : Missing} {env : Env} {s s' : CheckState}

theorem Holds.touched (h : k.Holds env s) (htouched : s.Touched k.place s')
    (hfaithful : s'.Faithful env) : k.Holds env s' where
  head := h.head
  faithful := hfaithful
  table := by
    obtain ⟨rs, hrs, -⟩ := htouched.table
    rw [hrs]
    exact h.table.of_references rs
  placeholder := by
    rw [htouched.placeholders]
    exact h.placeholder
  reports d hd := by
    obtain ⟨more, hmore, hplace⟩ := htouched.reports
    rw [hmore] at hd
    exact (List.mem_append.1 hd).elim (hplace d) (h.reports d)
  pending p hp := by
    obtain ⟨rs, hrs, -⟩ := htouched.table
    rw [hrs]
    exact h.pending p (htouched.pendingTypes ▸ hp)
  outs id hid := by
    have hmatches := htouched.outParams id
    rw [h.outs id hid] at hmatches
    exact hmatches.eq_none
  objects := h.objects
  others := h.others
  nowhere := h.nowhere

/-- The name means the same wherever else in the objects the analysis is. -/
theorem Holds.of_env (h : k.Holds env s) {env' : Env} (hresolver : env'.resolver? = env.resolver?)
    (hhead : env'.head = env.head)
    (hobjects : ∀ c ∈ env'.objects, ∀ o, c.object? = some o → o.info.Lacks k.name) :
    k.Holds env' s where
  head := hhead.trans h.head
  faithful := h.faithful.of_resolver hresolver hhead
  table := h.table
  placeholder := h.placeholder
  reports := h.reports
  pending := h.pending
  outs := h.outs
  objects := hobjects
  others m := by
    unfold Env.answer
    rw [hresolver]
    exact h.others m
  nowhere hnowhere m := by
    unfold Env.answer
    rw [hresolver]
    exact h.nowhere hnowhere m

/-- What is known of a run while the name stands for the stand-in. -/
def standing (k : Missing) : Standing k.head k.place where
  Holds := k.Holds
  head h := h.head
  faithful h := h.faithful
  touched := Holds.touched
  within h := h.of_env rfl rfl h.objects

/-- On uses of the name nothing is reported. -/
abbrev Silent (k : Missing) : Prop := Check.Silences k.standing (some k.name)

end Missing

/-! ## What is found -/

/-- What a binding is known to be without the state gives no member the name. -/
def Binding.Lacks (name : String) : Binding → Prop
  | .external s => s.kind = .type → s.type.LacksMember name
  | _ => True

def Lookup.Lacks (name : String) : Lookup → Prop
  | .found b => b.Lacks name
  | _ => True

theorem SymbolTable.LacksMember.exported {t : SymbolTable} {name : String} (h : t.LacksMember name)
    {module other : String} {symbol : Symbol} (hexported : t.exported? module other = some symbol) :
    (Binding.external symbol).Lacks name := by
  obtain ⟨original, horiginal, rfl⟩ := Option.map_eq_some_iff.1 hexported
  obtain ⟨id, -, hid⟩ := Option.bind_eq_some_iff.1 horiginal
  exact fun hkind => (h id original hid hkind).qualify module

namespace Check

variable {α β : Type} {k : Missing}

theorem lacksMember_known : k.Known (SymbolTable.LacksMember · k.name) := fun _ _ hs => hs.others

theorem moduleTable?_yields {Q : SymbolTable → Prop} (hQ : k.Known Q) {m : String}
    (hown : m = k.head.name → k.head.kind = .implementation) :
    Yields k.standing (fun t? => ∀ t, t? = some t → Q t) (moduleTable? m) := by
  intro env s hs
  obtain ⟨htouched, hfaithful, -⟩ := (Query.ask hown).touches (I := k.standing) env s hs
  refine ⟨htouched, hfaithful, ?_⟩
  rw [moduleTable?_value hs.faithful]
  exact hQ env s hs m

theorem definitionTable?_yields {Q : SymbolTable → Prop} (hQ : k.Known Q) :
    Yields k.standing (fun t? => ∀ t, t? = some t → Q t) definitionTable? := by
  refine .read fun env s hs => ?_
  have henv : env.head = k.head := hs.head
  split
  · next hkind => exact moduleTable?_yields hQ fun _ => henv ▸ hkind
  · exact .pure fun _ h => by cases h

/-- What other modules declare under a name gives no member the stand-in's name. -/
theorem exported_known (name : String) : k.Known fun t => ∀ m symbol,
    t.exported? m name = some symbol → (Binding.external symbol).Lacks k.name :=
  fun _ _ hs m t ht _ _ h => (hs.others m t ht).exported h

section External

variable {name : String} {Q : Symbol → Prop}
  (hQ : k.Known fun t => ∀ m symbol, t.exported? m name = some symbol → Q symbol)

include hQ

theorem firstImported?_yields {ms : List String} (hms : k.head.name ∉ ms) :
    Yields k.standing (fun s? => ∀ s, s? = some s → Q s) (firstImported? name ms) := by
  induction ms with
  | nil => exact .pure fun _ h => by cases h
  | cons m ms ih =>
    obtain ⟨hm, hms⟩ := not_or.1 (mt List.mem_cons.2 hms)
    refine (moduleTable?_yields hQ fun h => absurd h.symm hm).bind fun table? htable => ?_
    split
    · next symbol hsymbol =>
      obtain ⟨t, ht, hexported⟩ := Option.bind_eq_some_iff.1 hsymbol
      refine .pure fun s hs => ?_
      obtain rfl := Option.some.inj hs
      exact htable t ht m symbol hexported
    · exact ih hms

theorem lookupExternal_found :
    Yields k.standing (fun found => ∀ b, found = .found b → ∃ s, b = .external s ∧ Q s)
      (lookupExternal name) := by
  refine .read fun env _ _ => (definitionTable?_yields hQ).bind fun table? htable => ?_
  split
  · next symbol hsymbol =>
    obtain ⟨t, ht, hexported⟩ := Option.bind_eq_some_iff.1 hsymbol
    refine .pure fun b hb => ?_
    obtain rfl := Lookup.found.inj hb
    exact ⟨symbol, rfl, htable t ht _ symbol hexported⟩
  · refine .get fun env' s hs => ?_
    have himports : k.head.name ∉ s.wholeImports := hs.head ▸ hs.faithful.imports
    refine (firstImported?_yields hQ himports).bind fun s? hs? => ?_
    cases s? with
    | some symbol =>
      refine .pure fun b hb => ?_
      obtain rfl := Lookup.found.inj hb
      exact ⟨symbol, rfl, hs? symbol rfl⟩
    | none =>
      refine Yields.bind hasUnresolvedSource_query.touches fun unresolved _ => ?_
      cases unresolved <;> exact .pure fun _ h => by cases h

end External

theorem lookupExternal_yields (name : String) :
    Yields k.standing (Lookup.Lacks k.name) (lookupExternal name) :=
  (lookupExternal_found (exported_known name)).mono fun found h => by
    cases found with
    | found b =>
      obtain ⟨s, rfl, hs⟩ := h b rfl
      exact hs
    | unknowable => trivial
    | missing => trivial

theorem lookupIn_lacks {table? : Option SymbolTable} (h : ∀ t, table? = some t → t.LacksMember k.name)
    (m name : String) : (lookupIn m name table?).Lacks k.name := by
  unfold lookupIn
  split
  · trivial
  · next t =>
    split
    · next hexported => exact (h t rfl).exported hexported
    · trivial

theorem lookup_yields (module? : Option String) (name : String) (scope : Nat) :
    Yields k.standing (Lookup.Lacks k.name) (lookup module? name scope) := by
  refine .read fun env s hs => Yields.bind table_query.touches fun t _ => ?_
  cases module? with
  | none =>
    dsimp only
    split
    · exact .pure trivial
    · exact lookupExternal_yields name
  | some m =>
    dsimp only
    split
    · split
      · exact .pure trivial
      · split
        · exact (definitionTable?_yields lacksMember_known).bind fun table? h =>
            .pure (lookupIn_lacks h m name)
        · exact .pure trivial
    · next hm =>
      have hne : m ≠ k.head.name := hs.head ▸ hm
      exact (moduleTable?_yields lacksMember_known fun h => absurd h hne).bind fun table? h =>
        .pure (lookupIn_lacks h m name)

theorem bindingSymbol?_yields {b : Binding} (hb : b.Lacks k.name) :
    Yields k.standing (fun s? => ∀ s, s? = some s → s.kind = .type → s.type.LacksMember k.name)
      (bindingSymbol? b) := by
  cases b with
  | declared id =>
    intro env s hs
    obtain ⟨htouched, hfaithful, -⟩ := (symbol?_query id).touches (I := k.standing) env s hs
    exact ⟨htouched, hfaithful, hs.table.lacks id⟩
  | external symbol =>
    refine .pure fun s hs => ?_
    obtain rfl := Option.some.inj hs
    exact hb
  | builtin => exact .pure fun _ h => by cases h

theorem declaredType?_yields (module? : Option String) (name : String) (scope : Nat) :
    Yields k.standing (fun t? => ∀ t, t? = some t → t.LacksMember k.name)
      (declaredType? module? name scope) := by
  refine (lookup_yields module? name scope).bind fun found hfound => ?_
  cases found with
  | found b =>
    refine (bindingSymbol?_yields hfound).bind fun s? hs? => ?_
    cases s? with
    | none => exact .pure fun _ h => by cases h
    | some s =>
      dsimp only
      split
      · next hkind =>
        refine .pure fun t ht => ?_
        obtain rfl := Option.some.inj ht
        exact hs? s rfl hkind
      · exact .pure fun _ h => by cases h
  | unknowable => exact .pure fun _ h => by cases h
  | missing => exact .pure fun _ h => by cases h

theorem builtinType?_lacks {module? : Option String} {name : String} {t : Ty}
    (h : builtinType? module? name = some t) : t.LacksMember k.name := by
  cases module? with
  | none =>
    obtain ⟨builtin, -, rfl⟩ := Option.map_eq_some_iff.1 h
    trivial
  | some m => cases h

theorem followNames_yields (scope hops : Nat) {t : Ty} (ht : t.LacksMember k.name) :
    Yields k.standing (fun t? => ∀ t, t? = some t → t.LacksMember k.name)
      (followNames scope hops t) := by
  induction hops generalizing t with
  | zero => exact .pure fun _ h => by cases h
  | succ hops ih =>
    unfold followNames
    split
    · cases ‹_ + 1 = 0›
    · next module? name heq =>
      split
      · next b hb =>
        refine .pure fun t ht => ?_
        obtain rfl := Option.some.inj ht
        exact builtinType?_lacks hb
      · refine (declaredType?_yields module? name scope).bind fun t? ht? => ?_
        cases t? with
        | none => exact .pure fun _ h => by cases h
        | some t =>
          obtain rfl := Nat.succ.inj heq
          exact ih (ht? t rfl)
    · refine .pure fun t' ht' => ?_
      obtain rfl := Option.some.inj ht'
      exact ht

theorem resolveNamed_yields (module? : Option String) (name : String) :
    Yields k.standing (fun t? => ∀ t, t? = some t → t.LacksMember k.name)
      (resolveNamed module? name) :=
  Yields.bind currentScope_query.touches fun scope _ => followNames_yields scope maxHops trivial

/-! ## Objects -/

/-- No object that is found gives a member the name. -/
theorem findObject_yields (module? : Option String) (name : String) :
    Yields k.standing (fun o? => ∀ o, o? = some o → o.info.Lacks k.name)
      (findObject module? name) := by
  refine (resolveNamed_yields module? name).bind fun t? ht? => ?_
  split
  · next info =>
    refine Yields.bind (objectOrigin?_query module? name).touches fun origin? _ => .pure fun o ho => ?_
    obtain rfl := Option.some.inj ho
    exact ht? _ rfl
  · exact .pure fun _ h => by cases h

theorem baseObject_yields (base : Ty) :
    Yields k.standing (fun o? => ∀ o, o? = some o → o.info.Lacks k.name) (baseObject base) := by
  cases base with
  | named module? name => exact findObject_yields module? name
  | _ => exact findObject_yields none ""

theorem mapM_yields {I : Standing k.head k.place} {P : β → Prop} {f : α → Check β} (as : List α)
    (h : ∀ a ∈ as, Yields I P (f a)) : Yields I (fun bs => ∀ b ∈ bs, P b) (as.mapM f) := by
  induction as with
  | nil => exact .pure (List.forall_mem_nil _)
  | cons a as ih =>
    rw [List.mapM_cons]
    exact (h a (.head _)).bind fun b hb => (ih fun a' ha => h a' (.tail _ ha)).bind fun bs hbs =>
      .pure (List.forall_mem_cons.2 ⟨hb, hbs⟩)

theorem firstHit_yields {search : ResolvedObject → List String → Check (Option α × List String)}
    (hsearch : ∀ o visited, o.info.Lacks k.name →
      Yields k.standing (·.1 = none) (search o visited))
    {os : List (Option ResolvedObject)} (hos : ∀ o? ∈ os, ∀ o, o? = some o → o.info.Lacks k.name)
    (visited : List String) : Yields k.standing (·.1 = none) (firstHit none search os visited) := by
  induction os generalizing visited with
  | nil => exact .pure rfl
  | cons o? os ih =>
    have rest := ih fun o? ho => hos o? (.tail _ ho)
    cases o? with
    | none => exact rest visited
    | some o =>
      refine (hsearch o visited (hos _ (.head _) o rfl)).bind fun found hfound => ?_
      obtain ⟨hit?, visited'⟩ := found
      obtain rfl := hfound
      exact rest visited'

theorem ResolvedObject.member?_none {o : ResolvedObject} {name : String} (h : o.info.Lacks name) :
    o.member? name = none := by
  unfold ResolvedObject.member?
  rw [h.1, h.2]
  rfl

theorem searchIn_yields (depth : Nat) {o : ResolvedObject} (ho : o.info.Lacks k.name)
    (visited : List String) :
    Yields k.standing (·.1 = none) (searchIn none (·.member? k.name) depth o visited) := by
  induction depth generalizing o visited with
  | zero => exact .pure rfl
  | succ depth ih =>
    unfold searchIn
    rw [ResolvedObject.member?_none ho]
    split
    · exact .pure rfl
    · exact (mapM_yields o.info.bases fun base _ => baseObject_yields base).bind fun bases hbases =>
        firstHit_yields (fun o visited ho => ih ho visited) hbases _

theorem findMember_yields {o : ResolvedObject} (ho : o.info.Lacks k.name) :
    Yields k.standing (· = none) (findMember o k.name) := by
  intro env s hs
  have hfound : Yields k.standing (· = none) (do
      pure (← searchIn none (·.member? k.name) (((searchDepth o).outcome env s).1) o []).1) :=
    (searchIn_yields _ ho []).bind fun found hfound => Yields.pure hfound
  exact hfound env s hs

/-! ## Uses of the name -/

/-- No object around gives a member the name. -/
theorem objectMemberAt_yields (scope : Nat) {i : Ident} (hi : i.name = k.name) :
    Yields k.standing (· = none) (objectMemberAt scope i) := by
  refine Yields.bind table_query.touches fun t _ => ?_
  split
  · split
    · refine .read fun env s hs => ?_
      split
      · next o ho =>
        obtain ⟨c, hc, hobject⟩ := Option.bind_eq_some_iff.1 ho
        rw [hi]
        refine (findMember_yields (hs.objects c (List.mem_of_find?_eq_some hc) o hobject)).bind
          fun m? hm? => ?_
        obtain rfl := hm?
        exact .pure rfl
      · exact .pure rfl
    · exact .pure rfl
  · exact .pure rfl

theorem nameIn_yields {id : Nat} (hid : k.id? = some id) {i : Ident} (hi : i.name = k.name)
    {scopes : List Nat} (hroot : SymbolTable.root ∈ scopes) :
    Yields k.standing (· = some (.declared id)) (nameIn i scopes) := by
  induction scopes with
  | nil => cases hroot
  | cons scope scopes ih =>
    refine .table fun env s hs => ?_
    rw [hi]
    by_cases hscope : scope = SymbolTable.root
    · rw [hscope, hs.table.root, hid]
      exact .pure rfl
    · rw [hs.table.only scope hscope]
      refine (objectMemberAt_yields scope hi).bind fun b? hb? => ?_
      obtain rfl := hb?
      exact ih ((List.mem_cons.1 hroot).resolve_left fun heq => hscope heq.symm)

theorem resolveName_yields {id : Nat} (hid : k.id? = some id) {i : Ident} (hi : i.name = k.name) :
    Yields k.standing (· = some (.declared id)) (resolveName i) := by
  refine .table fun env s hs => ?_
  have hroot := hs.table.consistent.root_mem_enclosing hs.table.consistent.current
  refine (nameIn_yields hid hi hroot).bind fun b? hb? => ?_
  obtain rfl := hb?
  exact .pure rfl

/-- The stand-in is a variable of which nothing is known. -/
theorem symbol?_yields {id : Nat} (hid : k.id? = some id) :
    Yields k.standing (fun s? => ∃ s, s? = some s ∧ s.kind = .var ∧ s.type = .unknown)
      (symbol? id) := by
  intro env s hs
  obtain ⟨htouched, hfaithful, -⟩ := (symbol?_query id).touches (I := k.standing) env s hs
  exact ⟨htouched, hfaithful, hs.table.symbol id hid⟩

theorem valueType_yields {id : Nat} (hid : k.id? = some id) :
    Yields k.standing (· = .unknown) (valueType (.declared id)) := by
  refine (symbol?_yields hid).bind fun s? hs? => ?_
  obtain ⟨s, rfl, -, htype⟩ := hs?
  dsimp only
  split
  · exact .pure rfl
  · exact .pure htype

theorem readName_yields {id : Nat} (hid : k.id? = some id) {i : Ident} (hi : i.name = k.name) :
    Yields k.standing (· = .unknown) (readName i) := by
  refine (resolveName_yields hid hi).bind fun b? hb? => ?_
  obtain rfl := hb?
  refine Yields.bind (?_ : Touches k.standing (noteRead id i.span)) fun _ _ => valueType_yields hid
  -- the stand-in is no OUT parameter
  refine Yields.bind (refer_touches id i.span) fun _ _ => .get fun env s hs => ?_
  rw [hs.outs id hid]
  exact Touches.pure ()

theorem writeName_yields {id : Nat} (hid : k.id? = some id) {i : Ident} (hi : i.name = k.name) :
    Yields k.standing (· = .unknown) (writeName i) := by
  refine (resolveName_yields hid hi).bind fun b? hb? => ?_
  obtain rfl := hb?
  refine Yields.bind (refer_touches id i.span) fun _ _ => ?_
  have assigned : Yields k.standing (· = .unknown) (do
      markAssigned id
      valueType (.declared id)) :=
    Yields.bind (markAssigned_touches id) fun _ _ => valueType_yields hid
  refine (symbol?_yields hid).bind fun s? hs? => ?_
  obtain ⟨s, rfl, hkind, -⟩ := hs?
  dsimp only
  rw [hkind]
  exact assigned

/-- The stand-in is no module. -/
theorem moduleMember_yields {id : Nat} (hid : k.id? = some id) {i : Ident} (hi : i.name = k.name)
    (member : Ident) : Yields k.standing (· = none) (moduleMember i member) := by
  refine .table fun env s hs => ?_
  obtain ⟨symbol, hsymbol, hkind, -⟩ := hs.table.symbol id hid
  rw [hi, hs.table.lookupId?, hid]
  dsimp only
  rw [hsymbol, Option.any_some, hkind]
  exact .pure rfl

theorem silent_of_declared {id : Nat} (hid : k.id? = some id) : k.Silent where
  read _ hi := readName_yields hid (Option.some.inj hi).symm
  write _ hi := writeName_yields hid (Option.some.inj hi).symm
  member _ member hi := moduleMember_yields hid (Option.some.inj hi).symm member

end Check

end SimFront
