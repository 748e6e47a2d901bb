import SimFront.Proofs.Symbol.Grafting

/-!
# A name that stands in for a declaration

A variable of which nothing is known stands in for a declaration that was not found.
`t.StandIn name id? place` says that in the table `name` stands for the stand-in `id?`, if for
anything, in the module's own scope, and for nothing in other scopes; that no object type
gives a member the name; and that all symbols lie at certain places.  The operations on
tables keep it so, as long as they declare other names.
-/

namespace SimFront

/-! ## Members -/

/-- No member that an object type itself declares has the name. -/
def ObjectInfo.Lacks (name : String) (o : ObjectInfo) : Prop :=
  Members.find? o.fields name = none ∧ Members.find? o.methods name = none

/-- If the type is an object type, it declares no member of the name. -/
def Ty.LacksMember (name : String) : Ty → Prop
  | .object o => o.Lacks name
  | _ => True

theorem Members.find?_ofList {α : Type} {entries : List (String × α)} {name : String}
    (h : ∀ e ∈ entries, e.1 ≠ name) : Members.find? (Members.ofList entries) name = none := by
  have kept (ms : Members α) (hms : Members.find? ms name = none) :
      Members.find? (entries.foldl (fun ms e => ms.insert e.1 e.2) ms) name = none := by
    induction entries generalizing ms with
    | nil => exact hms
    | cons e rest ih =>
      refine ih (fun e' he => h e' (.tail _ he)) _ ?_
      rw [Members.find?_insert, if_neg (h e (.head _)).symm, hms]
  exact kept [] rfl

theorem lookup_qualifyFields (module name : String) (fs : List (String × Ty)) :
    List.lookup name (qualifyFields module fs) = (List.lookup name fs).map (·.qualify module) := by
  induction fs with
  | nil => rw [qualifyFields, List.lookup_nil, Option.map_none]
  | cons f fs ih =>
    rw [qualifyFields, List.lookup_cons, List.lookup_cons, ih]
    split <;> rfl

theorem lookup_qualifyMethods (module name : String) (ms : List (String × MethodInfo)) :
    List.lookup name (qualifyMethods module ms) = (List.lookup name ms).map (·.qualify module) := by
  induction ms with
  | nil => rw [qualifyMethods, List.lookup_nil, Option.map_none]
  | cons m ms ih =>
    rw [qualifyMethods, List.lookup_cons, List.lookup_cons, ih]
    split <;> rfl

theorem Ty.LacksMember.qualify {name : String} {t : Ty} (h : t.LacksMember name) (module : String) :
    (t.qualify module).LacksMember name := by
  cases t with
  | object o =>
    obtain ⟨bases, fields, methods⟩ := o
    obtain ⟨hfields, hmethods⟩ := h
    rw [Ty.qualify, ObjectInfo.qualify]
    exact ⟨(lookup_qualifyFields module name fields).trans (congrArg _ hfields),
      (lookup_qualifyMethods module name methods).trans (congrArg _ hmethods)⟩
  | named module? n => cases module? <;> simp only [Ty.qualify, Ty.LacksMember]
  | _ => simp only [Ty.qualify, Ty.LacksMember]

namespace SymbolTable

variable {t t' : SymbolTable} {name : String} {id? : Option Nat} {place : Span → Prop}
  {symbol : Symbol} {scope id i : Nat}

/-- No object type that the table declares gives a member the name. -/
def LacksMember (t : SymbolTable) (name : String) : Prop :=
  ∀ id symbol, t.symbol? id = some symbol → symbol.kind = .type → symbol.type.LacksMember name

/-! ## Names -/

/-- Every scope lies within the module's own. -/
theorem Consistent.root_mem_enclosing (h : t.Consistent) (hscope : scope < t.scopes.size) :
    root ∈ t.enclosing scope := by
  induction scope using Nat.strongRecOn with
  | ind scope ih =>
    obtain ⟨sc, hsc⟩ := exists_scope? hscope
    rw [enclosing_eq, show t.parent? scope = sc.parent? by rw [parent?, hsc]; rfl]
    cases hp : sc.parent? with
    | none =>
      rw [(h.top hsc).1 hp]
      exact .head _
    | some p =>
      have hlt := (h.parent hsc hp).1
      dsimp only
      rw [if_pos hlt]
      exact .tail _ (ih p hlt (Nat.lt_trans hlt hscope))

structure StandIn (t : SymbolTable) (name : String) (id? : Option Nat) (place : Span → Prop) :
    Prop where
  consistent : t.Consistent
  root : t.declared? root name = id?
  only : ∀ scope, scope ≠ SymbolTable.root → t.declared? scope name = none
  symbol : ∀ id, id? = some id →
    ∃ symbol, t.symbol? id = some symbol ∧ symbol.kind = .var ∧ symbol.type = .unknown
  lacks : t.LacksMember name
  spans : ∀ id symbol, t.symbol? id = some symbol → place symbol.span

theorem standIn_new {moduleName : String} {span : Span} :
    (new moduleName span).StandIn name none place where
  consistent := consistent_new moduleName span
  root := rfl
  only scope hscope := by
    have hnone : (new moduleName span).scope? scope = none :=
      Array.getElem?_eq_none (Nat.one_le_iff_ne_zero.2 hscope)
    unfold declared?
    rw [hnone, Option.bind_none]
  symbol _ h := by cases h
  lacks _ _ h := by cases h
  spans _ _ h := by cases h

namespace StandIn

/-- From every scope the name stands for the stand-in. -/
theorem lookupFrom? (h : t.StandIn name id? place) (hscope : scope < t.scopes.size) :
    t.lookupFrom? scope name = id? := by
  have hroot := h.consistent.root_mem_enclosing hscope
  unfold SymbolTable.lookupFrom?
  generalize t.enclosing scope = scopes at hroot
  induction scopes with
  | nil => cases hroot
  | cons i scopes ih =>
    rw [List.findSome?_cons]
    by_cases hi : i = SymbolTable.root
    · rw [hi, h.root]
      cases id? with
      | some id => rfl
      | none =>
        refine List.findSome?_eq_none_iff.2 fun j _ => ?_
        by_cases hj : j = SymbolTable.root
        · rw [hj, h.root]
        · exact h.only j hj
    · rw [h.only i hi]
      exact ih ((List.mem_cons.1 hroot).resolve_left fun heq => hi heq.symm)

theorem lookupId? (h : t.StandIn name id? place) : t.lookupId? name = id? :=
  h.lookupFrom? h.consistent.current

/-! ## Operations -/

theorem of_references (h : t.StandIn name id? place) (rs : References) :
    StandIn { t with references := rs } name id? place :=
  { h with consistent := h.consistent.of_references rs }

theorem enter (h : t.StandIn name id? place) (kind : ScopeKind) (span : Span) :
    (t.enter kind span).StandIn name id? place where
  consistent := h.consistent.enter kind span
  root := (declared?_enter_eq t kind span _ name).trans h.root
  only i hi := (declared?_enter_eq t kind span i name).trans (h.only i hi)
  symbol := h.symbol
  lacks := h.lacks
  spans := h.spans

theorem leave (h : t.StandIn name id? place) : t.leave.StandIn name id? place := by
  have hconsistent := h.consistent.leave
  obtain ⟨scope, hleave⟩ := t.leave_eq
  rw [hleave] at hconsistent ⊢
  exact { h with consistent := hconsistent }

theorem retype (h : t.StandIn name id? place) (hid : id? ≠ some id) {type : Ty}
    (htype : type.LacksMember name) :
    (t.modifySymbol id fun s => { s with type }).StandIn name id? place where
  consistent := h.consistent.retype id type
  root := h.root
  only := h.only
  symbol i hi := by
    have hne : id ≠ i := by
      rintro rfl
      exact hid hi
    rw [symbol?_retype, if_neg hne]
    exact h.symbol i hi
  lacks i s hs hkind := by
    rw [symbol?_retype] at hs
    split at hs
    · obtain ⟨s', -, rfl⟩ := Option.map_eq_some_iff.1 hs
      exact htype
    · exact h.lacks i s hs hkind
  spans i s hs := by
    rw [symbol?_retype] at hs
    split at hs
    · obtain ⟨s', hs', rfl⟩ := Option.map_eq_some_iff.1 hs
      exact h.spans i s' hs'
    · exact h.spans i s hs

/-- A symbol of another name is never the stand-in. -/
theorem define_ne (h : t.StandIn name id? place) (hdefine : t.define symbol = .ok (id, t')) :
    id? ≠ some id := by
  intro heq
  obtain ⟨s, hs, hkind, -⟩ := h.symbol id heq
  obtain ⟨-, rfl, -⟩ | ⟨previous, -, hprevious, -, hprocedure, -, -⟩ := defineIn_cases hdefine
  · exact absurd (Array.getElem?_eq_some_iff.1 hs).1 (Nat.lt_irrefl _)
  · rw [hs] at hprevious
    obtain rfl := Option.some.inj hprevious
    rw [hkind] at hprocedure
    cases hprocedure

/-- What a declaration does to the types and the places of symbols. -/
theorem lacks_define (h : t.StandIn name id? place)
    (htype : symbol.kind = .type → symbol.type.LacksMember name)
    (hdefine : t.define symbol = .ok (id, t')) : t'.LacksMember name := by
  intro i s hs hkind
  rw [symbol?_defineIn hdefine] at hs
  split at hs
  · obtain rfl := Option.some.inj hs
    exact htype hkind
  · exact h.lacks i s hs hkind

theorem spans_define (h : t.StandIn name id? place) (hspan : place symbol.span)
    (hdefine : t.define symbol = .ok (id, t')) :
    ∀ i s, t'.symbol? i = some s → place s.span := by
  intro i s hs
  rw [symbol?_defineIn hdefine] at hs
  split at hs
  · obtain rfl := Option.some.inj hs
    exact hspan
  · exact h.spans i s hs

theorem define (h : t.StandIn name id? place) (hname : symbol.name ≠ name)
    (hspan : place symbol.span) (htype : symbol.kind = .type → symbol.type.LacksMember name)
    (hdefine : t.define symbol = .ok (id, t')) : t'.StandIn name id? place where
  consistent := h.consistent.defineIn h.consistent.current hdefine
  root := by
    by_cases hroot : SymbolTable.root = t.current
    · rw [hroot, declared?_defineIn hdefine h.consistent.current, if_neg hname, ← hroot, h.root]
    · rw [declared?_defineIn_of_ne hdefine hroot, h.root]
  only i hi := by
    by_cases hcurrent : i = t.current
    · rw [hcurrent, declared?_defineIn hdefine h.consistent.current, if_neg hname, ← hcurrent,
        h.only i hi]
    · rw [declared?_defineIn_of_ne hdefine hcurrent, h.only i hi]
  symbol i hi := by
    have hne : i ≠ id := by
      rintro rfl
      exact h.define_ne hdefine hi
    rw [symbol?_defineIn hdefine, if_neg hne]
    exact h.symbol i hi
  lacks := h.lacks_define htype hdefine
  spans := h.spans_define hspan hdefine

/-- In the module's own scope the name is free before the stand-in is declared. -/
theorem define_free (h : t.StandIn name none place) (hcurrent : t.current = SymbolTable.root)
    (hname : symbol.name = name) :
    t.define symbol = .ok (t.symbols.size, t.append t.current symbol) := by
  unfold SymbolTable.define defineIn
  rw [hname, hcurrent, h.root]

/-- Then the name is taken, by the stand-in, which is no procedure heading. -/
theorem define_taken (h : t.StandIn name (some id) place) (hcurrent : t.current = SymbolTable.root)
    (hname : symbol.name = name) : ∃ d, t.define symbol = .error d := by
  obtain ⟨s, hs, hkind, -⟩ := h.symbol id rfl
  unfold SymbolTable.define defineIn
  rw [hname, hcurrent, h.root]
  dsimp only
  rw [hs]
  dsimp only
  rw [if_neg (by rw [hkind]; simp)]
  exact ⟨_, rfl⟩

/-- The declaration of the stand-in itself, in the module's own scope. -/
theorem declare (h : t.StandIn name none place) (hcurrent : t.current = SymbolTable.root)
    (hname : symbol.name = name) (hkind : symbol.kind = .var) (htype : symbol.type = .unknown)
    (hspan : place symbol.span) (hdefine : t.define symbol = .ok (id, t')) :
    t'.StandIn name (some id) place where
  consistent := h.consistent.defineIn h.consistent.current hdefine
  root := by rw [← hcurrent, declared?_defineIn hdefine h.consistent.current, if_pos hname]
  only i hi := by
    rw [declared?_defineIn_of_ne hdefine fun heq => hi (heq.trans hcurrent), h.only i hi]
  symbol i hi := by
    obtain rfl := Option.some.inj hi
    rw [symbol?_defineIn hdefine, if_pos rfl]
    exact ⟨_, rfl, hkind, htype⟩
  lacks := h.lacks_define (fun htypeKind => by rw [hkind] at htypeKind; cases htypeKind) hdefine
  spans := h.spans_define hspan hdefine

end StandIn

end SymbolTable

end SimFront
