import SimFront.Proofs.Check.Search
import SimFront.Proofs.Check.Touches

/-!
# A variable of another type

`t.recast c uses` is the table `t` in which the symbol `c.id` has the type `c.new` where it had
`c.old`, with uses of its own.  Both types lead to `c.behind`: they are this type itself, or names
of types that are declared as it, over a chain of declarations (`LeadsTo`).  Names are looked up
alike in both tables.

`Recasts c R p q` says that two steps, from a state and from the same state with its table
recast, come to such states again and make reports of the same kinds in the same places, and
that their values are related by `R`.  There is one rule for each way of building steps.
-/

namespace SimFront

/-- Whether a type has members, which it keeps under its own name. -/
def Ty.hasMembers : Ty → Bool
  | .record _ | .object _ => true
  | _ => false

/-- A symbol that has another type in a second table, but one that leads to the same type. -/
structure Recast where
  id : Nat
  name : String
  old : Ty
  new : Ty
  /-- What both types lead to. -/
  behind : Ty
  old_plain : old.hasMembers = false
  new_plain : new.hasMembers = false
  behind_plain : behind.hasMembers = false

namespace SymbolTable

/-- From a scope a type leads over so many declarations of types to one that is no name. -/
inductive LeadsTo (t : SymbolTable) (scope : Nat) : Nat → Ty → Ty → Prop where
  | here {type : Ty} : type.named? = none → LeadsTo t scope 0 type type
  | name {name : String} {id n : Nat} {s : Symbol} {behind : Ty} :
      Ty.ofBuiltinName? name = none → t.lookupFrom? scope name = some id →
      t.symbol? id = some s → s.kind = .type → LeadsTo t scope n s.type behind →
      LeadsTo t scope (n + 1) (.named none name) behind

/-- The table in which the symbol has its other type, with other uses recorded. -/
def recast (t : SymbolTable) (c : Recast) (uses : References) : SymbolTable :=
  { t.modifySymbol c.id fun s => { s with type := c.new } with references := uses }

/-- The symbol is no type, is declared under its name alone, and has a type that leads to the same
as its other type.  The names of both types are followed to their ends. -/
structure Fits (t : SymbolTable) (c : Recast) : Prop where
  symbol : ∃ s, t.symbol? c.id = some s ∧ s.kind ≠ .type ∧ s.type = c.old
  only : ∀ scope name, t.declared? scope name = some c.id → name = c.name
  old : ∃ n < Check.maxHops, t.LeadsTo t.current n c.old c.behind
  new : ∃ n < Check.maxHops, t.LeadsTo t.current n c.new c.behind

variable {t t' : SymbolTable} {c : Recast} {uses : References} {scope n : Nat} {type behind : Ty}

/-! ## Names -/

/-- What a name means hangs on the scopes alone. -/
theorem lookupFrom?_of_scopes (h : t'.scopes = t.scopes) (scope : Nat) (name : String) :
    t'.lookupFrom? scope name = t.lookupFrom? scope name := by
  have hdeclared : (t'.declared? · name) = (t.declared? · name) := by
    funext i
    unfold declared? scope?
    rw [h]
  have henclosing : t'.enclosing scope = t.enclosing scope := by
    refine enclosing_congr fun j _ => ?_
    unfold parent? scope?
    rw [h]
  unfold lookupFrom?
  rw [henclosing, hdeclared]

theorem LeadsTo.congr (h : t.LeadsTo scope n type behind) (hscopes : t'.scopes = t.scopes)
    (hsymbols : ∀ id s, t.symbol? id = some s → s.kind = .type → t'.symbol? id = some s) :
    t'.LeadsTo scope n type behind := by
  induction h with
  | here hnamed => exact .here hnamed
  | name hbuiltin hlookup hsymbol hkind _ ih =>
    refine .name hbuiltin ?_ (hsymbols _ _ hsymbol hkind) hkind ih
    rw [lookupFrom?_of_scopes hscopes]
    exact hlookup

/-! ## The other table -/

theorem recast_symbol? (t : SymbolTable) (c : Recast) (uses : References) (id : Nat) :
    (t.recast c uses).symbol? id =
      if c.id = id then (t.symbol? id).map fun s => { s with type := c.new } else t.symbol? id :=
  symbol?_retype t c.id c.new id

theorem recast_lookupFrom? (t : SymbolTable) (c : Recast) (uses : References) (scope : Nat)
    (name : String) :
    (t.recast c uses).lookupFrom? scope name = t.lookupFrom? scope name := by
  apply lookupFrom?_of_scopes
  rfl

theorem recast_lookupId? (t : SymbolTable) (c : Recast) (uses : References) (name : String) :
    (t.recast c uses).lookupId? name = t.lookupId? name := t.recast_lookupFrom? c uses t.current name

theorem recast_enclosing (t : SymbolTable) (c : Recast) (uses : References) (scope : Nat) :
    (t.recast c uses).enclosing scope = t.enclosing scope := by
  apply enclosing_congr
  intro j _
  rfl

namespace Fits

/-- Types are declared alike in both tables. -/
theorem symbol_of_type (h : t.Fits c) {id : Nat} {s : Symbol} (hs : t.symbol? id = some s)
    (hkind : s.kind = .type) : (t.recast c uses).symbol? id = some s := by
  rw [recast_symbol?, if_neg, hs]
  rintro rfl
  obtain ⟨s', hs', hne, -⟩ := h.symbol
  rw [hs] at hs'
  obtain rfl := Option.some.inj hs'
  exact hne hkind

/-- In the other table a type leads to the same. -/
theorem leadsTo (h : t.Fits c) (hleads : t.LeadsTo scope n type behind) :
    (t.recast c uses).LeadsTo scope n type behind :=
  hleads.congr rfl fun _ _ => h.symbol_of_type

theorem of_references (h : t.Fits c) (rs : References) : Fits { t with references := rs } c where
  symbol := h.symbol
  only := h.only
  old := h.old.imp fun _ hn => ⟨hn.1, hn.2.congr rfl fun _ _ hs _ => hs⟩
  new := h.new.imp fun _ hn => ⟨hn.1, hn.2.congr rfl fun _ _ hs _ => hs⟩

/-- Neither type of the symbol names bases of its own. -/
theorem recast_namedBases (h : t.Fits c) : (t.recast c uses).namedBases = t.namedBases := by
  obtain ⟨s, hs, -, htype⟩ := h.symbol
  unfold namedBases
  rw [List.flatMap_def, List.flatMap_def]
  congr 1
  apply List.ext_getElem?
  intro i
  have hi := t.recast_symbol? c uses i
  unfold symbol? at hi hs
  rw [List.getElem?_map, List.getElem?_map, Array.getElem?_toList, Array.getElem?_toList, hi]
  by_cases hid : c.id = i
  · subst hid
    rw [if_pos rfl, hs]
    have hold := c.old_plain
    have hnew := c.new_plain
    rw [← htype] at hold
    dsimp only [Option.map_some]
    split
    · next info hinfo =>
      rw [hinfo] at hnew
      cases hnew
    · split
      · next info hinfo =>
        rw [hinfo] at hold
        cases hold
      · rfl
  · rw [if_neg hid]

end Fits

end SymbolTable

/-- The kind of a report and its place: all of it but what it says. -/
def Diagnostic.site (d : Diagnostic) : Severity × DiagnosticCode × Span := (d.severity, d.code, d.span)

/-- What two runs need not have in common. -/
structure CheckState.Aside where
  uses : References
  reports : List Diagnostic
  pendingTypes : List PendingType

/-- The state with its table recast, in another run. -/
def CheckState.recast (s : CheckState) (c : Recast) (own : Aside) : CheckState :=
  { s with
    table := s.table.recast c own.uses, reports := own.reports, pendingTypes := own.pendingTypes }

/-- The second state is the first one with its table recast, and has reports of the same kinds in
the same places. -/
inductive CheckState.Recasts (c : Recast) (s : CheckState) : CheckState → Prop where
  | mk {own : Aside} : s.table.Fits c →
      own.reports.map (·.site) = s.reports.map (·.site) → Recasts c s (s.recast c own)

theorem CheckState.Recasts.sites {c : Recast} {s u : CheckState} (h : s.Recasts c u) :
    u.reports.map (·.site) = s.reports.map (·.site) := by
  cases h with
  | mk hfits hsites => exact hsites

namespace Recast

/-- One type, or the types of the symbol in the two tables if the value may be that of the
symbol. -/
def Types (c : Recast) (carried : Bool) (a b : Ty) : Prop := a = b ∨ carried = true ∧ a = c.old ∧ b = c.new

namespace Types

variable {c : Recast} {carried : Bool} {a b : Ty}

theorem refl (c : Recast) (carried : Bool) (a : Ty) : c.Types carried a a := .inl rfl

theorem mono {carried' : Bool} (h : c.Types carried a b) (himp : carried = true → carried' = true) :
    c.Types carried' a b := h.imp_right fun h => ⟨himp h.1, h.2⟩

/-- The value of anything but the symbol has one type. -/
theorem eq_of_not_carried (h : c.Types false a b) : a = b := by
  rcases h with rfl | ⟨hcarried, -⟩
  · rfl
  · cases hcarried

end Types

end Recast

namespace Check

variable {α β γ δ : Type} {c : Recast}

/-- The two steps do the same, but for what the reports say. -/
def Recasts (c : Recast) (R : α → β → Prop) (p : Check α) (q : Check β) : Prop :=
  ∀ env s u, s.Recasts c u → R (p.outcome env s).1 (q.outcome env u).1 ∧
    (p.outcome env s).2.Recasts c (q.outcome env u).2

/-- The step does the same, and gives the same value. -/
abbrev Blind (c : Recast) (p : Check α) : Prop := Recasts c Eq p p

section Rules

variable {R : α → β → Prop} {S : γ → δ → Prop}

theorem Recasts.pure {a : α} {b : β} (h : R a b) : Recasts c R (Pure.pure a) (Pure.pure b) :=
  fun _ _ _ hs => ⟨h, hs⟩

theorem Recasts.mono {R' : α → β → Prop} {p : Check α} {q : Check β} (h : Recasts c R p q)
    (hR : ∀ a b, R a b → R' a b) : Recasts c R' p q :=
  fun env s u hs => (h env s u hs).imp_left (hR _ _)

theorem Recasts.bind {p : Check α} {q : Check β} {f : α → Check γ} {f' : β → Check δ}
    (hp : Recasts c R p q) (hf : ∀ a b, R a b → Recasts c S (f a) (f' b)) :
    Recasts c S (p >>= f) (q >>= f') := by
  intro env s u hs
  obtain ⟨hR, hs'⟩ := hp env s u hs
  rw [outcome_bind, outcome_bind]
  exact hf _ _ hR env _ _ hs'

theorem Blind.bind {p : Check α} {f : α → Check γ} {f' : α → Check δ} (hp : Blind c p)
    (hf : ∀ a, Recasts c S (f a) (f' a)) : Recasts c S (p >>= f) (p >>= f') := by
  refine Recasts.bind hp fun a b hab => ?_
  subst hab
  exact hf a

theorem Recasts.get {f : CheckState → Check γ} {f' : CheckState → Check δ}
    (h : ∀ s own, s.table.Fits c → Recasts c S (f s) (f' (s.recast c own))) :
    Recasts c S (MonadState.get >>= f) (MonadState.get >>= f') := by
  intro env s u hs
  rw [outcome_get, outcome_get]
  cases hs with
  | mk hfits hreports => exact h s _ hfits env s _ (.mk hfits hreports)

theorem Recasts.table {f : SymbolTable → Check γ} {f' : SymbolTable → Check δ}
    (h : ∀ t uses, t.Fits c → Recasts c S (f t) (f' (t.recast c uses))) :
    Recasts c S (Check.table >>= f) (Check.table >>= f') :=
  Recasts.get fun s own hfits => h s.table own.uses hfits

theorem Recasts.read {f : Env → Check γ} {f' : Env → Check δ}
    (h : ∀ env, Recasts c S (f env) (f' env)) :
    Recasts c S (MonadReader.read >>= f) (MonadReader.read >>= f') :=
  fun env s u hs => h env env s u hs

theorem Recasts.withReader {p : Check α} {q : Check β} (f : Env → Env) (h : Recasts c R p q) :
    Recasts c R (withReader f p : Check α) (withReader f q : Check β) :=
  fun env s u hs => h (f env) s u hs

/-- A change of what is known besides the table and the reports. -/
theorem Blind.modify {f : CheckState → CheckState} (htable : ∀ s, (f s).table = s.table)
    (hreports : ∀ s, (f s).reports = s.reports)
    (hrecast : ∀ s own, f (s.recast c own) = (f s).recast c own) :
    Blind c (modify f : Check Unit) := by
  intro env s u hs
  rw [outcome_modify, outcome_modify]
  cases hs with
  | mk hfits hsites =>
    rw [hrecast]
    refine ⟨rfl, .mk (htable s ▸ hfits) ?_⟩
    rw [hreports]
    exact hsites

theorem forM_blind {f : α → Check Unit} {as : List α} (h : ∀ a ∈ as, Blind c (f a)) :
    Blind c (as.forM f) := by
  induction as with
  | nil => exact .pure rfl
  | cons a as ih => exact (h a (.head _)).bind fun _ => ih fun b hb => h b (.tail _ hb)

theorem optionForM_blind {f : α → Check Unit} {a? : Option α} (h : ∀ a, a? = some a → Blind c (f a)) :
    Blind c (a?.forM f) := by
  cases a? with
  | none => exact .pure rfl
  | some a => exact h a rfl

theorem mapM_blind {f : α → Check β} (as : List α) (h : ∀ a, Blind c (f a)) : Blind c (as.mapM f) := by
  induction as with
  | nil => exact .pure rfl
  | cons a as ih =>
    rw [List.mapM_cons]
    exact (h a).bind fun b => ih.bind fun bs => .pure rfl

end Rules

/-! ## Reports, uses and OUT parameters -/

theorem report_recasts {d d' : Diagnostic} (h : d'.site = d.site) :
    Recasts c Eq (report d) (report d') := by
  intro env s u hs
  cases hs with
  | @mk own hfits hsites =>
    let own' : CheckState.Aside := { own with reports := d' :: own.reports }
    have hnew : own'.reports.map (·.site) = (d :: s.reports).map (·.site) := by
      rw [List.map_cons, List.map_cons, h, hsites]
    exact ⟨rfl, CheckState.Recasts.mk (s := { s with reports := d :: s.reports }) hfits hnew⟩

theorem error_recasts (code : DiagnosticCode) (span : Span) (message message' : String) :
    Recasts c Eq (error code span message) (error code span message') := report_recasts rfl

theorem warning_recasts (code : DiagnosticCode) (span : Span) (message message' : String) :
    Recasts c Eq (warning code span message) (warning code span message') := report_recasts rfl

theorem refer_blind (id : Nat) (span : Span) : Blind c (refer id span) := by
  intro env s u hs
  cases hs with
  | @mk own hfits hsites =>
    let use : Reference := ⟨id, span, s.table.current⟩
    let own' : CheckState.Aside := { own with uses := own.uses.add use }
    have hfits' := hfits.of_references (s.table.references.add use)
    have hrecasts : CheckState.Recasts c { s with table := s.table.refer id span }
        (CheckState.recast { s with table := s.table.refer id span } c own') := .mk hfits' hsites
    exact ⟨rfl, hrecasts⟩

theorem setOutState_blind (id : Nat) (f : OutState → OutState) : Blind c (setOutState id f) :=
  .modify (fun _ => rfl) (fun _ => rfl) fun _ _ => rfl

theorem markAssigned_blind (id : Nat) : Blind c (markAssigned id) := setOutState_blind id _

end Check

end SimFront
