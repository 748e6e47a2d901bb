import Mathlib.Data.List.Pairwise
import SimFront.Proofs.Check.ModuleSites
import SimFront.Proofs.Grammar.ModuleNodes
import SimFront.Proofs.Symbol.Declared

/-!
# The index of references is faithful

What an analysis records keeps the table in good shape (`Recorded.named`), and the
declarations and uses in it, each use taken as an identifier with the name of its symbol,
grow by no more than the nodes that were recorded at (`Recorded.taken_le`,
`Recorded.uses_le`).  So the uses in the table of a module are
identifiers of its tree (`uses_after`), and with what the tree has of the tokens the index
stands up against the text (`references_faithful`).
-/

namespace SimFront

open CheckState (Recorded)

/-! ## Uses -/

namespace SymbolTable

variable {t t' : SymbolTable}

/-- The name of a symbol, the empty one if there is none. -/
def nameOf (t : SymbolTable) (id : Nat) : String := ((t.symbol? id).map (·.name)).getD ""

/-- A reference as the identifier that stands for its symbol. -/
def used (t : SymbolTable) (r : Reference) : Ident := ⟨t.nameOf r.symbol, r.span⟩

/-- The uses in a table. -/
def uses (t : SymbolTable) : Multiset Ident := ↑(t.references.entries.toList.map t.used)

theorem nameOf_eq {id : Nat} {s : Symbol} (h : t.symbol? id = some s) : t.nameOf id = s.name := by
  unfold nameOf
  rw [h]
  rfl

/-- Where symbols keep their names, uses do. -/
theorem Keeps.uses_eq (h : t.Keeps t') (hnamed : t.Named)
    (hreferences : t'.references = t.references) : t'.uses = t.uses := by
  unfold uses
  rw [hreferences]
  refine congrArg _ (List.map_congr_left fun r hr => ?_)
  obtain ⟨s, hs⟩ := hnamed.referred r hr
  obtain ⟨s', hs', hname⟩ := h _ _ hs
  unfold used
  rw [nameOf_eq hs, nameOf_eq hs', hname]

theorem uses_referIn {scope id : Nat} {span : Span} :
    (t.referIn scope id span).uses = t.uses + {⟨t.nameOf id, span⟩} := by
  have hentries : (t.referIn scope id span).references.entries.toList =
      t.references.entries.toList ++ [⟨id, span, scope⟩] := Array.toList_push
  unfold uses
  rw [hentries, List.map_append, ← Multiset.coe_add]
  rfl

end SymbolTable

/-- A type name that was put off, as the identifier it was read from. -/
def PendingType.ident (p : PendingType) : Ident := ⟨p.name, p.span⟩

namespace CheckState

variable {U : Multiset Node} {s s' : CheckState}

/-- The type names that were put off. -/
def pending (s : CheckState) : Multiset Ident := ↑(s.pendingTypes.map PendingType.ident)

/-- The identifiers that something was recorded at: the declarations that `B` does not hold of,
the uses, and the type names that were put off. -/
def taken (B : Ident → Prop) [DecidablePred B] (s : CheckState) : Multiset Ident :=
  s.table.own B + (s.table.uses + s.pending)

namespace Recorded

/-- Whatever is recorded, the table stays in shape and its symbols keep their names. -/
theorem named (h : Recorded U s s') (hnamed : s.table.Named) :
    s'.table.Named ∧ s.table.Keeps s'.table := by
  induction h with
  | @quiet s s' hquiet =>
    rw [hquiet.1]
    exact ⟨hnamed, .refl _⟩
  | note s p => exact ⟨hnamed, .refl _⟩
  | declare _ _ hdefine => exact hnamed.defineIn hdefine
  | value _ _ _ _ hdefine ih =>
    obtain ⟨hnamed', hkeeps⟩ := ih hnamed
    obtain ⟨hnamed'', hkeeps'⟩ := hnamed'.defineIn hdefine
    exact ⟨hnamed'', hkeeps.trans hkeeps'⟩
  | refer scope hdeclares =>
    obtain ⟨symbol, hsymbol, -⟩ := hnamed.of_declares hdeclares
    exact ⟨hnamed.referIn hsymbol, fun _ _ h => ⟨_, h, rfl⟩⟩
  | retype s id type =>
    exact ⟨hnamed.modifySymbol id fun _ => rfl, s.table.keeps_modifySymbol id fun _ => rfl⟩
  | @scope U s s' kind n _ _ ih =>
    obtain ⟨hnamed', hkeeps⟩ := ih (hnamed.enter kind n.span)
    exact ⟨hnamed'.leave, ((s.table.keeps_enter kind n.span).trans hkeeps).trans s'.table.keeps_leave⟩
  | seq _ _ ih ih' =>
    obtain ⟨hnamed', hkeeps⟩ := ih hnamed
    obtain ⟨hnamed'', hkeeps'⟩ := ih' hnamed'
    exact ⟨hnamed'', hkeeps.trans hkeeps'⟩
  | weaken _ _ ih => exact ih hnamed

/-- No type name that was put off is forgotten. -/
theorem pending_le (h : Recorded U s s') : s.pending ≤ s'.pending := by
  induction h with
  | @quiet s s' hquiet =>
    unfold pending
    rw [hquiet.2]
  | note s p => exact Multiset.le_cons_self _ _
  | value _ _ _ _ _ ih => exact ih
  | scope _ _ _ _ ih => exact ih
  | seq _ _ ih ih' => exact le_trans ih ih'
  | weaken _ _ ih => exact ih
  | declare => exact le_refl _
  | refer => exact le_refl _
  | retype => exact le_refl _

/-- Whatever is recorded takes an identifier of its own among the nodes, but for the values of
imported enumerations, if `B` holds of them. -/
theorem taken_le {B : Ident → Prop} [DecidablePred B] (h : Recorded U s s')
    (hnamed : s.table.Named)
    (hvalues : ∀ item, .importItem item ∈ U → ∀ i : Ident, i.span = item.name.span → B i) :
    s'.taken B ≤ s.taken B + U.filterMap Node.ident? := by
  induction h with
  | @quiet s s' hquiet =>
    unfold taken pending
    rw [hquiet.1, hquiet.2]
    exact Multiset.le_add_right _ _
  | note s p =>
    have hcost : ({.ident ⟨p.name, p.span⟩} : Multiset Node).filterMap Node.ident? = {p.ident} := rfl
    unfold taken
    rw [hcost, add_assoc, add_assoc, add_comm s.pending]
    exact le_refl _
  | @declare s i symbol _ t hname hspan hdefine =>
    obtain ⟨-, hkeeps⟩ := hnamed.defineIn hdefine
    have hident : symbol.ident = i := by
      unfold Symbol.ident
      rw [hname, hspan]
    have hcost : ({.ident i} : Multiset Node).filterMap Node.ident? = {i} := rfl
    have hown : t.own B ≤ s.table.own B + {i} := by
      refine le_trans (SymbolTable.own_defineIn hdefine) (add_le_add_right ?_ _)
      rw [hident]
      exact Multiset.filter_le _ _
    unfold taken
    rw [hkeeps.uses_eq hnamed (SymbolTable.references_defineIn hdefine), hcost, add_right_comm]
    exact add_le_add_left hown _
  | @value U s s' item symbol _ t h hitem _ hspan hdefine ih =>
    obtain ⟨hnamed', -⟩ := h.named hnamed
    obtain ⟨-, hkeeps⟩ := hnamed'.defineIn hdefine
    have hown : t.own B ≤ s'.table.own B :=
      SymbolTable.own_defineIn_of hdefine (hvalues item hitem symbol.ident hspan)
    refine le_trans ?_ (ih hnamed hvalues)
    unfold taken
    rw [hkeeps.uses_eq hnamed' (SymbolTable.references_defineIn hdefine)]
    exact add_le_add_left hown _
  | @refer s i id scope hdeclares =>
    obtain ⟨symbol, hsymbol, hname⟩ := hnamed.of_declares hdeclares
    have hcost : ({.ident i} : Multiset Node).filterMap Node.ident? = {i} := rfl
    unfold taken
    rw [SymbolTable.uses_referIn, SymbolTable.nameOf_eq hsymbol, hname, hcost,
      add_assoc (s.table.own B), add_right_comm s.table.uses]
    exact le_refl _
  | retype s id type =>
    have hkeeps := s.table.keeps_modifySymbol id (f := fun symbol => { symbol with type }) fun _ => rfl
    have hown : (s.table.modifySymbol id fun symbol => { symbol with type }).own B =
        s.table.own B :=
      congrArg (Multiset.filter (¬ B ·)) (SymbolTable.declarations_modifySymbol id fun _ => rfl)
    unfold taken
    rw [hkeeps.uses_eq hnamed rfl, hown]
    exact Multiset.le_add_right _ _
  | @scope U s s' kind n _ h ih =>
    obtain ⟨hnamed', -⟩ := h.named (hnamed.enter kind n.span)
    have hbelow := ih (hnamed.enter kind n.span) fun item hitem =>
      hvalues item (Multiset.mem_cons_of_mem hitem)
    -- opening and closing a scope leaves alone what is declared and used
    have hentered : ({ s with table := s.table.enter kind n.span } : CheckState).taken B =
        s.taken B := by
      unfold taken
      rw [(s.table.keeps_enter kind n.span).uses_eq hnamed rfl]
      rfl
    have hleft : ({ s' with table := s'.table.leave } : CheckState).taken B = s'.taken B := by
      obtain ⟨scope, hleave⟩ := s'.table.leave_eq
      unfold taken
      rw [s'.table.keeps_leave.uses_eq hnamed' (by rw [hleave]), hleave]
      rfl
    rw [hleft]
    rw [hentered] at hbelow
    refine le_trans hbelow (add_le_add_right ?_ _)
    exact Multiset.filterMap_le_filterMap _ (Multiset.le_cons_self _ _)
  | @seq U V s s' s'' h _ ih ih' =>
    have hfirst := ih hnamed fun item hitem => hvalues item (Multiset.mem_add.2 (.inl hitem))
    have hrest := ih' (h.named hnamed).1 fun item hitem =>
      hvalues item (Multiset.mem_add.2 (.inr hitem))
    rw [Multiset.filterMap_add, ← add_assoc]
    exact le_trans hrest (add_le_add_left hfirst _)
  | weaken _ hle ih =>
    have hfew := ih hnamed fun item hitem => hvalues item (Multiset.mem_of_le hle hitem)
    exact le_trans hfew (add_le_add_right (Multiset.filterMap_le_filterMap _ hle) _)

/-- Each use, and each type name that is put off, takes an identifier of its own among the
nodes. -/
theorem uses_le (h : Recorded U s s') (hnamed : s.table.Named) :
    s'.table.uses + s'.pending ≤ s.table.uses + s.pending + U.filterMap Node.ident? := by
  have htaken := h.taken_le hnamed (B := fun _ => True) fun _ _ _ _ => trivial
  unfold taken at htaken
  rwa [SymbolTable.own_eq_zero fun _ => trivial, SymbolTable.own_eq_zero fun _ => trivial,
    zero_add, zero_add] at htaken

end Recorded

end CheckState

theorem Node.names_idents (is : List Ident) : Node.names (is.map .ident) = ↑is := by
  induction is with
  | nil => rfl
  | cons i is ih =>
    rw [List.map_cons, Node.names_cons, ih, Node.names_singleton]
    rfl

/-- The type names that were put off, as nodes. -/
theorem CheckState.names_pending (s : CheckState) :
    Node.names (s.pendingTypes.reverse.map Check.pendingNode) = s.pending := by
  have hnames := Node.names_idents (s.pendingTypes.reverse.map PendingType.ident)
  rw [List.map_map] at hnames
  refine Eq.trans hnames (Multiset.coe_eq_coe.2 ?_)
  exact (List.reverse_perm _).map _

/-- What is recorded at the type names that were put off takes no more than they did. -/
theorem CheckState.Recorded.taken_late {B : Ident → Prop} [DecidablePred B] {s s' : CheckState}
    (h : Recorded (Node.all (s.pendingTypes.reverse.map Check.pendingNode)) s s')
    (hnamed : s.table.Named) : s'.table.own B + s'.table.uses ≤ s.taken B := by
  have hkept : s'.table.own B + s'.table.uses + s.pending ≤ s'.taken B := by
    unfold taken
    rw [← add_assoc]
    exact add_le_add_right h.pending_le _
  have htaken : s'.taken B ≤ s.taken B + s.pending := by
    have hlate := h.taken_le (B := B) hnamed fun item hitem => by
      obtain ⟨n, hn, hbelow⟩ := List.mem_flatMap.1 (Multiset.mem_coe.1 hitem)
      obtain ⟨p, -, rfl⟩ := List.mem_map.1 hn
      have hident := Node.mem_all_singleton.2 hbelow
      unfold Check.pendingNode at hident
      rw [Node.all_ident, Multiset.mem_singleton] at hident
      cases hident
    rwa [← s.names_pending]
  exact le_of_add_le_add_right (le_trans hkept htaken)

/-- The uses in the table of a module are identifiers of its tree, each for itself. -/
theorem uses_after (resolver? : Option Resolver) (m : Module) :
    (CheckState.after resolver? m).table.uses ≤ Node.names [.module m] := by
  obtain ⟨s, hparts, hpending⟩ := recorded_after resolver? m
  have hnamed : (CheckState.ofModule m).table.Named := SymbolTable.named_new m.name.name m.span
  have huses := hparts.uses_le hnamed
  have hstart : (CheckState.ofModule m).table.uses + (CheckState.ofModule m).pending = 0 := rfl
  rw [hstart, zero_add] at huses
  have hlate := hpending.taken_late (B := fun _ => True) (hparts.named hnamed).1
  unfold CheckState.taken at hlate
  rw [SymbolTable.own_eq_zero fun _ => trivial, SymbolTable.own_eq_zero fun _ => trivial,
    zero_add, zero_add] at hlate
  exact le_trans hlate huses

/-! ## Identifiers of a text -/

/-- Neither of two spans holds the start of the other. -/
def Span.Apart (a b : Span) : Prop := b.contains a.start = false ∧ a.contains b.start = false

instance : Std.Symm Span.Apart := ⟨fun _ _ h => ⟨h.2, h.1⟩⟩

theorem Span.contains_start {s : Span} (h : s.start ≤ s.stop) : s.contains s.start := by
  rw [Position.le_def, Position.lt_def] at h
  unfold Span.contains
  rcases h with h | h
  · simp only [Bool.and_eq_true, Bool.not_eq_true', Bool.or_eq_false_iff, decide_eq_false_iff_not,
      Bool.and_eq_false_imp, beq_iff_eq]
    omega
  · simp [h]

theorem Span.apart_of_before {a b : Span} (ha : a.start ≤ a.stop) (h : a.stop.Before b.start) :
    a.Apart b := by
  have hstart : a.start.Before b.start := .of_le ha h
  unfold Position.Before at h hstart
  unfold Span.Apart Span.contains
  constructor
  · rcases hstart with hline | ⟨hline, hcolumn⟩
    · simp [hline]
    · simp [hline, hcolumn]
  · rcases h with hline | ⟨hline, hcolumn⟩
    · simp [hline]
    · simp [hline, hcolumn]

theorem ident_of_token {t : Token} {i : Ident} (h : Parser.ident? t = some i) :
    t.kind = .ident ∧ i = ⟨t.text, t.span⟩ := by
  unfold Parser.ident? at h
  split at h
  · next hkind => exact ⟨hkind, (Option.some.inj h).symm⟩
  · cases h

/-- The spans of the identifiers of a text. -/
def identSpans (text : String) : List Span :=
  ((tokenize text).filterMap Parser.ident?).map (·.span)

theorem identSpans_ordered (text : String) : ∀ s ∈ identSpans text, s.start ≤ s.stop := by
  intro s hs
  obtain ⟨i, hi, rfl⟩ := List.mem_map.1 hs
  obtain ⟨t, ht, hident⟩ := List.mem_filterMap.1 hi
  obtain ⟨-, rfl⟩ := ident_of_token hident
  exact ((laid_tokenize text).reaches t ht).2.le

theorem identSpans_apart (text : String) : (identSpans text).Pairwise Span.Apart := by
  have hlaid := laid_tokenize text
  unfold identSpans
  rw [List.pairwise_map, List.pairwise_filterMap]
  refine hlaid.pairwise_ident.imp_of_mem fun {a b} ha _ hbefore i hi j hj => ?_
  obtain ⟨hkind, rfl⟩ := ident_of_token hi
  obtain ⟨hkind', rfl⟩ := ident_of_token hj
  exact Span.apart_of_before (hlaid.reaches a ha).2.le (hbefore hkind hkind')

theorem identSpans_nodup (text : String) : (identSpans text).Nodup := by
  refine (identSpans_apart text).imp_of_mem fun {a b} ha _ hapart heq => ?_
  have hself := Span.contains_start (identSpans_ordered text a ha)
  rw [← heq] at hapart
  rw [hapart.1] at hself
  cases hself

/-! ## The index -/

/-- A reference is found where it starts, if no other holds that place. -/
theorem SymbolTable.symbolAt?_of_mem {t : SymbolTable} {r : Reference}
    (hr : r ∈ t.references.entries.toList) (hself : r.span.contains r.span.start)
    (honly : ∀ r' ∈ t.references.entries.toList, r'.span.contains r.span.start → r' = r) :
    t.symbolAt? r.span.start = some r.symbol := by
  have hfind : t.references.symbolAt? r.span.start = some r.symbol := by
    unfold References.symbolAt?
    cases h : t.references.entries.toList.find? (·.span.contains r.span.start) with
    | none => exact absurd hself (List.find?_eq_none.1 h r hr)
    | some r' =>
      have hholds := List.find?_some (p := fun r' : Reference => r'.span.contains r.span.start) h
      rw [honly r' (List.mem_of_find?_eq_some h) hholds, Option.map_some]
  unfold SymbolTable.symbolAt?
  rw [hfind]

theorem named_after (resolver? : Option Resolver) (m : Module) :
    (CheckState.after resolver? m).table.Named := by
  obtain ⟨s, hparts, hpending⟩ := recorded_after resolver? m
  have hstart : (CheckState.ofModule m).table.Named := SymbolTable.named_new m.name.name m.span
  exact (hpending.named (hparts.named hstart).1).1

/-- **References.**  In the table of a text that strict mode reads, every reference is the span
of an identifier of the text that is spelled like the symbol it refers to, and that symbol is
found where the reference starts; no two references have the same span. -/
theorem references_faithful {text : String} {p : Parse} (h : parseText text .strict = .ok p)
    (resolver? : Option Resolver) :
    (∀ r ∈ (analyze resolver? p.module).table.references.entries.toList,
      (∃ token ∈ tokenize text, token.kind = .ident ∧ token.span = r.span ∧
        ∃ s, (analyze resolver? p.module).table.symbol? r.symbol = some s ∧ s.name = token.text) ∧
      (analyze resolver? p.module).table.symbolAt? r.span.start = some r.symbol) ∧
    ((analyze resolver? p.module).table.references.entries.toList.map (·.span)).Nodup := by
  rw [analyze_eq]
  dsimp only
  have hnamed := named_after resolver? p.module
  have huses := le_trans (uses_after resolver? p.module) (parse_names h)
  generalize (CheckState.after resolver? p.module).table = t at hnamed huses
  have hused : ∀ r ∈ t.references.entries.toList,
      t.used r ∈ (tokenize text).filterMap Parser.ident? := fun r hr =>
    Multiset.mem_of_le huses (List.mem_map_of_mem hr)
  have hspan : ∀ r ∈ t.references.entries.toList, r.span ∈ identSpans text := fun r hr =>
    List.mem_map.2 ⟨t.used r, hused r hr, rfl⟩
  have hnodup : (t.references.entries.toList.map (·.span)).Nodup := by
    have hspans := Multiset.map_le_map (f := Ident.span) huses
    have hdistinct := Multiset.nodup_of_le hspans (Multiset.coe_nodup.2 (identSpans_nodup text))
    rw [SymbolTable.uses, Multiset.map_coe, List.map_map] at hdistinct
    exact Multiset.coe_nodup.1 hdistinct
  refine ⟨fun r hr => ⟨?_, ?_⟩, hnodup⟩
  · obtain ⟨token, htoken, hident⟩ := List.mem_filterMap.1 (hused r hr)
    obtain ⟨hkind, heq⟩ := ident_of_token hident
    obtain ⟨hname, hspan⟩ := Ident.mk.inj heq
    obtain ⟨s, hs⟩ := hnamed.referred r hr
    rw [SymbolTable.nameOf_eq hs] at hname
    exact ⟨token, htoken, hkind, hspan.symm, s, hs, hname⟩
  · refine SymbolTable.symbolAt?_of_mem hr ?_ fun r' hr' hholds => ?_
    · exact Span.contains_start (identSpans_ordered text _ (hspan r hr))
    · have hsame : r'.span = r.span := by
        by_contra hne
        have hapart := (identSpans_apart text).forall (hspan r' hr') (hspan r hr) hne
        rw [hapart.2] at hholds
        cases hholds
      exact List.inj_on_of_nodup_map hnodup hr' hr hsame

/-- A name that is exported, the name of its type, which is put off to the end, and the name as it
is read and written. -/
theorem references_faithful_exported : ∃ p,
    parseText "MODULE M; EXPORT x; TYPE T = INTEGER; VAR x: T; BEGIN x := x + 1 END MODULE."
      .strict = .ok p ∧
    (analyze none p.module).table.references.size = 4 ∧
    (∀ r ∈ (analyze none p.module).table.references.entries.toList,
      (analyze none p.module).table.symbolAt? r.span.start = some r.symbol) ∧
    ((analyze none p.module).table.references.entries.toList.map (·.span)).Nodup := by
  have hsize : ((parseText
      "MODULE M; EXPORT x; TYPE T = INTEGER; VAR x: T; BEGIN x := x + 1 END MODULE."
      .strict).toOption.map fun p => (analyze none p.module).table.references.size) = some 4 := by
    decide +kernel
  cases hparse : parseText
      "MODULE M; EXPORT x; TYPE T = INTEGER; VAR x: T; BEGIN x := x + 1 END MODULE." .strict with
  | error e =>
    rw [hparse] at hsize
    cases hsize
  | ok p =>
    rw [hparse] at hsize
    obtain ⟨hfound, hnodup⟩ := references_faithful hparse none
    exact ⟨p, rfl, Option.some.inj hsize, fun r hr => (hfound r hr).2, hnodup⟩

end SimFront
