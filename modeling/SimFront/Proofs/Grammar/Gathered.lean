import Mathlib.Algebra.Order.Group.Multiset
import SimFront.Grammar.Parser
import SimFront.Proofs.Token.Coverage
import SimFront.Proofs.Tree.Nested

/-!
# What a rule gathers from the tokens

`Accepts p s Q` says what holds when `p` reads the tokens left in `s` without a report:
a rule of partial correctness for strict mode, where a report ends the run.

`Gathered s s' ns` says of the nodes `ns` that they were made on the way from `s` to `s'`:
their spans lie between the start of the first token left in `s` and the end of the last
token read, one behind the other, each covers what is below it (`Nested`) and lists it in the
order of the text (`Sequenced`), each of their identifiers is a token of its own among those
read, and every span in them starts and ends where a token does.  `Built s s' ns` adds that a
token was read at all.
A node whose span runs from the start of `s` to the end of what was read can be put over
such nodes (`Built.node`).
-/

namespace SimFront.Parser

variable {α β σ : Type} {p : Parser α} {f : α → Parser β} {s s' s'' : ParserState}

/-! ## Accepting runs -/

/-- A run in strict mode that ends without a report satisfies `Q` at its end. -/
def Accepts (p : Parser α) (s : ParserState) (Q : α → ParserState → Prop) : Prop :=
  ∀ a s', p .strict s = .ok (a, s') → Q a s'

namespace Accepts

variable {Q : α → ParserState → Prop} {R : β → ParserState → Prop}

theorem mono {Q' : α → ParserState → Prop} (h : Accepts p s Q) (hQ : ∀ a s', Q a s' → Q' a s') :
    Accepts p s Q' := fun a s' hrun => hQ a s' (h a s' hrun)

theorem pure {a : α} (h : Q a s) : Accepts (pure a : Parser α) s Q := by
  rintro _ _ ⟨⟩
  exact h

theorem bind (hp : Accepts p s Q) (hf : ∀ a s', Q a s' → Accepts (f a) s' R) :
    Accepts (p >>= f) s R := by
  intro b s' hrun
  change Parser.bind p f .strict s = _ at hrun
  unfold Parser.bind at hrun
  split at hrun
  · next a s₁ hp' => exact hf a s₁ (hp a s₁ hp') b s' hrun
  · cases hrun

/-- Whatever `p` reads, what follows satisfies `R`. -/
theorem anyway (hf : ∀ a s', Accepts (f a) s' R) : Accepts (p >>= f) s R :=
  bind (Q := fun _ _ => True) (fun _ _ _ => trivial) fun a s' _ => hf a s'

theorem pure_bind {a : α} (h : Accepts (f a) s R) : Accepts (Pure.pure a >>= f) s R := h

theorem map {g : α → β} (hp : Accepts p s fun a s' => R (g a) s') : Accepts (g <$> p) s R :=
  hp.bind fun _ _ h => .pure h

theorem inspect {γ : Type} {g : ParserState → γ} {f : γ → Parser β}
    (h : Accepts (f (g s)) s R) : Accepts (Parser.inspect g >>= f) s R := h

theorem ite {c : Prop} [Decidable c] {q : Parser α} (hp : c → Accepts p s Q)
    (hq : ¬ c → Accepts q s Q) : Accepts (if c then p else q) s Q := by
  split
  · next h => exact hp h
  · next h => exact hq h

/-- Around a run another construct is the innermost one. -/
theorem within {c : Context} (h : Accepts p { s with contexts := c :: s.contexts } fun a s' =>
    Q a { s' with contexts := s'.contexts.tail }) : Accepts (within c p) s Q := by
  intro a s' hrun
  change Parser.bind p _ .strict _ = _ at hrun
  unfold Parser.bind at hrun
  split at hrun
  · next hp =>
    cases hrun
    exact h _ _ hp
  · cases hrun

/-- A report ends the run. -/
theorem report (e : SyntaxError) {Q : Unit → ParserState → Prop} : Accepts (report e) s Q := by
  rintro _ _ ⟨⟩

theorem fail {code : SyntaxCode} {message : TokenKind → String} {Q : Unit → ParserState → Prop} :
    Accepts (fail code message) s Q := .inspect (.report _)

theorem failRelated {code : SyntaxCode} {message : TokenKind → String} {r : Related}
    {Q : Unit → ParserState → Prop} : Accepts (failRelated code message r) s Q :=
  .inspect (.report _)

theorem failInContext {code : SyntaxCode} {Q : Unit → ParserState → Prop} :
    Accepts (failInContext code) s Q := .inspect .fail

theorem exhausted : Accepts (exhausted : Parser α) s Q := by
  rintro _ _ ⟨⟩

theorem past {left : Nat} (h : Accepts p s Q) : Accepts (past left p) s Q := by
  intro a s' hrun
  unfold Parser.past at hrun
  split at hrun
  · exact h a s' hrun
  · cases hrun

/-- What follows a report is not run. -/
theorem after {q : Parser Unit} {f : Unit → Parser β}
    (h : Accepts q s fun _ _ => False) : Accepts (q >>= f) s R :=
  h.bind fun _ _ h => h.elim

end Accepts

/-! ## Tokens in order -/

/-- The tokens left, and the end of the text behind them, follow each other. -/
structure Ordered (s : ParserState) : Prop where
  inOrder : InOrder s.lastEnd (s.rest ++ [s.eof])
  eof : s.eof.kind = .eof

/-- The identifier that a token is. -/
def ident? (t : Token) : Option Ident := if t.kind = .ident then some ⟨t.text, t.span⟩ else none

/-- The identifiers among some tokens. -/
def identifiers (ts : List Token) : Multiset Ident := ↑(ts.filterMap ident?)

theorem identifiers_append (ts us : List Token) :
    identifiers (ts ++ us) = identifiers ts + identifiers us := by
  unfold identifiers
  rw [List.filterMap_append, Multiset.coe_add]

namespace Ordered

theorem current_le (hs : Ordered s) :
    s.lastEnd ≤ s.current.span.start ∧ s.current.span.start ≤ s.current.span.stop := by
  have h := hs.inOrder
  unfold ParserState.current ParserState.token
  cases hr : s.rest with
  | nil =>
    rw [hr] at h
    exact ⟨h.1, h.2.1⟩
  | cons t ts =>
    rw [hr] at h
    exact ⟨h.1, h.2.1⟩

/-- A token that does not end the text is read by a step to the next one. -/
theorem bump_eq (hs : Ordered s) (hk : s.kind ≠ .eof) :
    s.rest = s.current :: s.bump.rest ∧ s.bump.lastEnd = s.current.span.stop ∧
      s.bump.eof = s.eof := by
  unfold ParserState.kind ParserState.current ParserState.token at hk
  unfold ParserState.bump ParserState.current ParserState.token
  cases hr : s.rest with
  | nil => simp [hr, hs.eof] at hk
  | cons t ts =>
    have ht : t.kind ≠ .eof := by simpa [hr] using hk
    simp [if_neg ht]

/-- Along tokens that are read the order is kept. -/
theorem along (hs : Ordered s) {read : List Token} (hread : s.rest = read ++ s'.rest)
    (hend : s'.lastEnd = endOf s.lastEnd read) (heof : s'.eof = s.eof) : Ordered s' := by
  have h := hs.inOrder
  rw [hread, List.append_assoc] at h
  exact ⟨by rw [hend, heof]; exact h.of_append.2, by rw [heof, hs.eof]⟩

end Ordered

/-- Where a token starts or ends that is left in `s`, or the last one that was read ended. -/
def Edge (s : ParserState) (p : Position) : Prop :=
  p = s.lastEnd ∨ ∃ t ∈ s.rest ++ [s.eof], p = t.span.start ∨ p = t.span.stop

/-- Every span in a tree starts and ends at an edge. -/
def Edged (s : ParserState) (n : Node) : Prop :=
  ∀ k ∈ n.preorder, Edge s k.span.start ∧ Edge s k.span.stop

theorem edge_current (s : ParserState) : Edge s s.current.span.start ∧ Edge s s.current.span.stop := by
  have hmem : s.current ∈ s.rest ++ [s.eof] := by
    unfold ParserState.current ParserState.token
    cases s.rest with
    | nil => exact List.mem_singleton.2 rfl
    | cons t ts => exact List.mem_cons_self
  exact ⟨.inr ⟨_, hmem, .inl rfl⟩, .inr ⟨_, hmem, .inr rfl⟩⟩

/-- A node has its own edges over those below it. -/
theorem Edged.over {n : Node} (hstart : Edge s n.span.start) (hstop : Edge s n.span.stop)
    (hbelow : ∀ c ∈ n.children, Edged s c) : Edged s n := by
  intro k hk
  rw [Node.preorder_eq] at hk
  rcases List.mem_cons.1 hk with rfl | hk
  · exact ⟨hstart, hstop⟩
  · obtain ⟨c, hc, hk⟩ := List.mem_flatMap.1 hk
    exact hbelow c hc k hk

theorem Edged.own {n : Node} (h : Edged s n) : Edge s n.span.start ∧ Edge s n.span.stop :=
  h n (Node.mem_preorder_self n)

/-! ## Nodes gathered on the way -/

/-- The nodes `ns` were made from the tokens between `s` and `s'`. -/
structure Gathered (s s' : ParserState) (ns : List Node) : Prop where
  origin : Ordered s
  reads : ∃ read, s.rest = read ++ s'.rest ∧ s'.lastEnd = endOf s.lastEnd read ∧
    (∀ t ∈ read, t.kind ≠ .eof) ∧ Node.names ns ≤ identifiers read
  eof : s'.eof = s.eof
  nested : ∀ n ∈ ns, Nested n ∧ s.current.span.start ≤ n.span.start ∧ n.span.stop ≤ s'.lastEnd
  sequence : Node.InSequence ns
  sequenced : ∀ n ∈ ns, Sequenced n
  edged : ∀ n ∈ ns, Edged s n

/-- The same, and a token was read. -/
structure Built (s s' : ParserState) (ns : List Node) : Prop extends Gathered s s' ns where
  begun : s.current.span.start ≤ s'.lastEnd

namespace Gathered

variable {ns ms : List Node}

theorem refl (hs : Ordered s) : Gathered s s [] :=
  ⟨hs, ⟨[], rfl, rfl, by simp, le_of_eq rfl⟩, rfl, by simp, .nil, by simp, by simp⟩

theorem ordered (h : Gathered s s' ns) : Ordered s' := by
  obtain ⟨read, hread, hend, -⟩ := h.reads
  exact h.origin.along hread hend h.eof

theorem lastEnd_le (h : Gathered s s' ns) : s.lastEnd ≤ s'.lastEnd := by
  obtain ⟨read, hread, hend, -⟩ := h.reads
  have hin := h.origin.inOrder
  rw [hread, List.append_assoc] at hin
  rw [hend]
  exact hin.of_append.1.le_endOf

/-- Either nothing was read, or something was and ended behind the start of the first token. -/
theorem start_le (h : Gathered s s' ns) : s.current.span.start ≤ s'.current.span.start ∧
    (s'.rest = s.rest ∨ s.current.span.start ≤ s'.lastEnd) := by
  obtain ⟨read, hread, hend, -⟩ := h.reads
  cases read with
  | nil =>
    have hcurrent : s'.current = s.current := by
      unfold ParserState.current ParserState.token
      rw [hread, h.eof]
      rfl
    exact ⟨le_of_eq (by rw [hcurrent]), .inl hread.symm⟩
  | cons t ts =>
    have hin := h.origin.inOrder
    rw [hread, List.cons_append, List.cons_append, List.append_assoc] at hin
    have hcurrent : s.current = t := by
      unfold ParserState.current ParserState.token
      rw [hread]
      rfl
    have hle : s.current.span.start ≤ s'.lastEnd := by
      rw [hcurrent, hend, endOf_cons]
      exact le_trans hin.2.1 hin.2.2.of_append.1.le_endOf
    exact ⟨le_trans hle h.ordered.current_le.1, .inr hle⟩

/-- What is an edge after the way was one before it. -/
theorem edge (h : Gathered s s' ns) {p : Position} (hp : Edge s' p) : Edge s p := by
  obtain ⟨read, hread, hend, -⟩ := h.reads
  unfold Edge
  rw [hread]
  rcases hp with rfl | ⟨t, ht, hp⟩
  · rw [hend]
    unfold endOf
    cases hlast : read.getLast? with
    | none => exact .inl rfl
    | some t =>
      have ht := List.mem_of_getLast? hlast
      exact .inr ⟨t, List.mem_append_left _ (List.mem_append_left _ ht), .inr rfl⟩
  · rw [h.eof] at ht
    rw [List.append_assoc]
    exact .inr ⟨t, List.mem_append_right read ht, hp⟩

theorem edge_end (h : Gathered s s' ns) : Edge s s'.lastEnd := h.edge (.inl rfl)

theorem trans (h : Gathered s s' ns) (h' : Gathered s' s'' ms) : Gathered s s'' (ns ++ ms) where
  origin := h.origin
  reads := by
    obtain ⟨read, hread, hend, hkind, hnames⟩ := h.reads
    obtain ⟨read', hread', hend', hkind', hnames'⟩ := h'.reads
    refine ⟨read ++ read', by rw [hread, hread', List.append_assoc], ?_, ?_, ?_⟩
    · rw [hend', hend, endOf_append]
    · exact fun t ht => (List.mem_append.1 ht).elim (hkind t) (hkind' t)
    · rw [Node.names_append, identifiers_append]
      exact add_le_add hnames hnames'
  eof := h'.eof.trans h.eof
  nested n hn := by
    rcases List.mem_append.1 hn with hn | hn
    · obtain ⟨hnested, hstart, hstop⟩ := h.nested n hn
      exact ⟨hnested, hstart, le_trans hstop h'.lastEnd_le⟩
    · obtain ⟨hnested, hstart, hstop⟩ := h'.nested n hn
      exact ⟨hnested, le_trans h.start_le.1 hstart, hstop⟩
  sequence := by
    refine List.pairwise_append.2 ⟨h.sequence, h'.sequence, fun a ha b hb => ?_⟩
    obtain ⟨-, -, hstop⟩ := h.nested a ha
    obtain ⟨-, hstart, -⟩ := h'.nested b hb
    exact le_trans hstop (le_trans h'.origin.current_le.1 hstart)
  sequenced n hn := (List.mem_append.1 hn).elim (h.sequenced n) (h'.sequenced n)
  edged n hn := (List.mem_append.1 hn).elim (h.edged n) fun hn k hk =>
    (h'.edged n hn k hk).imp h.edge h.edge

end Gathered

/-- From tokens that are read to the nodes made of them. -/
def Gathers (view : α → List Node) (p : Parser α) : Prop :=
  ∀ s, Ordered s → Accepts p s fun a s' => Gathered s s' (view a)

/-- The same, for a parser that reads a token or reports. -/
def Builds (view : α → List Node) (p : Parser α) : Prop :=
  ∀ s, Ordered s → Accepts p s fun a s' => Built s s' (view a)

/-- The view of a value that holds no nodes. -/
def silent (_ : α) : List Node := []

namespace Gathered

variable {ns : List Node} {view : α → List Node}

theorem gather (h : Gathered s s' ns) (hp : Gathers view p) :
    Accepts p s' fun a s'' => Gathered s s'' (ns ++ view a) :=
  (hp s' h.ordered).mono fun _ _ h' => h.trans h'

theorem build (h : Gathered s s' ns) (hp : Builds view p) :
    Accepts p s' fun a s'' => Built s s'' (ns ++ view a) :=
  (hp s' h.ordered).mono fun _ _ h' => ⟨h.trans h'.toGathered, le_trans h.start_le.1 h'.begun⟩

theorem skip (h : Gathered s s' ns) (hp : Gathers silent p) :
    Accepts p s' fun _ s'' => Gathered s s'' ns :=
  (h.gather hp).mono fun _ _ h' => by simpa only [silent, List.append_nil] using h'

theorem read (h : Gathered s s' ns) (hp : Builds silent p) :
    Accepts p s' fun _ s'' => Built s s'' ns :=
  (h.build hp).mono fun _ _ h' => by simpa only [silent, List.append_nil] using h'

end Gathered

/-- A node has the nodes `ns` as its children.  A module sorts those between its name and its
body. -/
inductive Over (ns : List Node) : Node → Prop where
  | listed {n : Node} (children : n.children = ns) : Over ns n
  | sorted {m : Module} {items : List Node} (laid : m.Items items)
      (split : ns = .ident m.name :: (items ++ Node.ofBlock? m.body)) : Over ns (.module m)

namespace Over

variable {ns : List Node} {n : Node}

theorem perm (h : Over ns n) : n.children.Perm ns := by
  cases h with
  | listed children => exact .of_eq children
  | sorted laid split =>
    rw [split]
    exact (laid.perm.append_right _).cons _

/-- Over nodes in sequence a node is sequenced, if they are. -/
theorem sequenced (h : Over ns n) (order : Node.InSequence ns) (below : ∀ c ∈ ns, Sequenced c) :
    Sequenced n := by
  have hbelow : ∀ c ∈ n.children, Sequenced c := fun c hc => below c (h.perm.mem_iff.1 hc)
  cases h with
  | listed children => exact .node (children ▸ order) hbelow
  | sorted laid split => exact .module laid (split ▸ order) hbelow

end Over

namespace Built

variable {ns : List Node} {view : α → List Node}

theorem gather (h : Built s s' ns) (hp : Gathers view p) :
    Accepts p s' fun a s'' => Built s s'' (ns ++ view a) :=
  (hp s' h.ordered).mono fun _ _ h' => ⟨h.trans h', le_trans h.begun h'.lastEnd_le⟩

theorem skip (h : Built s s' ns) (hp : Gathers silent p) :
    Accepts p s' fun _ s'' => Built s s'' ns :=
  (h.gather hp).mono fun _ _ h' => by simpa only [silent, List.append_nil] using h'

/-- A node can be put over the nodes that it covers. -/
theorem put (h : Built s s' ns) {n : Node} (hstart : s.current.span.start ≤ n.span.start)
    (hordered : n.span.start ≤ n.span.stop) (hstop : n.span.stop ≤ s'.lastEnd)
    (hedges : Edge s n.span.start ∧ Edge s n.span.stop)
    (hcovers : ∀ c ∈ ns, n.span.containsSpan c.span) (hover : Over ns n)
    (hident : n.ident? = none) : Built s s' [n] := by
  have hchildren : n.children.Perm ns := hover.perm
  have hsequenced : Sequenced n := hover.sequenced h.sequence h.sequenced
  have hedged : Edged s n :=
    .over hedges.1 hedges.2 fun c hc => h.edged c (hchildren.mem_iff.1 hc)
  refine ⟨⟨h.origin, ?_, h.eof, ?_, List.pairwise_singleton _ _,
    List.forall_mem_singleton.2 hsequenced, List.forall_mem_singleton.2 hedged⟩, h.begun⟩
  · obtain ⟨read, hread, hend, hkind, hnames⟩ := h.reads
    refine ⟨read, hread, hend, hkind, ?_⟩
    rw [Node.names_singleton, hident, Node.names_perm hchildren]
    simpa using hnames
  · intro m hm
    obtain rfl := List.mem_singleton.1 hm
    refine ⟨.mk hordered (fun c hc => hcovers c (hchildren.mem_iff.1 hc)) fun c hc => ?_,
      hstart, hstop⟩
    exact (h.nested c (hchildren.mem_iff.1 hc)).1

/-- A node with the span of its only child. -/
theorem wrap {c n : Node} (h : Built s s' [c]) (hspan : n.span = c.span)
    (hchildren : n.children = [c]) (hident : n.ident? = none) : Built s s' [n] := by
  obtain ⟨hnested, hstart, hstop⟩ := h.nested c (List.mem_singleton.2 rfl)
  refine h.put ?_ ?_ ?_ ?_ ?_ (.listed hchildren) hident
  · rwa [hspan]
  · rw [hspan]
    exact hnested.ordered
  · rwa [hspan]
  · rw [hspan]
    exact (h.edged c (List.mem_singleton.2 rfl)).own
  · intro d hd
    rw [List.mem_singleton.1 hd, hspan]
    simp [Span.containsSpan]

/-- A node from `start` to the end of what was read. -/
theorem nodeFrom (h : Built s s' ns) {n : Node} {start : Position}
    (hspan : n.span = ⟨start, s'.lastEnd.later start⟩) (hstart : s.current.span.start ≤ start)
    (hle : start ≤ s'.lastEnd) (hedge : Edge s start) (hall : ∀ c ∈ ns, start ≤ c.span.start)
    (hover : Over ns n) (hident : n.ident? = none) : Built s s' [n] := by
  rw [Position.later_of_ge hle] at hspan
  refine h.put ?_ ?_ ?_ ?_ (fun c hc => ?_) hover hident
  · rwa [hspan]
  · rwa [hspan]
  · rw [hspan]
  · rw [hspan]
    exact ⟨hedge, h.edge_end⟩
  · rw [hspan]
    simp only [Span.containsSpan, Bool.and_eq_true, decide_eq_true_eq]
    exact ⟨hall c hc, (h.nested c hc).2.2⟩

/-- A node from the start of `s` to the end of what was read. -/
theorem node (h : Built s s' ns) {n : Node}
    (hspan : n.span = ⟨s.current.span.start, s'.lastEnd.later s.current.span.start⟩)
    (hover : Over ns n) (hident : n.ident? = none) : Built s s' [n] :=
  h.nodeFrom hspan (le_refl _) h.begun (edge_current s).1 (fun c hc => (h.nested c hc).2.1) hover
    hident

end Built

end SimFront.Parser
