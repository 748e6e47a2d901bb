import SimFront.Grammar.Expr
import SimFront.Proofs.Grammar.Gathering

/-!
# The nodes of expressions

Every rule for expressions makes its node over what it gathered, when the parser of nested
expressions does (`e` below).  Parentheses leave no node, so the node of an expression may
begin behind the first token that was read for it.
-/

namespace SimFront.Grammar

open SimFront.Parser

variable {e : Parser Expr} {s s' : ParserState}

/-! ## Arguments -/

theorem arguments_gathers (he : Builds (fun x => [.expr x]) e) :
    Gathers (·.map .expr) (arguments e) := by
  have hargs : Gathers (·.map .expr) (do
      if ← atKind (.mark .rParen) then pure [] else commaSeparated e) := fun _ hs =>
    .inspect (.ite (fun _ => .pure (.refl hs)) fun _ => (commaSeparated_builds he).gathers _ hs)
  intro s hs
  refine (bump_accepts hs).bind fun _ _ ⟨_, h⟩ => ?_
  refine (h.gather hargs.within).bind fun _ _ h => ?_
  exact (h.skip (eatMark_gathers _)).bind fun _ _ h =>
    .ite (fun _ => .pure h) fun _ => .after .failRelated

theorem arguments?_gathers (he : Builds (fun x => [.expr x]) e) :
    Gathers (·.map .expr) (arguments? e) := fun _ hs =>
  .inspect (.ite (fun _ => arguments_gathers he _ hs) fun _ => .pure (.refl hs))

/-! ## Selectors -/

/-- A selector makes a node over the one that it is applied to. -/
theorem selector?_built (he : Builds (fun x => [.expr x]) e) {base : Expr}
    (h : Built s s' [.expr base]) : Accepts (selector? e s.current.span.start base) s'
      fun r s'' => Built s s'' [.expr (r.getD base)] := by
  refine .inspect ?_
  split
  · refine (h.skip bump_gathers).bind fun _ _ h => ?_
    refine (h.gather (commaSeparated_builds he).gathers).bind fun _ _ h => ?_
    refine (h.skip (expectMark_builds _).gathers).bind fun _ _ h => ?_
    exact h.finish (fun _ => rfl) (fun _ => rfl) fun _ => rfl
  · refine .inspect (.ite (fun _ => ?_) fun _ => .pure h)
    refine (h.skip bump_gathers).bind fun _ _ h => ?_
    refine (h.gather ident_builds.gathers).bind fun _ _ h => ?_
    exact h.finish (fun _ => rfl) (fun _ => rfl) fun _ => rfl
  · refine (h.skip bump_gathers).bind fun _ _ h => ?_
    exact h.finish (fun _ => rfl) (fun _ => rfl) fun _ => rfl
  · exact .pure h

theorem postfixStep?_built (he : Builds (fun x => [.expr x]) e) {base : Expr}
    (h : Built s s' [.expr base]) : Accepts (postfixStep? e s.current.span.start base) s'
      fun r s'' => Built s s'' [.expr (r.getD base)] := by
  refine .inspect (.ite (fun _ => ?_) fun _ => selector?_built he h)
  refine (h.gather (arguments_gathers he)).bind fun _ _ h => ?_
  exact h.finish (fun _ => rfl) (fun _ => rfl) fun _ => rfl

theorem designator_builds (he : Builds (fun x => [.expr x]) e) :
    Builds (fun x => [.expr x]) (designator e) := by
  intro s hs
  have hselect {base : Expr} {s' : ParserState} (h : Built s s' [.expr base]) :
      Accepts (iterate (selector? e s.current.span.start) base) s' fun x s'' =>
        Built s s'' [.expr x] :=
    iterate_accepts (fun _ _ h => selector?_built he h) h
  refine .inspect (.inspect ?_)
  split
  · next hself =>
    have hk : s.kind ≠ .eof := by
      rw [of_decide_eq_true hself]
      simp
    exact (bump_leaf hs hk).bind fun _ _ h => .pure_bind (hselect (h _ rfl rfl rfl))
  · exact (ident_builds _ hs).bind fun _ _ h => .pure_bind (hselect (h.wrap rfl rfl rfl))

/-- A method call starts where the word before it does. -/
theorem methodCall_built (he : Builds (fun x => [.expr x]) e) (h : Gathered s s' []) :
    Accepts (methodCall e s.current.span.start) s' fun c s'' => Built s s'' [.methodCall c] := by
  refine (h.build (designator_builds he)).bind fun _ _ h => ?_
  refine (h.skip (eatWord_gathers _)).bind fun _ _ h => ?_
  refine (h.gather ident_builds.gathers).bind fun _ _ h => ?_
  refine (h.gather (arguments?_gathers he)).bind fun _ _ h => ?_
  exact h.finish (fun _ => rfl) (fun _ => rfl) fun _ => rfl

/-! ## Primaries -/

theorem rangeOrValue_builds (he : Builds (fun x => [.expr x]) e) :
    Builds (fun x => [.expr x]) (rangeOrValue e) := by
  refine fun s hs => .inspect <| (he s hs).bind fun _ _ h => ?_
  refine (h.skip (eatMark_gathers _)).bind fun _ _ h => .ite (fun _ => ?_) fun _ => .pure h
  refine (h.gather he.gathers).bind fun _ _ h => ?_
  exact h.finish (fun _ => rfl) (fun _ => rfl) fun _ => rfl

theorem setLiteral_builds (he : Builds (fun x => [.expr x]) e) :
    Builds (fun x => [.expr x]) (setLiteral e) := by
  have hrest {elements : List Expr} {s s' : ParserState}
      (h : Gathered s s' (elements.map .expr)) : Accepts (do
        expectMark .rBracket
        pure (.set elements (← spanFrom s.current.span.start))) s' fun x s'' =>
          Built s s'' [.expr x] :=
    (h.read (expectMark_builds _)).bind fun _ _ h =>
      h.finish (fun _ => rfl) (fun _ => rfl) fun _ => rfl
  refine fun s hs => .inspect <| (bump_accepts hs).bind fun _ _ ⟨_, h⟩ => .inspect ?_
  refine .ite (fun _ => .pure_bind (hrest h)) fun _ => ?_
  refine (h.gather (commaSeparated_builds (rangeOrValue_builds he)).gathers).bind ?_
  exact fun _ _ h => hrest h

theorem integerLiteral_built (hs : Ordered s) (hk : s.kind ≠ .eof) :
    Accepts integerLiteral s fun x s' => Built s s' [.expr x] := by
  refine (bump_leaf hs hk).bind fun _ _ h => ?_
  split
  · exact .pure (h _ rfl rfl rfl)
  · exact .after (.report _)

theorem primary_builds (he : Builds (fun x => [.expr x]) e) :
    Builds (fun x => [.expr x]) (primary e) := by
  intro s hs
  have hleaf (hk : s.kind ≠ .eof) := bump_leaf hs hk
  refine .inspect (.inspect ?_)
  split
  · exact (ident_builds s hs).bind fun _ _ h => .pure (h.wrap rfl rfl rfl)
  · next hk => exact integerLiteral_built hs (by simp [hk])
  iterate 10
    next hk => exact (hleaf (by simp [hk])).bind fun _ _ h => .pure (h _ rfl rfl rfl)
  · refine (bump_accepts hs).bind fun _ _ ⟨_, h⟩ => ?_
    refine (h.build he).bind fun _ _ h => ?_
    exact (h.skip (expectMark_builds _).gathers).bind fun _ _ h => .pure h
  · exact setLiteral_builds he s hs
  · refine (bump_accepts hs).bind fun _ _ ⟨_, h⟩ => ?_
    exact (methodCall_built he h).bind fun _ _ h => .pure (h.wrap rfl rfl rfl)
  · refine (bump_accepts hs).bind fun _ _ ⟨_, h⟩ => ?_
    refine (h.build ident_builds).bind fun _ _ h => ?_
    refine (h.gather (arguments?_gathers he)).bind fun _ _ h => ?_
    exact h.finish (fun _ => rfl) (fun _ => rfl) fun _ => rfl
  · exact .after .failInContext

theorem postfixed_builds (he : Builds (fun x => [.expr x]) e) :
    Builds (fun x => [.expr x]) (postfixed e) := fun s hs =>
  .inspect <| (primary_builds he s hs).bind fun _ _ h =>
    iterate_accepts (fun _ _ h => postfixStep?_built he h) h

/-! ## Operators -/

/-- A sign, as the place at which the node of its operator starts. -/
def signPlace (op : UnaryOp × Position) : Node := .expr (.missing (.emptyAt op.2))

theorem unaryRound_gathers : Gathers (fun r => r.found?.toList.map signPlace) (do
    match unaryOp? (← kind) with
    | some op => do
      let t ← bump
      found (op, t.span.start)
    | none => stopped : Parser (Round Unit (UnaryOp × Position))) := by
  refine fun s hs => .inspect ?_
  split
  · next op hop =>
    have hk : s.kind ≠ .eof := by
      intro hk
      simp [hk, unaryOp?] at hop
    refine (bump_built hs hk).bind fun t _ ⟨ht, _, h⟩ => .pure ?_
    subst ht
    refine (h.put ?_ ?_ ?_ ?_ ?_ (.listed rfl) rfl).toGathered
    · exact le_refl _
    · exact le_refl _
    · exact h.begun
    · exact ⟨(edge_current s).1, (edge_current s).1⟩
    · simp
  · exact .pure (.refl hs)

/-- The node of a sign takes its place and goes over the value behind it. -/
theorem sign_built {ms : List Node} {op : UnaryOp × Position} {x : Expr}
    (h : Built s s' (ms ++ [signPlace op, .expr x])) :
    Built s s' (ms ++ [.expr (.unary op.1 x ⟨op.2, s'.lastEnd.later op.2⟩)]) := by
  obtain ⟨hms, hpair, hcross⟩ := List.pairwise_append.1 h.sequence
  have hx : op.2 ≤ x.span.start := List.rel_of_pairwise_cons hpair (List.mem_singleton.2 rfl)
  obtain ⟨-, hstart, hend⟩ := h.nested (signPlace op) (by simp)
  obtain ⟨hnested, -, hstop⟩ := h.nested (.expr x) (by simp)
  have hend : op.2 ≤ s'.lastEnd := hend
  rw [Position.later_of_ge hend]
  refine ⟨⟨h.origin, ?_, h.eof, fun n hn => ?_, ?_, fun n hn => ?_, fun n hn => ?_⟩, h.begun⟩
  · obtain ⟨read, hread, hlast, hkind, hnames⟩ := h.reads
    refine ⟨read, hread, hlast, hkind, le_trans (le_of_eq ?_) hnames⟩
    rw [Node.names_append, Node.names_append, Node.names_cons (signPlace op),
      Node.names_singleton (.expr (.unary _ _ _)), Node.names_singleton (signPlace op)]
    rfl
  · rcases List.mem_append.1 hn with hn | hn
    · exact h.nested n (List.mem_append_left _ hn)
    · obtain rfl := List.mem_singleton.1 hn
      have hcovers : (⟨op.2, s'.lastEnd⟩ : Span).containsSpan x.span := by
        simp only [Span.containsSpan, Bool.and_eq_true, decide_eq_true_eq]
        exact ⟨hx, hstop⟩
      exact ⟨.mk hend (List.forall_mem_singleton.2 hcovers) (List.forall_mem_singleton.2 hnested),
        hstart, le_refl _⟩
  · refine List.pairwise_append.2 ⟨hms, List.pairwise_singleton _ _, fun n hn m hm => ?_⟩
    obtain rfl := List.mem_singleton.1 hm
    exact hcross n hn (signPlace op) (by simp)
  · rcases List.mem_append.1 hn with hn | hn
    · exact h.sequenced n (List.mem_append_left _ hn)
    · obtain rfl := List.mem_singleton.1 hn
      have hsequenced : Sequenced (.expr x) := h.sequenced (.expr x) (by simp)
      exact .node (List.pairwise_singleton _ _) (List.forall_mem_singleton.2 hsequenced)
  · rcases List.mem_append.1 hn with hn | hn
    · exact h.edged n (List.mem_append_left _ hn)
    · obtain rfl := List.mem_singleton.1 hn
      have hplace : Edged s (signPlace op) := h.edged (signPlace op) (by simp)
      have hx : Edged s (.expr x) := h.edged (.expr x) (by simp)
      exact .over hplace.own.1 h.edge_end (List.forall_mem_singleton.2 hx)

/-- The operators before a value make nodes over it, the last one first. -/
theorem signs_built {ops : List (UnaryOp × Position)} {operand : Expr}
    (h : Built s s' (ops.map signPlace ++ [.expr operand])) :
    Accepts (ops.foldrM (fun op x => do pure (.unary op.1 x (← spanFrom op.2))) operand) s'
      fun x s'' => Built s s'' [.expr x] := by
  unfold List.foldrM
  generalize hrev : ops.reverse = rev
  obtain rfl : ops = rev.reverse := by rw [← hrev, List.reverse_reverse]
  clear hrev
  induction rev generalizing operand with
  | nil => exact .pure h
  | cons op rev ih =>
    rw [List.reverse_cons, List.map_append, List.append_assoc] at h
    exact Accepts.inspect (.pure_bind (ih (sign_built h)))

theorem unary_builds (he : Builds (fun x => [.expr x]) e) :
    Builds (fun x => [.expr x]) (unary e) := by
  intro s hs
  refine (many_gathers unaryRound_gathers s hs).bind fun ops _ h => ?_
  refine (h.build (postfixed_builds he)).bind fun operand _ h => ?_
  exact signs_built h

theorem leftAssociative_builds (op? : TokenKind → Option BinaryOp)
    (ho : Builds (fun x => [.expr x]) e) :
    Builds (fun x => [.expr x]) (leftAssociative op? e) := by
  refine fun s hs => .inspect <| (ho s hs).bind fun _ _ h => iterate_accepts (fun left s' h => ?_) h
  refine .inspect ?_
  split
  · exact .pure h
  · refine (h.skip bump_gathers).bind fun _ _ h => .inspect ?_
    refine .ite (fun _ => .after .fail) fun _ => ?_
    refine (h.gather ho.gathers).bind fun _ _ h => ?_
    exact h.finish (fun _ => rfl) (fun _ => rfl) fun _ => rfl

theorem binary_builds (he : Builds (fun x => [.expr x]) e)
    (ops : List (TokenKind → Option BinaryOp)) : Builds (fun x => [.expr x]) (binary e ops) := by
  induction ops with
  | nil => exact unary_builds he
  | cons op? tighter ih => exact leftAssociative_builds op? ih

/-- An expression makes one node. -/
theorem expr_builds : Builds (fun x => [.expr x]) expr :=
  recurse_builds fun _ he => (binary_builds he levels).within

end SimFront.Grammar
