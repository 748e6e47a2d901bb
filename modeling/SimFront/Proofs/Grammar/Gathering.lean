import SimFront.Proofs.Grammar.Gathered
import SimFront.Proofs.Grammar.Run

/-!
# What the parsers gather that all rules are made of

Tokens, names, repetition and recursion.  A token leaves no node behind; a name is a node
of its own.  Where a token is expected, a run without a report reads it (`Builds`).
Repetition gathers what its rounds find, in order.
-/

namespace SimFront.Parser

variable {α β σ : Type} {p : Parser α} {s s' : ParserState} {ns : List Node}
  {view : α → List Node}

/-! ## Single tokens -/

theorem Built.bump (hs : Ordered s) (hk : s.kind ≠ .eof) : Built s s.bump [] := by
  obtain ⟨hrest, hend, heof⟩ := hs.bump_eq hk
  refine ⟨⟨hs, ⟨[s.current], hrest, hend, List.forall_mem_singleton.2 hk, ?_⟩, heof, by simp,
    .nil, by simp, by simp⟩, ?_⟩
  · exact Multiset.zero_le _
  · rw [hend]
    exact hs.current_le.2

/-- A token can make a node of its own, which may be an identifier if the token is one. -/
theorem Built.leaf (hs : Ordered s) (hk : s.kind ≠ .eof) {n : Node}
    (hspan : n.span = s.current.span) (hchildren : n.children = [])
    (hident : n.ident? = none ∨ n.ident? = ident? s.current) : Built s s.bump [n] := by
  obtain ⟨hrest, hend, heof⟩ := hs.bump_eq hk
  have hsequenced : Sequenced n := by
    refine .node ?_ (by simp [hchildren])
    rw [hchildren]
    exact .nil
  have hedged : Edged s n := by
    obtain ⟨hstart, hstop⟩ := edge_current s
    rw [← hspan] at hstart hstop
    exact .over hstart hstop (by simp [hchildren])
  refine ⟨⟨hs, ⟨[s.current], hrest, hend, List.forall_mem_singleton.2 hk, ?_⟩, heof, ?_,
    List.pairwise_singleton _ _, List.forall_mem_singleton.2 hsequenced,
    List.forall_mem_singleton.2 hedged⟩, (Built.bump hs hk).begun⟩
  · rw [Node.names_singleton, hchildren, Node.names_nil, add_zero]
    rcases hident with h | h
    · rw [h]
      exact Multiset.zero_le _
    · rw [h]
      unfold identifiers
      rw [List.filterMap_cons]
      cases ident? s.current with
      | none => exact Multiset.zero_le _
      | some i => rw [List.filterMap_nil, Option.toList_some]
  · intro m hm
    obtain rfl := List.mem_singleton.1 hm
    rw [hspan, hend]
    refine ⟨.mk ?_ (by simp [hchildren]) (by simp [hchildren]), le_refl _, le_refl _⟩
    rw [hspan]
    exact hs.current_le.2

/-- A step to the next token, which stays at the end of the text. -/
theorem bump_accepts (hs : Ordered s) :
    Accepts bump s fun t s' => t = s.current ∧ Gathered s s' [] := by
  refine .inspect ?_
  have hbump : Gathered s s.bump [] := by
    by_cases hk : s.kind = .eof
    · rw [bump_of_eof hk]
      exact .refl hs
    · exact (Built.bump hs hk).toGathered
  rintro _ _ ⟨⟩
  exact ⟨rfl, hbump⟩

theorem bump_built (hs : Ordered s) (hk : s.kind ≠ .eof) :
    Accepts bump s fun t s' => t = s.current ∧ s' = s.bump ∧ Built s s' [] := by
  rintro _ _ ⟨⟩
  exact ⟨rfl, rfl, .bump hs hk⟩

theorem bump_gathers : Gathers silent bump := fun _ hs =>
  (bump_accepts hs).mono fun _ _ h => h.2

/-- A token that is read can be made a node. -/
theorem bump_leaf (hs : Ordered s) (hk : s.kind ≠ .eof) : Accepts bump s fun t s' =>
    ∀ n : Node, n.span = t.span → n.children = [] → n.ident? = none → Built s s' [n] :=
  (bump_built hs hk).mono fun _ _ ⟨ht, hs', _⟩ _ hspan hchildren hident =>
    hs' ▸ .leaf hs hk (ht ▸ hspan) hchildren (.inl hident)

theorem eat_gathers (k : TokenKind) : Gathers silent (eat k) := fun _ hs =>
  .inspect <| .ite
    (fun _ => (bump_accepts hs).bind fun _ _ h => .pure h.2)
    fun _ => .pure (.refl hs)

theorem eatMark_gathers (m : Mark) : Gathers silent (eatMark m) := eat_gathers _

theorem eatWord_gathers (k : Keyword) : Gathers silent (eatWord k) := eat_gathers _

/-- A token that is eaten was read. -/
theorem eat_accepts {k : TokenKind} (hs : Ordered s) (hk : k ≠ .eof) :
    Accepts (eat k) s fun b s' => b = true → Built s s' [] := by
  refine .inspect (.ite (fun h => ?_) fun _ => .pure nofun)
  have hne : s.kind ≠ .eof := by
    rw [of_decide_eq_true h]
    exact hk
  exact (bump_built hs hne).bind fun _ _ h => .pure fun _ => h.2.2

theorem expectWith_builds (code : SyntaxCode) {k : TokenKind} (hk : k ≠ .eof) :
    Builds silent (expectWith code k) := fun _ hs =>
  (eat_accepts hs hk).bind fun _ _ h => .ite (fun hb => .pure (h hb)) fun _ => .fail

theorem expectMark_builds (m : Mark) : Builds silent (expectMark m) :=
  expectWith_builds _ (by simp)

theorem expectWord_builds (k : Keyword) : Builds silent (expectWord k) :=
  expectWith_builds _ (by simp)

theorem semicolon_builds : Builds silent semicolon := expectMark_builds _

theorem Builds.gathers (hp : Builds view p) : Gathers view p := fun s hs =>
  (hp s hs).mono fun _ _ h => h.toGathered

theorem identOr_builds (code : SyntaxCode) (expected : String) :
    Builds (fun i => [.ident i]) (identOr code expected) := by
  intro s hs
  have hread (hk : s.kind = .ident) :
      Accepts identOrMissing s fun i s' => Built s s' [.ident i] := by
    refine .inspect (.ite (fun _ => ?_) fun h => absurd (decide_eq_true hk) h)
    refine (bump_built hs (by simp [hk])).bind fun t s' ⟨ht, hs', _⟩ => .pure ?_
    rw [ht, hs']
    have hident : ident? s.current = some ⟨s.current.text, s.current.span⟩ := if_pos hk
    exact .leaf hs (by simp [hk]) rfl rfl (.inr hident.symm)
  refine .inspect ?_
  split
  · next h => exact hread (of_decide_eq_true h)
  · exact .after .fail

theorem ident_builds : Builds (fun i => [.ident i]) ident := identOr_builds _ _

theorem closeWith_builds (k : Keyword) (opened : Span) : Builds silent (closeWith k opened) :=
  fun _ hs => (eat_accepts hs (k := .word .END) (by simp)).bind fun _ _ h => .ite
    (fun hb => ((h hb).skip (eatWord_gathers k)).bind fun _ _ h => .pure h)
    fun _ => .failRelated

/-! ## Skipping -/

theorem skip_gathered (hs : Ordered s) (stop : TokenKind → Bool) (n : Nat) :
    Gathered s (skipUntil.skip stop s n) [] := by
  induction n generalizing s with
  | zero => exact .refl hs
  | succ n ih =>
    unfold skipUntil.skip
    split
    · exact .refl hs
    · have hbump : Gathered s s.bump [] := (bump_accepts hs _ _ rfl).2
      exact hbump.trans (ih hbump.ordered)

theorem recover_gathers (c : Context) : Gathers silent (recover c) := fun _ hs =>
  (bump_accepts hs).bind fun _ _ ⟨_, h⟩ => by
    refine Accepts.bind (Q := fun _ s'' => Gathered _ s'' []) ?_ fun _ _ h =>
      (h.skip (eatMark_gathers .semicolon)).bind fun _ _ h => .pure h
    rintro _ _ ⟨⟩
    exact h.trans (skip_gathered h.ordered _ _)

/-! ## Sequencing -/

theorem Gathers.within {c : Context} (hp : Gathers view p) : Gathers view (within c p) := by
  intro s hs
  have h := hp { s with contexts := c :: s.contexts } ⟨hs.inOrder, hs.eof⟩
  exact .within (h.mono fun _ _ h => ⟨hs, h.reads, h.eof, h.nested, h.sequence, h.sequenced, h.edged⟩)

theorem Builds.within {c : Context} (hp : Builds view p) : Builds view (within c p) := by
  intro s hs
  have h := hp { s with contexts := c :: s.contexts } ⟨hs.inOrder, hs.eof⟩
  exact .within (h.mono fun _ _ h =>
    ⟨⟨hs, h.reads, h.eof, h.nested, h.sequence, h.sequenced, h.edged⟩, h.begun⟩)

/-- An optional node. -/
theorem Gathers.whenever {f : α → Node} {c : Parser Bool} (hc : Gathers silent c)
    (hp : Gathers (fun a => [f a]) p) : Gathers (fun o => o.toList.map f) (whenever c p) :=
  fun _ hs => (hc _ hs).bind fun _ _ h => .ite
    (fun _ => (h.gather hp).bind fun _ _ h => .pure h) fun _ => .pure h

/-- An optional block. -/
theorem Gathers.whenever_block {body : Parser (List Stmt)} {c : Parser Bool}
    (hc : Gathers silent c) (hp : Gathers (·.map .stmt) body) :
    Gathers Node.ofBlock? (Parser.whenever c body) :=
  fun _ hs => (hc _ hs).bind fun _ _ h => .ite
    (fun _ => (h.gather hp).bind fun _ _ h => .pure h) fun _ => .pure h

/-! ## Going round -/

/-- What a round found. -/
def Round.found? : Round σ α → Option α
  | .stop found => found
  | .next _ found => found

variable {f : α → Node}

theorem gatherAt_gathers {round : σ → Parser (Round σ α)}
    (hr : ∀ x, Gathers (fun r => r.found?.toList.map f) (round x)) (fuel : Nat) :
    ∀ x, Gathers (·.map f) (gatherAt round fuel x) := by
  induction fuel with
  | zero => exact fun _ _ _ => .exhausted
  | succ fuel ih =>
    intro x s hs
    refine .inspect ((hr x s hs).bind fun r s' h => ?_)
    cases r with
    | stop found => exact .pure h
    | next x' found =>
      refine (h.gather (ih x')).past.bind fun more s'' h => .pure ?_
      show Gathered s s'' ((found.toList ++ more).map f)
      rw [List.map_append]
      exact h

theorem gather_gathers {round : σ → Parser (Round σ α)}
    (hr : ∀ x, Gathers (fun r => r.found?.toList.map f) (round x)) (x : σ) :
    Gathers (·.map f) (gather round x) :=
  fun s hs => gatherAt_gathers hr (s.rest.length + 1) x s hs

theorem many_gathers {round : Parser (Round Unit α)}
    (hr : Gathers (fun r => r.found?.toList.map f) round) : Gathers (·.map f) (many round) :=
  gather_gathers (fun _ => hr) ()

/-- The rounds of a list with commas. -/
theorem commaRound_gathers (hp : Gathers (fun a => [f a]) p) :
    Gathers (fun r => r.found?.toList.map f)
      (do if ← eatMark .comma then found (← p) else stopped : Parser (Round Unit α)) :=
  fun _ hs => (eatMark_gathers .comma _ hs).bind fun _ _ h => .ite
    (fun _ => (h.gather hp).bind fun _ _ h => .pure h) fun _ => .pure h

theorem commaSeparated_builds (hp : Builds (fun a => [f a]) p) :
    Builds (·.map f) (commaSeparated p) :=
  fun _ hs => (hp _ hs).bind fun _ _ h =>
    (h.gather (many_gathers (commaRound_gathers hp.gathers))).bind fun _ _ h => .pure h

/-- What every step keeps holds of the value that no step follows. -/
theorem iterateAt_accepts {I : α → ParserState → Prop} {step : α → Parser (Option α)}
    (hstep : ∀ a s, I a s → Accepts (step a) s fun r s' => I (r.getD a) s') (fuel : Nat) :
    ∀ a s, I a s → Accepts (iterateAt step fuel a) s I := by
  induction fuel with
  | zero => exact fun _ _ _ => .exhausted
  | succ fuel ih =>
    intro a s h
    refine .inspect ((hstep a s h).bind fun r s' h => ?_)
    cases r with
    | none => exact .pure h
    | some a' => exact (ih a' s' h).past

theorem iterate_accepts {I : α → ParserState → Prop} {step : α → Parser (Option α)}
    (hstep : ∀ a s, I a s → Accepts (step a) s fun r s' => I (r.getD a) s') {a : α}
    (h : I a s) : Accepts (iterate step a) s I :=
  iterateAt_accepts hstep (s.rest.length + 1) a s h

/-! ## Recursion -/

/-- What a rule keeps when the parser that it may use does, holds of the recursion. -/
theorem recurse_accepts {rule : Parser α → Parser α} {P : ParserState → Prop}
    {Q : ParserState → α → ParserState → Prop}
    (hr : ∀ p, (∀ s, P s → Accepts p s (Q s)) → ∀ s, P s → Accepts (rule p) s (Q s)) :
    ∀ s, P s → Accepts (recurse rule) s (Q s) := by
  have key : ∀ fuel s, P s → Accepts (recurseAt rule fuel) s (Q s) := by
    intro fuel
    induction fuel with
    | zero => exact fun _ _ => .exhausted
    | succ fuel ih => exact fun s hs => hr _ (fun s' hs' => (ih s' hs').past) s hs
  exact fun s hs => key (s.rest.length + 1) s hs

theorem recurse_builds {rule : Parser α → Parser α}
    (hr : ∀ p, Builds view p → Builds view (rule p)) : Builds view (recurse rule) :=
  recurse_accepts hr

theorem recurse_gathers {rule : Parser α → Parser α}
    (hr : ∀ p, Gathers view p → Gathers view (rule p)) : Gathers view (recurse rule) :=
  recurse_accepts hr

/-! ## Ends of rules -/

/-- The last step of most rules: the span is read off, and the node over all that was gathered
is made with it. -/
theorem Built.finish (h : Built s s' ns) {g : Span → α} {n : α → Node}
    (hspan : ∀ span, (n (g span)).span = span) (hchildren : ∀ span, (n (g span)).children = ns)
    (hident : ∀ span, (n (g span)).ident? = none) :
    Accepts (do pure (g (← spanFrom s.current.span.start))) s' fun a s'' =>
      Built s s'' [n a] :=
  .inspect (.pure (h.node (hspan _) (.listed (hchildren _)) (hident _)))

end SimFront.Parser
