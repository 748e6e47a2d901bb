import SimFront.Grammar.Decl
import SimFront.Proofs.Grammar.Gathering
import SimFront.Proofs.Grammar.Takes

/-!
# Counting what is open

A scan that looks for the body of a procedure sees a row of tokens, and counts the records and
objects that are open.  A `Tally` is such a count with the kind of the token before; it takes
every END for the end of the innermost construct, and a word behind END for its repetition.
`Tallied g s g' s'` says that from `s` to `s'` tokens were read that lead from one tally to the
other.  What is read as an expression leaves the count as it is (`expr_keeps`).
-/

namespace SimFront.Grammar

open SimFront.Parser

variable {α β σ : Type} {p : Parser α} {s s' s'' : ParserState} {k : TokenKind}

/-! ## Tallies -/

/-- How many records and objects are open behind some tokens, and the kind of the last of them. -/
structure Tally where
  opened : Nat
  last : TokenKind

/-- The kinds of tokens that a scan looks at. -/
def structural : List TokenKind :=
  [.eof, .word .RECORD, .word .OBJECT, .word .END, .word .BEGIN, .word .PROCEDURE]

/-- The kinds of tokens that a type stands behind. -/
def beforeType : List TokenKind := [.mark .colon, .mark .eq, .word .OF, .word .TO]

namespace Tally

/-- What a token does to a tally. -/
inductive Step : Tally → TokenKind → Tally → Prop
  | plain {g : Tally} {k : TokenKind} (hk : k ∉ structural) : Step g k ⟨g.opened, k⟩
  | opener {g : Tally} {w : Keyword} (hw : w ∈ [Keyword.RECORD, .OBJECT])
      (hlast : g.last ∈ beforeType) : Step g (.word w) ⟨g.opened + 1, .word w⟩
  | procedure {g : Tally} (hlast : g.last ∈ beforeType) :
      Step g (.word .PROCEDURE) ⟨g.opened, .word .PROCEDURE⟩
  | close {opened : Nat} {last : TokenKind} :
      Step ⟨opened + 1, last⟩ (.word .END) ⟨opened, .word .END⟩
  | construct {opened : Nat} {w : Keyword} (hw : w ∈ [Keyword.RECORD, .OBJECT]) :
      Step ⟨opened, .word .END⟩ (.word w) ⟨opened, .word w⟩

/-- What a row of tokens does to a tally. -/
inductive Run : Tally → List TokenKind → Tally → Prop
  | nil (g : Tally) : Run g [] g
  | cons {g g' g'' : Tally} {k : TokenKind} {ks : List TokenKind} (hstep : g.Step k g')
      (hrun : Run g' ks g'') : Run g (k :: ks) g''

theorem Run.append {g g' g'' : Tally} {ks ls : List TokenKind} (h : Run g ks g')
    (h' : Run g' ls g'') : Run g (ks ++ ls) g'' := by
  induction h with
  | nil => exact h'
  | cons hstep _ ih => exact .cons hstep (ih h')

end Tally

/-! ## What is read -/

/-- The tokens read from `s` to `s'` lead from one tally to another. -/
structure Tallied (g : Tally) (s : ParserState) (g' : Tally) (s' : ParserState) : Prop where
  reads : ∃ read, s.rest = read ++ s'.rest ∧ g.Run (read.map (·.kind)) g'
  eof : s'.eof = s.eof

variable {g g' g'' : Tally}

theorem Tallied.refl (g : Tally) (s : ParserState) : Tallied g s g s := ⟨⟨[], rfl, .nil g⟩, rfl⟩

theorem Tallied.trans (h : Tallied g s g' s') (h' : Tallied g' s' g'' s'') :
    Tallied g s g'' s'' := by
  obtain ⟨read, hread, hrun⟩ := h.reads
  obtain ⟨read', hread', hrun'⟩ := h'.reads
  refine ⟨⟨read ++ read', by rw [hread, hread', List.append_assoc], ?_⟩, h'.eof.trans h.eof⟩
  rw [List.map_append]
  exact hrun.append hrun'

theorem Tallied.bump (heof : s.eof.kind = .eof) (hstep : g.Step s.kind g') (hk : s.kind ≠ .eof) :
    Tallied g s g' s.bump := by
  unfold ParserState.kind ParserState.current ParserState.token at hstep hk
  unfold ParserState.bump
  cases hr : s.rest with
  | nil => simp [hr, heof] at hk
  | cons t ts =>
    have ht : t.kind ≠ .eof := by simpa [hr] using hk
    simp only [if_neg ht]
    refine ⟨⟨[t], by simp [hr], .cons ?_ (.nil g')⟩, rfl⟩
    simpa [hr] using hstep

/-- In strict mode `p` reads from `s` tokens that lead from `g` to another tally, which satisfies
`Q` with the value. -/
def Counts (g : Tally) (s : ParserState) (p : Parser α) (Q : α → Tally → Prop) : Prop :=
  s.eof.kind = .eof → Accepts p s fun a s' => ∃ g', Tallied g s g' s' ∧ Q a g'

/-- As many constructs are open as before. -/
def Kept (g : Tally) (_ : α) (g' : Tally) : Prop := g'.opened = g.opened

namespace Counts

variable {f : α → Parser β} {Q : α → Tally → Prop} {R : β → Tally → Prop}

theorem mono {Q' : α → Tally → Prop} (h : Counts g s p Q) (hQ : ∀ a g', Q a g' → Q' a g') :
    Counts g s p Q' := fun heof => (h heof).mono fun a _ ⟨g', hg', ha⟩ => ⟨g', hg', hQ a g' ha⟩

theorem pure {a : α} (h : Q a g) : Counts g s (pure a) Q := fun _ => .pure ⟨g, .refl g s, h⟩

theorem bind (hp : Counts g s p Q) (hf : ∀ a g' s', Q a g' → Counts g' s' (f a) R) :
    Counts g s (p >>= f) R := by
  intro heof
  refine (hp heof).bind fun a s' ⟨g', hread, ha⟩ => ?_
  refine (hf a g' s' ha (by rw [hread.eof, heof])).mono fun b s'' ⟨g'', hread', hb⟩ => ?_
  exact ⟨g'', hread.trans hread', hb⟩

theorem inspect {γ : Type} {h : ParserState → γ} {f : γ → Parser β}
    (hf : Counts g s (f (h s)) R) : Counts g s (Parser.inspect h >>= f) R :=
  fun heof => .inspect (hf heof)

theorem ite {c : Prop} [Decidable c] {q : Parser α} (hp : c → Counts g s p Q)
    (hq : ¬ c → Counts g s q Q) : Counts g s (if c then p else q) Q :=
  fun heof => .ite (fun h => hp h heof) fun h => hq h heof

theorem within {c : Context} (h : Counts g { s with contexts := c :: s.contexts } p Q) :
    Counts g s (Parser.within c p) Q :=
  fun heof => .within ((h heof).mono fun _ _ ⟨g', hread, ha⟩ => ⟨g', ⟨hread.reads, hread.eof⟩, ha⟩)

theorem past {left : Nat} (h : Counts g s p Q) : Counts g s (Parser.past left p) Q :=
  fun heof => (h heof).past

theorem never (h : Accepts p s fun _ _ => False) : Counts g s p Q :=
  fun _ => h.mono fun _ _ h => h.elim

/-- What follows a report is not run. -/
theorem after {q : Parser Unit} {f : Unit → Parser β} (h : Accepts q s fun _ _ => False) :
    Counts g s (q >>= f) R := fun _ => .after h

/-- A token is read that the tally knows what to do with. -/
theorem bump {f : Token → Parser β} (hstep : g.Step s.kind g') (hk : s.kind ≠ .eof)
    (hf : ∀ t s', Counts g' s' (f t) R) : Counts g s (Parser.bump >>= f) R := by
  have hbump : Counts g s Parser.bump fun _ g'' => g'' = g' := by
    intro heof
    rintro _ _ ⟨⟩
    exact ⟨g', .bump heof hstep hk, rfl⟩
  refine hbump.bind ?_
  rintro t _ s' rfl
  exact hf t s'

theorem ne_eof_of_plain (hk : k ∉ structural) : k ≠ .eof := by
  rintro rfl
  exact hk List.mem_cons_self

theorem bumpPlain {f : Token → Parser β} (hk : s.kind = k) (hplain : k ∉ structural)
    (hf : ∀ t s', Counts ⟨g.opened, k⟩ s' (f t) R) : Counts g s (Parser.bump >>= f) R := by
  subst hk
  exact bump (.plain hplain) (ne_eof_of_plain hplain) hf

/-- A token that is eaten, or stays where it is. -/
theorem eat {f : Bool → Parser β} (hstep : g.Step k g') (hk : k ≠ .eof)
    (hyes : ∀ s', Counts g' s' (f true) R) (hno : ∀ s', Counts g s' (f false) R) :
    Counts g s (Parser.eat k >>= f) R := by
  have heat : Counts g s (Parser.eat k) fun b g'' =>
      b = true ∧ g'' = g' ∨ b = false ∧ g'' = g := by
    refine inspect (ite (fun h => ?_) fun _ => pure (.inr ⟨rfl, rfl⟩))
    obtain rfl := of_decide_eq_true h
    exact bump hstep hk fun _ _ => pure (.inl ⟨rfl, rfl⟩)
  refine heat.bind ?_
  rintro _ _ s' (⟨rfl, rfl⟩ | ⟨rfl, rfl⟩)
  · exact hyes s'
  · exact hno s'

/-- A token that is expected. -/
theorem expect {code : SyntaxCode} {f : Unit → Parser β} (hplain : k ∉ structural)
    (hf : ∀ s', Counts ⟨g.opened, k⟩ s' (f ()) R) :
    Counts g s (Parser.expectWith code k >>= f) R := by
  have hexpect : Counts g s (Parser.expectWith code k) fun _ g' => g' = ⟨g.opened, k⟩ :=
    eat (.plain hplain) (ne_eof_of_plain hplain) (fun _ => pure rfl)
      fun _ => never (.ite (fun h => nomatch h) fun _ => .fail)
  refine hexpect.bind ?_
  rintro _ _ s' rfl
  exact hf s'

end Counts

/-! ## What leaves the count as it is -/

/-- Wherever it is run, `p` leaves as many constructs open as there were. -/
def Keeps (p : Parser α) : Prop := ∀ g s, Counts g s p (Kept g)

/-- The same where the first token is of the kind `k`. -/
def KeepsAt (k : TokenKind) (p : Parser α) : Prop := ∀ g s, s.kind = k → Counts g s p (Kept g)

theorem Counts.keep {f : α → Parser β} (hp : Counts g s p (Kept g)) (hf : ∀ a, Keeps (f a)) :
    Counts g s (p >>= f) (Kept g) :=
  hp.bind fun a g' s' hkept => (hf a g' s').mono fun _ _ hkept' => hkept'.trans hkept

theorem KeepsAt.bump {f : Token → Parser α} (hplain : k ∉ structural) (hf : ∀ t, Keeps (f t)) :
    KeepsAt k (Parser.bump >>= f) := fun g _ hk =>
  .bumpPlain hk hplain fun t s' => hf t ⟨g.opened, k⟩ s'

theorem KeepsAt.bind {f : α → Parser β} (hp : KeepsAt k p) (hf : ∀ a, Keeps (f a)) :
    KeepsAt k (p >>= f) := fun g s hk => (hp g s hk).keep hf

theorem KeepsAt.inspect {h : ParserState → α} {f : α → Parser β} (hf : ∀ a, KeepsAt k (f a)) :
    KeepsAt k (Parser.inspect h >>= f) := fun g s hk => .inspect (hf _ g s hk)

/-- What a rule leaves as it is when the parser that it may use does, the recursion does. -/
theorem recurse_counts {rule : Parser α → Parser α} {K : Tally → Prop}
    (hr : ∀ p, (∀ g s, K g → Counts g s p (Kept g)) → ∀ g s, K g → Counts g s (rule p) (Kept g))
    (g : Tally) (s : ParserState) (hg : K g) : Counts g s (recurse rule) (Kept g) := by
  have key (fuel : Nat) : ∀ g s, K g → Counts g s (recurseAt rule fuel) (Kept g) := by
    induction fuel with
    | zero => exact fun _ _ _ => .never .exhausted
    | succ fuel ih => exact fun g s hg => hr _ (fun g s hg => (ih g s hg).past) g s hg
  exact key (s.rest.length + 1) g s hg

theorem KeepsAt.within {c : Context} (hp : KeepsAt k p) : KeepsAt k (Parser.within c p) :=
  fun g _ hk => .within (hp g _ hk)

namespace Keeps

variable {f : α → Parser β}

theorem pure (a : α) : Keeps (pure a : Parser α) := fun _ _ => .pure rfl

theorem bind (hp : Keeps p) (hf : ∀ a, Keeps (f a)) : Keeps (p >>= f) :=
  fun g s => (hp g s).keep hf

theorem inspect {h : ParserState → α} (hf : ∀ a, Keeps (f a)) :
    Keeps (Parser.inspect h >>= f) := fun g s => .inspect (hf _ g s)

theorem ite {c : Prop} [Decidable c] {q : Parser α} (hp : Keeps p) (hq : Keeps q) :
    Keeps (if c then p else q) := fun g s => .ite (fun _ => hp g s) fun _ => hq g s

/-- Where there is a token of some kind, a rule that needs it there. -/
theorem atKind {q : Parser α} (hk : KeepsAt k p) (hq : Keeps q) :
    Keeps (do if ← Parser.atKind k then p else q) := fun g s =>
  .inspect (.ite (fun h => hk g s (of_decide_eq_true h)) fun _ => hq g s)

theorem within {c : Context} (hp : Keeps p) : Keeps (Parser.within c p) :=
  fun g _ => .within (hp g _)

theorem after {q : Parser Unit} {f : Unit → Parser β} (h : ∀ s, Accepts q s fun _ _ => False) :
    Keeps (q >>= f) := fun _ s => .after (h s)

theorem spanFrom {start : Position} (h : Span → α) :
    Keeps (do Pure.pure (h (← Parser.spanFrom start))) := inspect fun _ => pure _

theorem eat (hplain : k ∉ structural) : Keeps (Parser.eat k) := fun _ _ =>
  .inspect (.ite (fun h => .bumpPlain (of_decide_eq_true h) hplain fun _ _ => .pure rfl)
    fun _ => .pure rfl)

theorem eatMark (m : Mark) : Keeps (Parser.eatMark m) := eat (by simp [structural])

theorem expectWith {code : SyntaxCode} (hplain : k ∉ structural) :
    Keeps (Parser.expectWith code k) :=
  (eat hplain).bind fun _ => ite (pure _) fun _ _ => .never .fail

theorem expectMark (m : Mark) : Keeps (Parser.expectMark m) := expectWith (by simp [structural])

theorem semicolon : Keeps Parser.semicolon := expectMark _

theorem ident : Keeps Parser.ident := by
  have hread : Keeps identOrMissing :=
    .atKind (.bump (by simp [structural]) fun _ => pure _) (inspect fun _ => pure _)
  exact inspect fun _ => ite hread (after fun _ => .fail)

theorem whenever {c : Parser Bool} (hc : Keeps c) (hp : Keeps p) : Keeps (Parser.whenever c p) :=
  hc.bind fun _ => ite (hp.bind fun _ => pure _) (pure _)

theorem gather {round : σ → Parser (Round σ α)} (hr : ∀ x, Keeps (round x)) (x : σ) :
    Keeps (Parser.gather round x) := by
  have key (fuel : Nat) : ∀ x, Keeps (gatherAt round fuel x) := by
    induction fuel with
    | zero => exact fun _ _ _ => .never .exhausted
    | succ fuel ih =>
      refine fun x => inspect fun _ => (hr x).bind fun r => ?_
      cases r with
      | stop found => exact pure _
      | next x' found => exact bind (fun g s => (ih x' g s).past) fun _ => pure _
  exact fun g s => key (s.rest.length + 1) x g s

theorem many {round : Parser (Round Unit α)} (hr : Keeps round) : Keeps (Parser.many round) :=
  gather (fun _ => hr) ()

theorem commaSeparated (hp : Keeps p) : Keeps (Parser.commaSeparated p) :=
  hp.bind fun _ => (many ((eatMark _).bind fun _ =>
    ite (hp.bind fun _ => pure _) (pure _))).bind fun _ => pure _

theorem iterate {step : α → Parser (Option α)} (hstep : ∀ a, Keeps (step a)) (a : α) :
    Keeps (Parser.iterate step a) := by
  have key (fuel : Nat) : ∀ a, Keeps (iterateAt step fuel a) := by
    induction fuel with
    | zero => exact fun _ _ _ => .never .exhausted
    | succ fuel ih =>
      refine fun a => inspect fun _ => (hstep a).bind fun r => ?_
      cases r with
      | none => exact pure _
      | some a' => exact fun g s => (ih a' g s).past
  exact fun g s => key (s.rest.length + 1) a g s

theorem recurse {rule : Parser α → Parser α} (hr : ∀ p, Keeps p → Keeps (rule p)) :
    Keeps (Parser.recurse rule) := fun g s =>
  recurse_counts (fun p hp g s _ => hr p (fun g s => hp g s trivial) g s) g s trivial

end Keeps

/-! ## Expressions -/

section Nested

variable {expr : Parser Expr} (he : Keeps expr)

include he

theorem arguments_keepsAt : KeepsAt (.mark .lParen) (arguments expr) := by
  refine .bump (by simp [structural]) fun _ => ?_
  have hargs : Keeps (do
      if ← atKind (.mark .rParen) then pure [] else commaSeparated expr) :=
    .inspect fun _ => .ite (.pure _) (.commaSeparated he)
  refine hargs.within.bind fun _ => (Keeps.eatMark _).bind fun _ => .ite (.pure _) ?_
  exact .after fun _ => .failRelated

theorem arguments?_keeps : Keeps (arguments? expr) := .atKind (arguments_keepsAt he) (.pure _)

theorem selector?_keeps (start : Position) (base : Expr) : Keeps (selector? expr start base) := by
  intro g s
  refine .inspect ?_
  split
  · next hk =>
    refine .bumpPlain hk (by simp [structural]) fun _ s' => ?_
    exact ((Keeps.commaSeparated he).bind fun _ => (Keeps.expectMark _).bind fun _ =>
      .spanFrom _) _ s'
  · next hk =>
    refine .inspect (.ite (fun _ => ?_) fun _ => .pure rfl)
    refine .bumpPlain hk (by simp [structural]) fun _ s' => ?_
    exact (Keeps.ident.bind fun _ => .spanFrom _) _ s'
  · next hk => exact .bumpPlain hk (by simp [structural]) fun _ s' => Keeps.spanFrom _ _ s'
  · exact .pure rfl

theorem postfixStep?_keeps (start : Position) (base : Expr) :
    Keeps (postfixStep? expr start base) :=
  .atKind ((arguments_keepsAt he).bind fun _ => .spanFrom _) (selector?_keeps he start base)

theorem designator_keeps : Keeps (designator expr) := by
  refine .inspect fun start => .atKind ?_ ?_
  · exact .bump (by simp [structural]) fun _ => (Keeps.pure _).bind fun _ =>
      .iterate (selector?_keeps he start) _
  · exact Keeps.ident.bind fun _ => (Keeps.pure _).bind fun _ =>
      .iterate (selector?_keeps he start) _

theorem methodCall_keeps (start : Position) : Keeps (methodCall expr start) :=
  (designator_keeps he).bind fun _ => (Keeps.eat (by simp [structural])).bind fun _ =>
    Keeps.ident.bind fun _ => (arguments?_keeps he).bind fun _ => .spanFrom _

theorem rangeOrValue_keeps : Keeps (rangeOrValue expr) :=
  .inspect fun _ => he.bind fun _ => (Keeps.eatMark _).bind fun _ =>
    .ite (he.bind fun _ => .spanFrom _) (.pure _)

theorem setLiteral_keepsAt : KeepsAt (.mark .lBracket) (setLiteral expr) := by
  have hend (es : List Expr) (start : Position) : Keeps (do
      expectMark .rBracket
      pure (Expr.set es (← spanFrom start))) := (Keeps.expectMark _).bind fun _ => .spanFrom _
  refine .inspect fun _ => .bump (by simp [structural]) fun _ => .inspect fun _ => .ite ?_ ?_
  · exact (Keeps.pure _).bind fun _ => hend _ _
  · exact (Keeps.commaSeparated (rangeOrValue_keeps he)).bind fun _ => hend _ _

omit he in
theorem integerLiteral_keepsAt : KeepsAt .integer integerLiteral := by
  refine .bump (by simp [structural]) fun t => ?_
  split
  · exact .pure _
  · exact .after fun _ => .report _

theorem primary_keeps : Keeps (primary expr) := by
  intro g s
  have hone {k : TokenKind} (hk : s.kind = k) (hplain : k ∉ structural) (make : Token → Expr) :
      Counts g s (do pure (make (← bump))) (Kept g) :=
    .bumpPlain hk hplain fun _ _ => .pure rfl
  refine .inspect (.inspect ?_)
  split
  · exact (Keeps.ident.bind fun _ => .pure _) g s
  · next hk => exact integerLiteral_keepsAt g s hk
  iterate 10
    next hk => exact hone hk (by simp [structural]) _
  · next hk =>
    refine .bumpPlain hk (by simp [structural]) fun _ s' => ?_
    exact (he.bind fun _ => (Keeps.expectMark _).bind fun _ => .pure _) _ s'
  · next hk => exact setLiteral_keepsAt he g s hk
  · next hk =>
    refine .bumpPlain hk (by simp [structural]) fun _ s' => ?_
    exact ((methodCall_keeps he _).bind fun _ => .pure _) _ s'
  · next hk =>
    refine .bumpPlain hk (by simp [structural]) fun _ s' => ?_
    exact (Keeps.ident.bind fun _ => (arguments?_keeps he).bind fun _ => .spanFrom _) _ s'
  · exact .after .failInContext

theorem postfixed_keeps : Keeps (postfixed expr) :=
  .inspect fun start => (primary_keeps he).bind fun _ => .iterate (postfixStep?_keeps he start) _

omit he in
theorem signs_keeps : Keeps signs := by
  refine .many fun g s => .inspect ?_
  split
  · next op hop =>
    have hplain : s.kind ∉ structural := by
      intro hk
      simp only [structural, List.mem_cons, List.not_mem_nil, or_false] at hk
      rcases hk with hk | hk | hk | hk | hk | hk <;> simp [hk, unaryOp?] at hop
    exact .bumpPlain rfl hplain fun _ _ => .pure rfl
  · exact .pure rfl

theorem unary_keeps : Keeps (unary expr) := by
  refine signs_keeps.bind fun ops => (postfixed_keeps he).bind fun e => ?_
  induction ops with
  | nil => exact .pure e
  | cons op ops ih =>
    rw [List.foldrM_cons]
    exact ih.bind fun _ => .spanFrom _

omit he in
/-- No level takes a token that a scan looks at for an operator. -/
theorem levels_structural {op? : TokenKind → Option BinaryOp} (hop : op? ∈ levels)
    (hk : k ∈ structural) : op? k = none := by
  simp only [levels, List.mem_cons, List.not_mem_nil, or_false] at hop
  simp only [structural, List.mem_cons, List.not_mem_nil, or_false] at hk
  rcases hop with rfl | rfl | rfl | rfl | rfl | rfl <;>
    rcases hk with rfl | rfl | rfl | rfl | rfl | rfl <;> rfl

omit he in
theorem leftAssociative_keeps {op? : TokenKind → Option BinaryOp} {operand : Parser Expr}
    (hop : ∀ k ∈ structural, op? k = none) (ho : Keeps operand) :
    Keeps (leftAssociative op? operand) := by
  refine .inspect fun start => ho.bind fun first => .iterate (fun left g s => .inspect ?_) first
  split
  · exact .pure rfl
  · next op hop' =>
    have hplain : s.kind ∉ structural := fun hk => by simp [hop _ hk] at hop'
    refine .bumpPlain rfl hplain fun _ s' => .inspect ?_
    have hright : Keeps (do
        let right ← operand
        pure (some (Expr.binary op left right (← spanFrom start)))) :=
      ho.bind fun _ => .spanFrom _
    exact .ite (fun _ => .after .fail) fun _ => hright _ s'

theorem binary_keeps (ops : List (TokenKind → Option BinaryOp)) (hops : ∀ op? ∈ ops, op? ∈ levels) :
    Keeps (binary expr ops) := by
  induction ops with
  | nil => exact unary_keeps he
  | cons op? tighter ih =>
    have htighter := ih fun op?' h => hops op?' (List.mem_cons_of_mem _ h)
    refine leftAssociative_keeps (fun k hk => ?_) htighter
    exact levels_structural (hops _ List.mem_cons_self) hk

end Nested

/-- Expressions leave the count as it is. -/
theorem expr_keeps : Keeps expr :=
  .recurse fun _ hp => (binary_keeps hp levels fun _ h => h).within

end SimFront.Grammar
