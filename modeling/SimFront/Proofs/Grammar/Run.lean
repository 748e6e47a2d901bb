import SimFront.Grammar.Parser
import SimFront.Proofs.Token.Coverage

/-!
# Runs of a parser in both modes

`Runs p s Q` says at once how `p` ends in the two modes when it starts in `s`.
Recovery mode ends with a value and a state that satisfy `Q`.  Strict mode ends
with the same value in the same state when nothing was reported on the way, and
with the first report otherwise.  On the way some tokens were read, none of which
ends the text.  Every report is about a token on the way, so along tokens in order
(`Lined`) the reports are in order too (`Reported`).

A bound that is used up is no such end, so the rules below keep count of tokens:

* `Strides more n p`: with fewer than `n` tokens left `p` runs, and it has read
  one if its value says that there is `more` to come;
* `Reads n p`: the same, and nothing is said about what was read;
* `Opens at_ n p`: with at most `n` tokens left, the first of the kinds `at_`, `p`
  runs and reads a token.  After it, fewer than `n` are left;
* `Starts at_ n p`: `p` opens so, and with fewer than `n` tokens left it runs at any of them.

Going round (`gather`, `iterate`) takes a round that strides, and recursion
(`recurse`) a rule that needs one token less for itself than it is given.
-/

namespace SimFront.Parser

variable {α β σ : Type} {p : Parser α} {f : α → Parser β} {s s' s'' : ParserState} {n : Nat}

/-! ## Reading on -/

/-- `s'` is what `s` becomes when tokens are read, none of them the end of the text. -/
structure Advances (s s' : ParserState) : Prop where
  reads : ∃ read, s.rest = read ++ s'.rest ∧ ∀ t ∈ read, t.kind ≠ .eof
  eof : s'.eof = s.eof
  contexts : s'.contexts = s.contexts

theorem Advances.refl (s : ParserState) : Advances s s := ⟨⟨[], rfl, by simp⟩, rfl, rfl⟩

theorem Advances.trans (h : Advances s s') (h' : Advances s' s'') : Advances s s'' := by
  obtain ⟨⟨r, hr, hk⟩, he, hc⟩ := h
  obtain ⟨⟨r', hr', hk'⟩, he', hc'⟩ := h'
  refine ⟨⟨r ++ r', by rw [hr, hr', List.append_assoc], ?_⟩, he'.trans he, hc'.trans hc⟩
  intro t ht
  rcases List.mem_append.mp ht with ht | ht
  · exact hk t ht
  · exact hk' t ht

theorem Advances.length_le (h : Advances s s') : s'.rest.length ≤ s.rest.length := by
  obtain ⟨r, hr, -⟩ := h.reads
  rw [hr, List.length_append]
  omega

/-- A state with as many tokens left as before has the same ones. -/
theorem Advances.rest_eq (h : Advances s s') (hl : s'.rest.length = s.rest.length) :
    s'.rest = s.rest := by
  obtain ⟨r, hr, -⟩ := h.reads
  have : r = [] := by
    rw [hr, List.length_append] at hl
    exact List.length_eq_zero_iff.mp (by omega)
  rw [hr, this, List.nil_append]

/-- The end of the text stands behind the tokens, of which fewer than `n` are left. -/
structure Below (n : Nat) (s : ParserState) : Prop where
  eof : s.eof.kind = .eof
  length : s.rest.length < n

theorem Below.advance (hs : Below n s) (h : Advances s s') : Below n s' :=
  ⟨by rw [h.eof, hs.eof], by have := h.length_le; have := hs.length; omega⟩

theorem Below.shorter (hs : Below (n + 1) s) (h : Advances s s')
    (hl : s'.rest.length < s.rest.length) : Below n s' :=
  ⟨by rw [h.eof, hs.eof], by have := hs.length; omega⟩

theorem Below.succ (hs : Below n s) : Below (n + 1) s := ⟨hs.eof, by have := hs.length; omega⟩

/-! ## Reports in order -/

/-- The tokens left, and the end of the text behind them, start one after the other. -/
def Lined (s : ParserState) : Prop :=
  (s.rest ++ [s.eof]).Pairwise fun t u => t.span.start.Reaches u.span.start

/-- Errors at places from `p` to `q`, the latest first, that were reported in the order of
their places. -/
structure Reported (p q : Position) (errors : List SyntaxError) : Prop where
  reaches : p.Reaches q
  between : ∀ e ∈ errors, p.Reaches e.span.start ∧ e.span.start.Reaches q
  inOrder : errors.Pairwise fun late early => early.span.start.Reaches late.span.start

namespace Reported

variable {p q r : Position} {es es' : List SyntaxError}

theorem nil (h : p.Reaches q) : Reported p q [] := ⟨h, List.forall_mem_nil _, .nil⟩

theorem single {e : SyntaxError} (h : p.Reaches q) (he : e.span.start = p) : Reported p q [e] := by
  refine ⟨h, List.forall_mem_singleton.2 ⟨?_, ?_⟩, List.pairwise_singleton _ _⟩
  · rw [he]
    exact .along p []
  · rwa [he]

theorem append (h : Reported p q es) (h' : Reported q r es') : Reported p r (es' ++ es) where
  reaches := h.reaches.trans h'.reaches
  between e he := by
    rcases List.mem_append.1 he with he | he
    · obtain ⟨hstart, hstop⟩ := h'.between e he
      exact ⟨h.reaches.trans hstart, hstop⟩
    · obtain ⟨hstart, hstop⟩ := h.between e he
      exact ⟨hstart, hstop.trans h'.reaches⟩
  inOrder := List.pairwise_append.2 ⟨h'.inOrder, h.inOrder, fun late hlate early hearly =>
    (h.between early hearly).2.trans (h'.between late hlate).1⟩

end Reported

theorem Lined.advance (hs : Lined s) (h : Advances s s') : Lined s' := by
  obtain ⟨r, hr, -⟩ := h.reads
  unfold Lined at hs ⊢
  rw [hr, List.append_assoc, ← h.eof] at hs
  exact (List.pairwise_append.1 hs).2.1

/-- Reading on leads to a token further on in the text, if to another one. -/
theorem Lined.reaches (hs : Lined s) (h : Advances s s') :
    s.current.span.start.Reaches s'.current.span.start := by
  obtain ⟨r, hr, -⟩ := h.reads
  have hcurrent (s : ParserState) : s.current = ((s.rest ++ [s.eof]).head?).getD s.eof := by
    unfold ParserState.current ParserState.token
    cases s.rest <;> rfl
  have hmem (s : ParserState) : s.current ∈ s.rest ++ [s.eof] := by
    rw [hcurrent]
    cases s.rest <;> simp
  cases r with
  | nil =>
    have hsame : s'.current = s.current := by
      rw [hcurrent, hcurrent, hr, h.eof, List.nil_append]
    rw [hsame]
    exact .along _ []
  | cons t r =>
    have hfirst : s.current = t := by
      rw [hcurrent, hr]
      rfl
    unfold Lined at hs
    rw [hr, List.cons_append, List.cons_append, List.append_assoc, ← h.eof] at hs
    rw [hfirst]
    exact (List.pairwise_cons.1 hs).1 _ (List.mem_append_right _ (hmem s'))

/-- A step without a report. -/
theorem Advances.silent (h : Advances s s') (hs : Lined s) :
    Reported s.current.span.start s'.current.span.start [] := .nil (hs.reaches h)

theorem kind_congr (hr : s'.rest = s.rest) (he : s'.eof = s.eof) : s'.kind = s.kind := by
  unfold ParserState.kind ParserState.current ParserState.token
  rw [hr, he]

/-! ## Runs -/

/-- The end in strict mode of a run that ends with `r` in recovery mode and reports
`errors`, the latest first. -/
def strictEnd (errors : List SyntaxError) (r : α × ParserState) : Except Halt (α × ParserState) :=
  match errors.getLast? with
  | none => .ok r
  | some e => .error (.refused e)

/-- Both modes end, strict mode as recovery mode does up to the first report, the reports are in
the order of the tokens if these are in the order of the text, and `Q` holds at the end. -/
def Runs (p : Parser α) (s : ParserState) (Q : α → ParserState → Prop) : Prop :=
  ∃ a s' errors, p .recovery s = .ok (a, s') ∧ p .strict s = strictEnd errors (a, s') ∧
    s'.errors = errors ++ s.errors ∧ Advances s s' ∧
    (Lined s → Reported s.current.span.start s'.current.span.start errors) ∧ Q a s'

theorem Runs.mono {Q R : α → ParserState → Prop} (h : Runs p s Q)
    (hQ : ∀ a s', Advances s s' → Q a s' → R a s') : Runs p s R := by
  obtain ⟨a, s', es, hr, hs, he, ha, ho, hq⟩ := h
  exact ⟨a, s', es, hr, hs, he, ha, ho, hQ a s' ha hq⟩

theorem Runs.pure {Q : α → ParserState → Prop} {a : α} (h : Q a s) :
    Runs (pure a : Parser α) s Q :=
  ⟨a, s, [], rfl, rfl, rfl, .refl s, (Advances.refl s).silent, h⟩

theorem Runs.bind {Q : α → ParserState → Prop} {R : β → ParserState → Prop} (hp : Runs p s Q)
    (hf : ∀ a s', Advances s s' → Q a s' → Runs (f a) s' R) : Runs (p >>= f) s R := by
  obtain ⟨a, s₁, es, hr, hs, he, ha, ho, hq⟩ := hp
  obtain ⟨b, s₂, es', hr', hs', he', ha', ho', hq'⟩ := hf a s₁ ha hq
  refine ⟨b, s₂, es' ++ es, ?_, ?_, by rw [he', he, List.append_assoc], ha.trans ha',
    fun hl => (ho hl).append (ho' (hl.advance ha)), hq'⟩
  · show Parser.bind p f .recovery s = _
    simp only [Parser.bind, hr, hr']
  · show Parser.bind p f .strict s = _
    unfold strictEnd at hs hs' ⊢
    rw [List.getLast?_append]
    cases hl : es.getLast? with
    | none =>
      rw [hl] at hs
      simp only [Parser.bind, hs, hs', Option.none_or]
    | some e =>
      rw [hl] at hs
      simp only [Parser.bind, hs, Option.some_or]

/-- What is read off the state decides how to go on. -/
theorem Runs.inspect {γ : Type} {g : ParserState → γ} {f : γ → Parser β}
    {R : β → ParserState → Prop} (h : Runs (f (g s)) s R) :
    Runs (inspect g >>= f) s R := by
  obtain ⟨b, s', es, hr, hs, he, ha, ho, hq⟩ := h
  exact ⟨b, s', es, hr, hs, he, ha, ho, hq⟩

/-- With fewer tokens left than are allowed a parser goes on. -/
theorem Runs.past {left : Nat} {Q : α → ParserState → Prop} (hl : s.rest.length < left)
    (h : Runs p s Q) : Runs (past left p) s Q := by
  unfold Runs Parser.past at *
  simp only [if_pos hl]
  exact h

/-- Around a run another construct is the innermost one. -/
theorem Runs.within {c : Context} {Q : α → ParserState → Prop}
    (h : Runs p { s with contexts := c :: s.contexts } fun a s' =>
      Q a { s' with contexts := s'.contexts.tail }) : Runs (within c p) s Q := by
  obtain ⟨a, s', es, hr, hs, he, ⟨hread, heof, hc⟩, ho, hq⟩ := h
  refine ⟨a, { s' with contexts := s'.contexts.tail }, es, ?_, ?_, he,
    ⟨hread, heof, by simp [hc]⟩, ho, hq⟩
  · show Parser.bind p _ .recovery _ = _
    simp only [Parser.bind, hr]
    rfl
  · show Parser.bind p _ .strict _ = _
    unfold strictEnd at hs ⊢
    cases hl : es.getLast? with
    | none =>
      rw [hl] at hs
      simp only [Parser.bind, hs]
      rfl
    | some e =>
      rw [hl] at hs
      simp only [Parser.bind, hs]

/-! ## Rules for reports and tokens -/

/-- A report about the current token changes nothing but the errors. -/
theorem report_runs {e : SyntaxError} (he : e.span = s.current.span) :
    Runs (report e) s fun _ s' => s'.rest = s.rest :=
  ⟨(), _, [e], rfl, rfl, rfl, ⟨⟨[], rfl, by simp⟩, rfl, rfl⟩,
    fun _ => .single (.along _ []) (congrArg _ he), rfl⟩

/-- A parser that reads nothing. -/
def Stays (p : Parser α) : Prop := ∀ s, Runs p s fun _ s' => s'.rest = s.rest

theorem fail_stays (code : SyntaxCode) (message : TokenKind → String) :
    Stays (fail code message) :=
  fun _ => .inspect (report_runs rfl)

theorem failRelated_stays (code : SyntaxCode) (message : TokenKind → String) (r : Related) :
    Stays (failRelated code message r) :=
  fun _ => .inspect (report_runs rfl)

theorem failInContext_stays (code : SyntaxCode) : Stays (failInContext code) :=
  fun s => .inspect (fail_stays code _ s)

/-- A token that does not end the text is left behind. -/
theorem bump_advances (hs : Below n s) (hk : s.kind ≠ .eof) :
    Advances s s.bump ∧ s.bump.rest.length < s.rest.length := by
  unfold ParserState.kind ParserState.current ParserState.token at hk
  unfold ParserState.bump
  cases hr : s.rest with
  | nil => simp [hr, hs.eof] at hk
  | cons t ts =>
    have ht : t.kind ≠ .eof := by simpa [hr] using hk
    simp only [if_neg ht]
    exact ⟨⟨⟨[t], by simp [hr], by simpa using ht⟩, rfl, rfl⟩, by simp⟩

/-- At the end of the text a step to the next token stays. -/
theorem bump_of_eof (hk : s.kind = .eof) : s.bump = s := by
  unfold ParserState.kind ParserState.current ParserState.token at hk
  unfold ParserState.bump
  cases hr : s.rest with
  | nil => rfl
  | cons t ts =>
    have ht : t.kind = .eof := by simpa [hr] using hk
    simp only [if_pos ht]

theorem advances_bump (hs : Below n s) : Advances s s.bump := by
  by_cases hk : s.kind = .eof
  · rw [bump_of_eof hk]
    exact .refl s
  · exact (bump_advances hs hk).1

theorem bump_errors (s : ParserState) : s.bump.errors = s.errors := by
  unfold ParserState.bump
  split
  · rfl
  · split <;> rfl

theorem bump_runs (hs : Below n s) : Runs bump s fun _ s' => s' = s.bump :=
  ⟨_, s.bump, [], rfl, rfl, bump_errors s, advances_bump hs, (advances_bump hs).silent, rfl⟩

/-- The token that is read is the current one. -/
theorem Runs.bumped {f : Token → Parser α} {Q : α → ParserState → Prop}
    (h : Runs (do let _ ← bump; f s.current) s Q) : Runs (bump >>= f) s Q := h

/-- A report about the token that was just read. -/
theorem bump_report_runs (hs : Below n s) {e : SyntaxError} (he : e.span = s.current.span) (a : α) :
    Runs (do let _ ← bump; report e; pure a) s fun _ _ => True := by
  have ha : Advances s s.bump := advances_bump hs
  have hreaches (hl : Lined s) : s.current.span.start.Reaches s.bump.current.span.start :=
    hl.reaches ha
  refine ⟨a, { s.bump with errors := e :: s.bump.errors }, [e], rfl, rfl, ?_,
    ⟨ha.reads, ha.eof, ha.contexts⟩, fun hl => .single (hreaches hl) (congrArg _ he), trivial⟩
  rw [bump_errors]
  rfl

/-! ## Keeping count -/

/-- With fewer than `n` tokens left `p` runs, and reads one if its value says that there is
more to come. -/
def Strides (more : α → Prop) (n : Nat) (p : Parser α) : Prop :=
  ∀ s, Below n s → Runs p s fun a s' => more a → s'.rest.length < s.rest.length

/-- With fewer than `n` tokens left `p` runs. -/
def Reads (n : Nat) (p : Parser α) : Prop := ∀ s, Below n s → Runs p s fun _ _ => True

/-- With at most `n` tokens left, of which the first is of the kinds `at_`, `p` runs and
reads one. -/
def Opens (at_ : TokenKind → Prop) (n : Nat) (p : Parser α) : Prop :=
  ∀ s, Below (n + 1) s → at_ s.kind → Runs p s fun _ s' => s'.rest.length < s.rest.length

/-- `p` opens at the kinds `at_`, and runs elsewhere too. -/
structure Starts (at_ : TokenKind → Prop) (n : Nat) (p : Parser α) : Prop where
  opens : Opens at_ n p
  reads : Reads n p

/-- Any kind of token but the end of the text. -/
def Any (k : TokenKind) : Prop := k ≠ .eof

variable {more : α → Prop} {at_ : TokenKind → Prop}

theorem Strides.reads (h : Strides more n p) : Reads n p := fun s hs =>
  (h s hs).mono fun _ _ _ _ => trivial

theorem Stays.reads (h : Stays p) : Reads n p := fun s _ => (h s).mono fun _ _ _ _ => trivial

theorem Reads.of_succ (h : Reads (n + 1) p) : Reads n p := fun s hs => h s hs.succ

theorem Opens.mono {any : TokenKind → Prop} (h : Opens any n p) (hk : ∀ k, at_ k → any k) :
    Opens at_ n p := fun s hs ha => h s hs (hk _ ha)

theorem Starts.mono {any : TokenKind → Prop} (h : Starts any n p) (hk : ∀ k, at_ k → any k) :
    Starts at_ n p := ⟨h.opens.mono hk, h.reads⟩

/-- What opens at a token can be run where there is one. -/
theorem Opens.runs (h : Opens at_ n p) (hs : Below (n + 1) s) (hk : at_ s.kind) :
    Runs p s fun _ _ => True := (h s hs hk).mono fun _ _ _ _ => trivial

/-! ### Sequencing -/

theorem Reads.pure (a : α) : Reads n (pure a : Parser α) := fun _ _ => .pure trivial

theorem Reads.bind (hp : Reads n p) (hf : ∀ a, Reads n (f a)) : Reads n (p >>= f) := fun s hs =>
  (hp s hs).bind fun a s' ha _ => hf a s' (hs.advance ha)

theorem Reads.map {g : α → β} (hp : Reads n p) : Reads n (g <$> p) :=
  hp.bind fun _ => .pure _

theorem Reads.inspect {g : ParserState → α} (hf : ∀ a, Reads n (f a)) :
    Reads n (inspect g >>= f) := fun s hs => .inspect (hf _ s hs)

theorem inspect_reads (g : ParserState → α) : Reads n (Parser.inspect g) := fun s _ =>
  ⟨g s, s, [], rfl, rfl, rfl, .refl s, (Advances.refl s).silent, trivial⟩

theorem Reads.ite {c : Prop} [Decidable c] {q : Parser α} (hp : c → Reads n p)
    (hq : ¬ c → Reads n q) : Reads n (if c then p else q) := by
  split
  · next h => exact hp h
  · next h => exact hq h

/-- After something was read, the rest has one token less to count with. -/
theorem Opens.bind (hp : Opens at_ n p) (hf : ∀ a, Reads n (f a)) : Opens at_ n (p >>= f) := by
  intro s hs hk
  refine (hp s hs hk).bind fun a s' ha hl => ?_
  refine (hf a s' (hs.shorter ha hl)).mono fun b s'' ha' _ => ?_
  have := ha'.length_le
  omega

theorem Opens.map {g : α → β} (hp : Opens at_ n p) : Opens at_ n (g <$> p) :=
  hp.bind fun _ => .pure _

theorem Opens.inspect {g : ParserState → α} (hf : ∀ a, Opens at_ n (f a)) :
    Opens at_ n (inspect g >>= f) := fun s hs hk => .inspect (hf _ s hs hk)

theorem Starts.bind (hp : Starts at_ n p) (hf : ∀ a, Reads n (f a)) : Starts at_ n (p >>= f) :=
  ⟨hp.opens.bind hf, hp.reads.bind hf⟩

theorem Starts.inspect {g : ParserState → α} (hf : ∀ a, Starts at_ n (f a)) :
    Starts at_ n (inspect g >>= f) :=
  ⟨.inspect fun a => (hf a).opens, .inspect fun a => (hf a).reads⟩

/-- What reads nothing leaves the token that opens the rest. -/
theorem Stays.bind_opens (hp : Stays p) (hf : ∀ a, Opens at_ n (f a)) :
    Opens at_ n (p >>= f) := by
  intro s hs hk
  refine (hp s).bind fun a s' ha hr => ?_
  have h := hf a s' (hs.advance ha) (by rwa [kind_congr hr ha.eof])
  rwa [hr] at h

theorem Stays.bind_starts (hp : Stays p) (hf : ∀ a, Starts at_ n (f a)) :
    Starts at_ n (p >>= f) :=
  ⟨hp.bind_opens fun a => (hf a).opens, hp.reads.bind fun a => (hf a).reads⟩

theorem Reads.within {c : Context} (hp : Reads n p) : Reads n (within c p) := fun _ hs =>
  .within (hp _ ⟨hs.eof, hs.length⟩)

theorem Opens.within {c : Context} (hp : Opens at_ n p) : Opens at_ n (within c p) :=
  fun _ hs hk => .within (hp _ ⟨hs.eof, hs.length⟩ hk)

theorem Starts.within {c : Context} (hp : Starts at_ n p) : Starts at_ n (within c p) :=
  ⟨hp.opens.within, hp.reads.within⟩

/-! ### Rounds -/

theorem Strides.pure {a : α} (h : ¬ more a) : Strides more n (pure a : Parser α) :=
  fun _ _ => .pure fun ha => absurd ha h

theorem Strides.inspect {g : ParserState → β} {f : β → Parser α}
    (hf : ∀ a, Strides more n (f a)) : Strides more n (inspect g >>= f) := fun s hs =>
  .inspect (hf _ s hs)

theorem Strides.ite {c : Prop} [Decidable c] {q : Parser α} (hp : c → Strides more n p)
    (hq : ¬ c → Strides more n q) : Strides more n (if c then p else q) := by
  split
  · next h => exact hp h
  · next h => exact hq h

theorem Reads.bind_strides {q : Parser β} {f : β → Parser α} (hq : Reads n q)
    (hf : ∀ a, Strides more n (f a)) : Strides more n (q >>= f) := by
  intro s hs
  refine (hq s hs).bind fun a s' ha _ => ?_
  refine (hf a s' (hs.advance ha)).mono fun b s'' ha' hl hm => ?_
  have := hl hm
  have := ha.length_le
  omega

/-- When the first part has read a token, the rest only has to run. -/
theorem Strides.bind {first : β → Prop} {q : Parser β} {f : β → Parser α}
    (hq : Strides first n q) (hyes : ∀ a, first a → Reads n (f a))
    (hno : ∀ a, ¬ first a → Strides more n (f a)) : Strides more n (q >>= f) := by
  intro s hs
  refine (hq s hs).bind fun a s' ha hl => ?_
  by_cases h : first a
  · refine (hyes a h s' (hs.advance ha)).mono fun b s'' ha' _ _ => ?_
    have := ha'.length_le
    have := hl h
    omega
  · refine (hno a h s' (hs.advance ha)).mono fun b s'' ha' hl' hm => ?_
    have := ha.length_le
    have := hl' hm
    omega

/-- What opens at the token that is there reads one, so all values may say that there is
more. -/
theorem Opens.strides (h : Opens at_ n p) (hs : Below (n + 1) s) (hk : at_ s.kind) :
    Runs p s fun a s' => more a → s'.rest.length < s.rest.length :=
  (h s hs hk).mono fun _ _ _ hl _ => hl

end SimFront.Parser
