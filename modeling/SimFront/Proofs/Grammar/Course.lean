import SimFront.Grammar.Parser

/-!
# What is read inside of what

A parser keeps the constructs that it is inside of on a stack, and a message about a token that
does not fit reads the innermost one off it.  `Course` is reading in recovery mode told without
the stack: the constructs around a step are those that `within` has opened around it and not yet
closed.  A misfit names the innermost of them, which has to be a construct whose misfits have the
code of the report.  Nothing else in a course may look at the stack or touch it, so a course is the
same with any stack (`Course.any_stack`).

When the stack holds the constructs around it, a parser runs as its course says: it leaves the
stack as it was, and records the errors that the course reports (`Course.run`).  A parser is
`Charted` when all its runs are such courses.  Sequencing, choices, going round, recursion and
`within` keep it so, each `within` with one construct more around it.
-/

namespace SimFront.Parser

/-! ## Courses -/

/-- The code for a token that does not fit a construct.  The other constructs have no misfits of
their own. -/
def misfitCode? : Context → Option SyntaxCode
  | .declarations => some .unexpectedInDeclarations
  | .recordBody => some .invalidType
  | .objectBody | .objectImpl => some .unexpectedInObject
  | .statements => some .invalidStatement
  | .expression => some .invalidExpression
  | _ => none

/-- An error as it is reported: that a token does not fit the construct being read, or any
other. -/
inductive Report where
  | misfit (construct : Context) (code : SyntaxCode) (token : Token)
  | other (error : SyntaxError)

/-- The error that is recorded.  The message of a misfit names the construct. -/
def Report.error : Report → SyntaxError
  | misfit c code t =>
    { code, message := c.unexpected t.kind, span := t.span, found := some t.kind }
  | other e => e

/-- The code of a misfit is that of the construct it names. -/
def Report.Fits : Report → Prop
  | misfit c code _ => misfitCode? c = some code
  | other _ => True

/-- What is read off a state is the same with any stack. -/
def Blind {γ : Type} (g : ParserState → γ) : Prop :=
  (fun (s : ParserState) (stack : List Context) => g { s with contexts := stack }) = fun s _ => g s

theorem Blind.eq {γ : Type} {g : ParserState → γ} (hg : Blind g) (s : ParserState)
    (stack : List Context) : g { s with contexts := stack } = g s :=
  congrFun (congrFun hg s) stack

/-- A change that neither looks at the stack nor touches it, and records nothing. -/
structure Moves (f : ParserState → ParserState) : Prop where
  stack : ∀ s cs, f { s with contexts := cs } = { f s with contexts := cs }
  errors : ∀ s, (f s).errors = s.errors

/-- `Course cs p s a s' reports`: inside of the constructs `cs`, the innermost first, reading `p`
from `s` comes to `a` in `s'` with these reports, the earliest first. -/
inductive Course : {α : Type} → List Context → Parser α → ParserState → α → ParserState →
    List Report → Prop
  | pure {α : Type} {cs : List Context} (a : α) (s : ParserState) : Course cs (pure a) s a s []
  | bind {α β : Type} {cs : List Context} {p : Parser α} {f : α → Parser β}
      {s s' s'' : ParserState} {a : α} {b : β} {es es' : List Report} :
      Course cs p s a s' es → Course cs (f a) s' b s'' es' →
      Course cs (p >>= f) s b s'' (es ++ es')
  | look {α : Type} {cs : List Context} {p : Parser α} {q : ParserState → Parser α}
      {s s' : ParserState} {a : α} {es : List Report} :
      Blind q → (∀ m s, p m s = q s m s) → Course cs (q s) s a s' es → Course cs p s a s' es
  | move {cs : List Context} {f : ParserState → ParserState} (s : ParserState) :
      Moves f → Course cs (change f) s () (f s) []
  | report {cs : List Context} (e : SyntaxError) (s : ParserState) :
      Course cs (report e) s () { s with errors := e :: s.errors } [.other e]
  | misfit {cs : List Context} {c : Context} {code : SyntaxCode} (s : ParserState) :
      misfitCode? c = some code → Course (c :: cs) (failInContext code) s ()
        { s with errors := (Report.misfit c code s.current).error :: s.errors }
        [.misfit c code s.current]
  | within {α : Type} {cs : List Context} {c : Context} {p : Parser α} {s s' : ParserState}
      {a : α} {es : List Report} :
      Course (c :: cs) p { s with contexts := c :: s.contexts } a s' es →
      Course cs (within c p) s a { s' with contexts := s'.contexts.tail } es

variable {α β σ : Type} {cs : List Context} {c : Context}

section Course

variable {p : Parser α} {f : α → Parser β} {s s' : ParserState} {a : α} {es : List Report}

/-- **A course has no use for the stack.**  It goes the same way with any other one, so that what
it names hangs on the constructs around it alone. -/
theorem Course.any_stack (h : Course cs p s a s' es) (stack : List Context) :
    Course cs p { s with contexts := stack } a { s' with contexts := stack } es := by
  induction h generalizing stack with
  | pure a s => exact .pure a _
  | bind _ _ ih ih' => exact .bind (ih stack) (ih' stack)
  | look hq hp _ ih => exact .look hq hp (by rw [hq.eq]; exact ih stack)
  | move s hf =>
    rw [← hf.stack]
    exact .move _ hf
  | report e s => exact .report e _
  | misfit s hcode => exact .misfit { s with contexts := stack } hcode
  | @within _ _ c _ s _ _ _ _ ih =>
    exact .within (s := { s with contexts := stack }) (ih (c :: stack))

theorem run_bind {r : Except Halt (β × ParserState)} (hp : p .recovery s = .ok (a, s'))
    (hf : f a .recovery s' = r) : (p >>= f) .recovery s = r := by
  show Parser.bind p f .recovery s = r
  simp only [Parser.bind, hp, hf]

/-- With the constructs around it on the stack, a parser runs as its course says: the stack is
left as it was, and what the course reports is recorded. -/
theorem Course.run (h : Course cs p s a s' es) (hs : s.contexts = cs) :
    p .recovery s = .ok (a, s') ∧ s'.contexts = cs ∧
      s'.errors = (es.map Report.error).reverse ++ s.errors := by
  induction h with
  | pure a s => exact ⟨rfl, hs, rfl⟩
  | bind _ _ ih ih' =>
    obtain ⟨hp, hstack, herrors⟩ := ih hs
    obtain ⟨hf, hstack', herrors'⟩ := ih' hstack
    refine ⟨run_bind hp hf, hstack', ?_⟩
    rw [herrors', herrors, List.map_append, List.reverse_append, List.append_assoc]
  | look hq hp _ ih =>
    obtain ⟨hrun, hrest⟩ := ih hs
    exact ⟨(hp _ _).trans hrun, hrest⟩
  | @move _ f s hf =>
    have hstack : (f s).contexts = s.contexts := congrArg (·.contexts) (hf.stack s s.contexts)
    exact ⟨rfl, hstack.trans hs, hf.errors s⟩
  | report e s => exact ⟨rfl, hs, rfl⟩
  | misfit s hcode =>
    refine ⟨?_, hs, rfl⟩
    show Except.ok ((), _) = _
    simp only [ParserState.context, hs]
    rfl
  | within _ ih =>
    obtain ⟨hrun, hstack, herrors⟩ := ih (congrArg _ hs)
    refine ⟨?_, by simp [hstack], herrors⟩
    exact run_bind rfl (run_bind hrun rfl)

theorem Course.fits (h : Course cs p s a s' es) : ∀ r ∈ es, r.Fits := by
  induction h with
  | pure | move => exact List.forall_mem_nil _
  | bind _ _ ih ih' => exact List.forall_mem_append.2 ⟨ih, ih'⟩
  | look _ _ _ ih => exact ih
  | report e s => exact List.forall_mem_singleton.2 trivial
  | misfit s hcode => exact List.forall_mem_singleton.2 hcode
  | within _ ih => exact ih

end Course

/-! ## Charted parsers -/

/-- A run of `p` from `s` with the constructs `cs` on the stack is a course inside of them. -/
def ChartedAt (cs : List Context) (p : Parser α) (s : ParserState) : Prop :=
  ∀ a s', s.contexts = cs → p .recovery s = .ok (a, s') → ∃ es, Course cs p s a s' es

/-- Every run of `p` with the constructs `cs` on the stack is a course inside of them. -/
def Charted (cs : List Context) (p : Parser α) : Prop := ∀ s, ChartedAt cs p s

section Charted

variable {p q : Parser α} {f : α → Parser β}

theorem Charted.pure (a : α) : Charted cs (pure a : Parser α) := by
  rintro s _ _ - ⟨⟩
  exact ⟨_, .pure a s⟩

theorem ChartedAt.bind {s : ParserState} (hp : ChartedAt cs p s) (hf : ∀ a, Charted cs (f a)) :
    ChartedAt cs (p >>= f) s := by
  intro b s'' hs hrun
  change Parser.bind p f .recovery s = _ at hrun
  unfold Parser.bind at hrun
  cases hfirst : p .recovery s with
  | error h =>
    rw [hfirst] at hrun
    cases hrun
  | ok r =>
    obtain ⟨a, s'⟩ := r
    rw [hfirst] at hrun
    obtain ⟨es, hcourse⟩ := hp a s' hs hfirst
    -- the rest starts with the stack that `p` leaves, which is the one it found
    obtain ⟨es', hcourse'⟩ := hf a s' b s'' (hcourse.run hs).2.1 hrun
    exact ⟨es ++ es', hcourse.bind hcourse'⟩

theorem Charted.bind (hp : Charted cs p) (hf : ∀ a, Charted cs (f a)) : Charted cs (p >>= f) :=
  fun s => (hp s).bind hf

theorem Charted.map {g : α → β} (hp : Charted cs p) : Charted cs (g <$> p) :=
  hp.bind fun _ => .pure _

/-- The state may decide what is read, as long as the stack does not. -/
theorem Charted.look {q : ParserState → Parser α} (hq : Blind q) (hp : ∀ m s, p m s = q s m s)
    (h : ∀ s, Charted cs (q s)) : Charted cs p := by
  intro s a s' hs hrun
  rw [hp] at hrun
  obtain ⟨es, hcourse⟩ := h s s a s' hs hrun
  exact ⟨es, hcourse.look hq hp⟩

theorem inspect_charted {g : ParserState → α} (hg : Blind g) : Charted cs (inspect g) :=
  .look (q := fun s => Pure.pure (g s))
    (funext fun s => funext fun stack => congrArg Pure.pure (hg.eq s stack))
    (fun _ _ => rfl) fun s => .pure (g s)

theorem ChartedAt.inspect {g : ParserState → α} {s : ParserState} (hg : Blind g)
    (h : ChartedAt cs (f (g s)) s) : ChartedAt cs (inspect g >>= f) s := by
  intro b s' hs hrun
  obtain ⟨es, hcourse⟩ := inspect_charted hg s (g s) s hs rfl
  obtain ⟨es', hcourse'⟩ := h b s' hs hrun
  exact ⟨es ++ es', hcourse.bind hcourse'⟩

theorem Charted.inspect {g : ParserState → α} (hg : Blind g) (hf : ∀ a, Charted cs (f a)) :
    Charted cs (inspect g >>= f) := (inspect_charted hg).bind hf

theorem Charted.ite {b : Prop} [Decidable b] (hp : Charted cs p) (hq : Charted cs q) :
    Charted cs (if b then p else q) := by
  split
  · exact hp
  · exact hq

theorem change_charted {f : ParserState → ParserState} (hf : Moves f) : Charted cs (change f) := by
  rintro s _ _ - ⟨⟩
  exact ⟨_, .move s hf⟩

theorem Charted.within (hp : Charted (c :: cs) p) : Charted cs (within c p) := by
  intro s a s' hs hrun
  change Parser.bind p _ .recovery _ = _ at hrun
  unfold Parser.bind at hrun
  cases hinside : p .recovery { s with contexts := c :: s.contexts } with
  | error h =>
    rw [hinside] at hrun
    cases hrun
  | ok r =>
    rw [hinside] at hrun
    obtain ⟨es, hcourse⟩ := hp _ _ _ (congrArg _ hs) hinside
    cases hrun
    exact ⟨es, hcourse.within⟩

/-! ### Reports and tokens -/

theorem report_charted (e : SyntaxError) : Charted cs (report e) := by
  rintro s _ _ - ⟨⟩
  exact ⟨_, .report e s⟩

theorem fail_charted (code : SyntaxCode) (message : TokenKind → String) :
    Charted cs (fail code message) := .inspect rfl fun _ => report_charted _

theorem failRelated_charted (code : SyntaxCode) (message : TokenKind → String) (r : Related) :
    Charted cs (failRelated code message r) := .inspect rfl fun _ => report_charted _

/-- A misfit needs a construct to name, and the code of its misfits. -/
theorem failInContext_charted {code : SyntaxCode} (hcode : misfitCode? c = some code) :
    Charted (c :: cs) (failInContext code) := by
  intro s a s' hs hrun
  have hcourse : Course (c :: cs) (failInContext code) s _ _ _ := .misfit s hcode
  rw [(hcourse.run hs).1] at hrun
  cases hrun
  exact ⟨_, hcourse⟩

theorem bump_moves : Moves ParserState.bump where
  stack s stack := by
    unfold ParserState.bump
    rcases s with ⟨rest, lastEnd, errors, contexts, eof⟩
    cases rest with
    | nil => rfl
    | cons t ts =>
      dsimp only
      split <;> rfl
  errors s := by
    unfold ParserState.bump
    split
    · rfl
    · split <;> rfl

theorem bump_charted : Charted cs bump :=
  .inspect rfl fun _ => (change_charted bump_moves).bind fun _ => .pure _

theorem eat_charted (k : TokenKind) : Charted cs (eat k) :=
  .inspect rfl fun _ => .ite (bump_charted.bind fun _ => .pure _) (.pure _)

theorem expectWith_charted (code : SyntaxCode) (k : TokenKind) : Charted cs (expectWith code k) :=
  (eat_charted k).bind fun _ => .ite (.pure _) (fail_charted _ _)

theorem expect_charted (k : TokenKind) : Charted cs (expect k) := expectWith_charted _ k

theorem identOrMissing_charted : Charted cs identOrMissing :=
  .inspect rfl fun _ => .ite (bump_charted.bind fun _ => .pure _) (.inspect rfl fun _ => .pure _)

theorem identOr_charted (code : SyntaxCode) (expected : String) :
    Charted cs (identOr code expected) :=
  .inspect rfl fun _ => .ite identOrMissing_charted
    ((fail_charted _ _).bind fun _ => identOrMissing_charted)

theorem ident_charted : Charted cs ident := identOr_charted _ _

theorem closeWith_charted (k : Keyword) (opened : Span) : Charted cs (closeWith k opened) :=
  (eat_charted _).bind fun _ => .ite ((eat_charted _).bind fun _ => .pure _)
    (failRelated_charted _ _ _)

/-- The last step of most rules: the span is read off, and the result is made from it. -/
theorem spanFrom_pure_charted (start : Position) (g : Span → α) :
    Charted cs (do Pure.pure (g (← spanFrom start))) := .inspect rfl fun _ => .pure _

theorem Charted.whenever {b : Parser Bool} (hb : Charted cs b) (hp : Charted cs p) :
    Charted cs (whenever b p) :=
  hb.bind fun _ => .ite (hp.bind fun _ => .pure _) (.pure _)

theorem skip_moves (stop : TokenKind → Bool) (n : Nat) :
    Moves fun s => skipUntil.skip stop s n := by
  induction n with
  | zero => exact ⟨fun _ _ => rfl, fun _ => rfl⟩
  | succ n ih =>
    refine ⟨fun s stack => ?_, fun s => ?_⟩
    · have hkind : ({ s with contexts := stack } : ParserState).kind = s.kind := rfl
      simp only [skipUntil.skip, hkind]
      split
      · rfl
      · rw [bump_moves.stack s stack]
        exact ih.stack s.bump stack
    · simp only [skipUntil.skip]
      split
      · rfl
      · exact (ih.errors s.bump).trans (bump_moves.errors s)

theorem skipUntil_charted (stop : TokenKind → Bool) : Charted cs (skipUntil stop) := by
  refine change_charted ⟨fun s stack => ?_, fun s => ?_⟩
  · exact (skip_moves stop s.rest.length).stack s stack
  · exact (skip_moves stop s.rest.length).errors s

theorem recover_charted (r : Context) : Charted cs (recover r) :=
  bump_charted.bind fun _ => (skipUntil_charted _).bind fun _ => (eat_charted _).bind fun _ =>
    .pure _

/-! ### Going round -/

theorem exhausted_charted : Charted cs (exhausted : Parser α) := fun _ _ _ _ h => nomatch h

theorem Charted.past {left : Nat} (hp : Charted cs p) : Charted cs (Parser.past left p) := by
  refine .look (q := fun s => if s.rest.length < left then p else exhausted) rfl
    (fun m s => ?_) fun _ => .ite hp exhausted_charted
  unfold Parser.past
  split <;> rfl

theorem gather_charted {round : σ → Parser (Round σ α)} (hr : ∀ x, Charted cs (round x)) (x : σ) :
    Charted cs (gather round x) := by
  have key (fuel : Nat) : ∀ x, Charted cs (gatherAt round fuel x) := by
    induction fuel with
    | zero => exact fun _ => exhausted_charted
    | succ fuel ih =>
      refine fun x => .inspect rfl fun _ => (hr x).bind fun r => ?_
      cases r with
      | stop found => exact .pure _
      | next x' found => exact (ih x').past.bind fun _ => .pure _
  exact .look (q := fun s => gatherAt round (s.rest.length + 1) x) rfl
    (fun _ _ => rfl) fun s => key (s.rest.length + 1) x

theorem many_charted {round : Parser (Round Unit α)} (hr : Charted cs round) :
    Charted cs (many round) := gather_charted (fun _ => hr) ()

theorem iterate_charted {step : α → Parser (Option α)} (hstep : ∀ a, Charted cs (step a)) (a : α) :
    Charted cs (iterate step a) := by
  have key (fuel : Nat) : ∀ a, Charted cs (iterateAt step fuel a) := by
    induction fuel with
    | zero => exact fun _ => exhausted_charted
    | succ fuel ih =>
      refine fun a => .inspect rfl fun _ => (hstep a).bind fun r => ?_
      cases r with
      | none => exact .pure _
      | some a' => exact (ih a').past
  exact .look (q := fun s => iterateAt step (s.rest.length + 1) a) rfl
    (fun _ _ => rfl) fun s => key (s.rest.length + 1) a

theorem commaSeparated_charted (hp : Charted cs p) : Charted cs (commaSeparated p) := by
  refine hp.bind fun _ => (many_charted ?_).bind fun _ => .pure _
  exact (eat_charted _).bind fun _ => .ite (hp.bind fun _ => .pure _) (.pure _)

/-- A rule that is charted wherever it is used, if what it uses for itself is. -/
theorem recurse_charted {rule : Parser α → Parser α}
    (hr : ∀ p, (∀ cs, Charted cs p) → ∀ cs, Charted cs (rule p)) : Charted cs (recurse rule) := by
  have key (fuel : Nat) : ∀ cs, Charted cs (recurseAt rule fuel) := by
    induction fuel with
    | zero => exact fun _ => exhausted_charted
    | succ fuel ih =>
      exact fun cs => .look (q := fun s => rule (Parser.past s.rest.length (recurseAt rule fuel)))
        rfl (fun _ _ => rfl) fun _ => hr _ (fun cs => (ih cs).past) cs
  exact .look (q := fun s => recurseAt rule (s.rest.length + 1)) rfl
    (fun _ _ => rfl) fun s => key (s.rest.length + 1) cs

end Charted

end SimFront.Parser
