import SimFront.Grammar.Written
import SimFront.Proofs.Grammar.Run

/-!
# Reading tokens that are known

`Takes p ts rest Q` says that in strict mode `p` reads just `ts` off tokens that begin with
`ts ++ rest`, whatever the rest of the state is, and that its value satisfies `Q`.  What `p`
does at the end of `ts` can depend on `rest`; what is asked of it is mostly that it begins with
a token of some kinds (`Begins`).

Going round reads a token each time, so the bounds of `gather` and `iterate` do not matter:
both are unfolded round by round (`gather_eq`, `iterate_eq`).  `ReadsBack` says of a parser that
it takes every way in which the values are written, up to their shapes, as long as fewer than
`n` tokens are left; recursion keeps it (`ReadsBack.recurse`).
-/

namespace SimFront.Parser

variable {α β σ : Type} {p : Parser α} {f : α → Parser β} {s : ParserState} {t : Token}
  {ts us rest : List Token} {k : TokenKind}

/-! ## The first token -/

/-- The first of some tokens is of the kinds `K`. -/
def Begins (K : TokenKind → Prop) (us : List Token) : Prop := ∃ t vs, us = t :: vs ∧ K t.kind

namespace Begins

variable {K L : TokenKind → Prop}

theorem cons (ht : K t.kind) : Begins K (t :: us) := ⟨t, us, rfl, ht⟩

theorem mono (h : Begins K us) (hKL : ∀ k, K k → L k) : Begins L us := by
  obtain ⟨t, vs, rfl, ht⟩ := h
  exact .cons (hKL _ ht)

theorem append (h : Begins K us) (vs : List Token) : Begins K (us ++ vs) := by
  obtain ⟨t, ws, rfl, ht⟩ := h
  exact .cons ht

/-- The first token of a state. -/
theorem kind (h : Begins K us) (hs : s.rest = us) : K s.kind := by
  obtain ⟨t, vs, rfl, ht⟩ := h
  unfold ParserState.kind ParserState.current ParserState.token
  rw [hs]
  exact ht

end Begins

/-! ## Parts of a parser -/

/-- What follows a parser matters only where it ends. -/
theorem bind_congr {f g : α → Parser β} {m : Mode}
    (h : ∀ a s', p m s = .ok (a, s') → f a m s' = g a m s') : (p >>= f) m s = (p >>= g) m s := by
  show Parser.bind p f m s = Parser.bind p g m s
  unfold Parser.bind
  split
  · next a s' hp => exact h a s' hp
  · rfl

theorem bind_congr_left {q : Parser α} {m : Mode} (h : p m s = q m s) :
    (p >>= f) m s = (q >>= f) m s := by
  show Parser.bind p f m s = Parser.bind q f m s
  unfold Parser.bind
  rw [h]

/-! ## Known tokens -/

/-- In strict mode `p` reads just `ts`, with `rest` behind them. -/
def Takes (p : Parser α) (ts rest : List Token) (Q : α → Prop) : Prop :=
  ∀ s, s.rest = ts ++ rest → ∃ a s', p .strict s = .ok (a, s') ∧ s'.rest = rest ∧ Q a

namespace Takes

variable {P : α → Prop} {Q : β → Prop} {K : TokenKind → Prop}

theorem mono {P' : α → Prop} (h : Takes p ts rest P) (hP : ∀ a, P a → P' a) :
    Takes p ts rest P' := by
  intro s hs
  obtain ⟨a, s', hrun, hrest, ha⟩ := h s hs
  exact ⟨a, s', hrun, hrest, hP a ha⟩

theorem pure {a : α} (h : P a) : Takes (pure a : Parser α) [] rest P :=
  fun s hs => ⟨a, s, rfl, hs, h⟩

theorem bind (hp : Takes p ts (us ++ rest) P) (hf : ∀ a, P a → Takes (f a) us rest Q) :
    Takes (p >>= f) (ts ++ us) rest Q := by
  intro s hs
  obtain ⟨a, s₁, hrun, hrest, ha⟩ := hp s (by rw [hs, List.append_assoc])
  obtain ⟨b, s₂, hrun', hrest', hb⟩ := hf a ha s₁ hrest
  refine ⟨b, s₂, ?_, hrest', hb⟩
  show Parser.bind p f .strict s = _
  simp only [Parser.bind, hrun, hrun']

/-- What comes after the last of the tokens reads nothing. -/
theorem bindLast (hp : Takes p ts rest P) (hf : ∀ a, P a → Takes (f a) [] rest Q) :
    Takes (p >>= f) ts rest Q := by
  have h : Takes (p >>= f) (ts ++ []) rest Q := bind (P := P) hp hf
  rwa [List.append_nil] at h

/-- What reads nothing leaves all tokens to the rest. -/
theorem bindNone (hp : Takes p [] (ts ++ rest) P) (hf : ∀ a, P a → Takes (f a) ts rest Q) :
    Takes (p >>= f) ts rest Q := bind hp hf

/-- What reads a token leaves those behind it to the rest. -/
theorem bindFirst (hp : Takes p [t] (ts ++ rest) P) (hf : ∀ a, P a → Takes (f a) ts rest Q) :
    Takes (p >>= f) (t :: ts) rest Q := bind hp hf

theorem map {g : α → β} (hp : Takes p ts rest fun a => Q (g a)) : Takes (g <$> p) ts rest Q :=
  hp.bindLast fun _ ha => .pure ha

/-- What is read off the state decides how to go on. -/
theorem inspect {g : ParserState → α} (h : ∀ s, s.rest = ts ++ rest → Takes (f (g s)) ts rest Q) :
    Takes (inspect g >>= f) ts rest Q := fun s hs => h s hs s hs

/-- What the parser does with the kind of the first token. -/
theorem kind {f : TokenKind → Parser β} (h : Begins K (ts ++ rest))
    (hf : ∀ k, K k → Takes (f k) ts rest Q) : Takes (Parser.kind >>= f) ts rest Q :=
  inspect fun _ hs => hf _ (h.kind hs)

theorem kindIs {f : TokenKind → Parser β} (h : Begins (· = k) (ts ++ rest))
    (hf : Takes (f k) ts rest Q) : Takes (Parser.kind >>= f) ts rest Q :=
  kind h fun _ hk => hk ▸ hf

theorem atKind {f : Bool → Parser β} (h : Begins (· = k) (ts ++ rest))
    (hf : Takes (f true) ts rest Q) : Takes (atKind k >>= f) ts rest Q :=
  inspect fun _ hs => by simpa only [h.kind hs, decide_true] using hf

theorem notAtKind {f : Bool → Parser β} (h : Begins (· ≠ k) (ts ++ rest))
    (hf : Takes (f false) ts rest Q) : Takes (Parser.atKind k >>= f) ts rest Q :=
  inspect fun _ hs => by simpa only [h.kind hs, decide_false] using hf

theorem atAny {ks : List TokenKind} {f : Bool → Parser β} (h : Begins (· ∈ ks) (ts ++ rest))
    (hf : Takes (f true) ts rest Q) : Takes (atAny ks >>= f) ts rest Q :=
  inspect fun _ hs => by simpa only [List.contains_iff_mem.2 (h.kind hs)] using hf

theorem notAtAny {ks : List TokenKind} {f : Bool → Parser β} (h : Begins (· ∉ ks) (ts ++ rest))
    (hf : Takes (f false) ts rest Q) : Takes (Parser.atAny ks >>= f) ts rest Q :=
  inspect fun s hs => by
    have hk : ks.contains s.kind = false := by simpa using h.kind hs
    simpa only [hk] using hf

/-! ### Reading tokens -/

theorem bump {f : Token → Parser β} (ht : t.kind ≠ .eof) (hf : Takes (f t) ts rest Q) :
    Takes (bump >>= f) (t :: ts) rest Q := by
  intro s hs
  obtain ⟨b, s', hrun, hrest, hb⟩ := hf s.bump (by simp [ParserState.bump, hs, ht])
  have hcurrent : s.current = t := by simp [ParserState.current, ParserState.token, hs]
  refine ⟨b, s', ?_, hrest, hb⟩
  show f s.current .strict s.bump = _
  rw [hcurrent, hrun]

/-- A token that is there is eaten. -/
theorem eaten (ht : t.kind = k) (hk : k ≠ .eof) : Takes (Parser.eat k) [t] rest (· = true) :=
  .atKind (.cons ht) (.bump (by rwa [ht]) (.pure rfl))

/-- A token that is not there is not eaten. -/
theorem notEaten (h : Begins (· ≠ k) rest) : Takes (Parser.eat k) [] rest (· = false) :=
  .notAtKind h (.pure rfl)

theorem eat {f : Bool → Parser β} (ht : t.kind = k) (hk : k ≠ .eof)
    (hf : Takes (f true) ts rest Q) : Takes (eat k >>= f) (t :: ts) rest Q := by
  refine (eaten ht hk).bindFirst ?_
  rintro _ rfl
  exact hf

theorem notEat {f : Bool → Parser β} (h : Begins (· ≠ k) (ts ++ rest))
    (hf : Takes (f false) ts rest Q) : Takes (Parser.eat k >>= f) ts rest Q := by
  refine (notEaten h).bindNone ?_
  rintro _ rfl
  exact hf

theorem eatMark {m : Mark} {f : Bool → Parser β} (ht : t.kind = .mark m)
    (hf : Takes (f true) ts rest Q) : Takes (eatMark m >>= f) (t :: ts) rest Q :=
  eat ht (by simp) hf

theorem eatWord {w : Keyword} {f : Bool → Parser β} (ht : t.kind = .word w)
    (hf : Takes (f true) ts rest Q) : Takes (eatWord w >>= f) (t :: ts) rest Q :=
  eat ht (by simp) hf

/-- A token that may be left out is eaten if it is there. -/
theorem eatOrNot {f : Bool → Parser β} (hk : k ≠ .eof) (h : WrittenOrNot k ts)
    (hnext : Begins (· ≠ k) (us ++ rest)) (hf : ∀ b, Takes (f b) us rest Q) :
    Takes (Parser.eat k >>= f) (ts ++ us) rest Q := by
  cases h with
  | absent => exact .notEat hnext (hf false)
  | present ht => exact .eat ht hk (hf true)

theorem expect {f : Unit → Parser β} (ht : t.kind = k) (hk : k ≠ .eof)
    (hf : Takes (f ()) ts rest Q) : Takes (expect k >>= f) (t :: ts) rest Q := by
  have h : Takes (Parser.expect k) [t] (ts ++ rest) fun _ => True := .eat ht hk (.pure trivial)
  exact h.bindFirst fun _ _ => hf

theorem expectMark {m : Mark} {f : Unit → Parser β} (ht : t.kind = .mark m)
    (hf : Takes (f ()) ts rest Q) : Takes (expectMark m >>= f) (t :: ts) rest Q :=
  expect ht (by simp) hf

theorem expectWord {w : Keyword} {f : Unit → Parser β} (ht : t.kind = .word w)
    (hf : Takes (f ()) ts rest Q) : Takes (expectWord w >>= f) (t :: ts) rest Q :=
  expect ht (by simp) hf

theorem ident {f : Ident → Parser β} (ht : t.kind = .ident)
    (hf : Takes (f ⟨t.text, t.span⟩) ts rest Q) : Takes (ident >>= f) (t :: ts) rest Q := by
  have hread : Takes identOrMissing [t] (ts ++ rest) (· = ⟨t.text, t.span⟩) :=
    .atKind (.cons ht) (.bump (by simp [ht]) (.pure rfl))
  have h : Takes Parser.ident [t] (ts ++ rest) (· = ⟨t.text, t.span⟩) :=
    .atKind (.cons ht) hread
  refine h.bindFirst ?_
  rintro _ rfl
  exact hf

/-- END is read with the word of the construct, unless that is left out. -/
theorem closeWith {w : Keyword} {opened : Span} {f : Unit → Parser β} (h : WrittenEnd w ts)
    (hnext : Begins (· ≠ .word w) rest) (hf : Takes (f ()) [] rest Q) :
    Takes (closeWith w opened >>= f) ts rest Q := by
  obtain ⟨hclose, hword⟩ := h
  refine bindLast (P := fun _ => True) (.eatWord hclose ?_) fun _ _ => hf
  cases hword with
  | absent => exact (notEaten hnext).bindLast fun _ _ => .pure trivial
  | present ht => exact (eaten ht (by simp)).bindLast fun _ _ => .pure trivial

/-! ### Combinations -/

theorem past {left : Nat} (h : Takes p ts rest P) (hl : (ts ++ rest).length < left) :
    Takes (past left p) ts rest P := by
  intro s hs
  obtain ⟨a, s', hrun, hrest, ha⟩ := h s hs
  refine ⟨a, s', ?_, hrest, ha⟩
  unfold Parser.past
  rw [if_pos (by rwa [hs]), hrun]

/-- Tokens that are not too many leave what follows as it is. -/
theorem pastBind {left : Nat} (h : Takes (p >>= f) ts rest Q) (hl : (ts ++ rest).length < left) :
    Takes (Parser.past left p >>= f) ts rest Q := by
  intro s hs
  obtain ⟨b, s', hrun, hrest, hb⟩ := h s hs
  refine ⟨b, s', ?_, hrest, hb⟩
  rw [← hrun]
  refine bind_congr_left ?_
  unfold Parser.past
  rw [if_pos (by rwa [hs])]

theorem within {c : Context} (h : Takes p ts rest P) : Takes (within c p) ts rest P := by
  intro s hs
  obtain ⟨a, s', hrun, hrest, ha⟩ := h { s with contexts := c :: s.contexts } hs
  refine ⟨a, { s' with contexts := s'.contexts.tail }, ?_, hrest, ha⟩
  show Parser.bind p _ .strict _ = _
  simp only [Parser.bind, hrun]
  rfl

theorem whenever {c : Parser Bool} (hc : Takes c [t] (ts ++ rest) (· = true))
    (h : Takes p ts rest P) : Takes (whenever c p) (t :: ts) rest fun o => ∃ a, o = some a ∧ P a := by
  refine hc.bindFirst ?_
  rintro _ rfl
  exact h.bindLast fun a ha => .pure ⟨a, rfl, ha⟩

theorem notWhenever {c : Parser Bool} (hc : Takes c [] rest (· = false)) :
    Takes (Parser.whenever c p) [] rest (· = none) := by
  refine hc.bindLast ?_
  rintro _ rfl
  exact .pure rfl

/-- A part that is announced by a word is read if the word is there. -/
theorem wheneverWord {w : Keyword} {one : α → List Token → Prop} {o : Option α} (shape : α → α)
    (h : WrittenOption [[.word w]] one o ts)
    (hp : ∀ a us, one a us → (us ++ rest).length < (ts ++ rest).length →
      Takes p us rest fun b => shape b = shape a)
    (hnext : Begins (· ≠ .word w) rest) :
    Takes (Parser.whenever (Parser.eatWord w) p) ts rest fun o' => o'.map shape = o.map shape := by
  cases h with
  | none =>
    refine (notWhenever (notEaten hnext)).mono ?_
    rintro _ rfl
    rfl
  | @some a ls us hlead ha =>
    obtain ⟨t, rfl, ht⟩ : ∃ t, ls = [t] ∧ t.kind = .word w := by
      rw [List.mem_singleton, List.map_eq_singleton_iff] at hlead
      exact hlead
    refine .mono (Takes.whenever (eaten ht (by simp)) (hp a us ha (by simp))) ?_
    rintro _ ⟨b, rfl, hb⟩
    exact congrArg some hb

/-- The last step of most rules: the span is read off, and the result is made from it. -/
theorem finish {start : Position} {g : Span → α} (h : ∀ span, P (g span)) :
    Takes (do Pure.pure (g (← spanFrom start))) [] rest P :=
  inspect fun _ _ => .pure (h _)

end Takes

/-! ## Going round -/

theorem past_congr {q : Parser α} {left : Nat} {m : Mode}
    (h : s.rest.length < left → p m s = q m s) : past left p m s = past left q m s := by
  unfold past
  split
  · next hl => exact h hl
  · rfl

instance : LawfulMonad Parser := by
  refine LawfulMonad.mk' Parser (fun p => ?_) (fun _ _ => rfl) (fun p f g => ?_)
  · funext m s
    show Parser.bind p _ m s = p m s
    unfold Parser.bind
    cases p m s <;> rfl
  · funext m s
    show Parser.bind (Parser.bind p f) g m s = Parser.bind p _ m s
    unfold Parser.bind
    cases p m s with
    | error e => rfl
    | ok r => rfl

section Unfolding

variable (round : σ → Parser (Round σ α)) (step : α → Parser (Option α))

/-- Bounds above the number of tokens left are as good as each other. -/
theorem gatherAt_congr (m : Mode) : ∀ (fuel fuel' : Nat) (x : σ) (s : ParserState),
    s.rest.length < fuel → s.rest.length < fuel' →
      gatherAt round fuel x m s = gatherAt round fuel' x m s := by
  intro fuel
  induction fuel with
  | zero => intro fuel' x s h _; omega
  | succ fuel ih =>
    intro fuel' x s h h'
    obtain ⟨fuel', rfl⟩ : ∃ n, fuel' = n + 1 := ⟨fuel' - 1, by omega⟩
    refine bind_congr (p := round x) fun r s' _ => ?_
    cases r with
    | stop found => rfl
    | next x' found =>
      refine bind_congr_left (past_congr fun hread => ?_)
      have hread : s'.rest.length < s.rest.length := hread
      exact ih fuel' x' s' (by omega) (by omega)

/-- Going round is a round, and going round again if it says so. -/
theorem gather_eq (x : σ) : gather round x = (do
    let left ← inspect (·.rest.length)
    match ← round x with
    | .stop found => pure found.toList
    | .next x' found => do
      let more ← past left (gather round x')
      pure (found.toList ++ more)) := by
  funext m s
  refine bind_congr (p := round x) fun r s' _ => ?_
  cases r with
  | stop found => rfl
  | next x' found =>
    refine bind_congr_left (past_congr fun hread => ?_)
    exact gatherAt_congr round m _ _ x' s' hread (Nat.lt_succ_self _)

theorem iterateAt_congr (m : Mode) : ∀ (fuel fuel' : Nat) (a : α) (s : ParserState),
    s.rest.length < fuel → s.rest.length < fuel' →
      iterateAt step fuel a m s = iterateAt step fuel' a m s := by
  intro fuel
  induction fuel with
  | zero => intro fuel' a s h _; omega
  | succ fuel ih =>
    intro fuel' a s h h'
    obtain ⟨fuel', rfl⟩ : ∃ n, fuel' = n + 1 := ⟨fuel' - 1, by omega⟩
    refine bind_congr (p := step a) fun r s' _ => ?_
    cases r with
    | none => rfl
    | some a' =>
      refine past_congr fun hread => ?_
      have hread : s'.rest.length < s.rest.length := hread
      exact ih fuel' a' s' (by omega) (by omega)

/-- Steps from a value are one step, and the steps from the value that it yields. -/
theorem iterate_eq (a : α) : iterate step a = (do
    let left ← inspect (·.rest.length)
    match ← step a with
    | some a' => past left (iterate step a')
    | none => pure a) := by
  funext m s
  refine bind_congr (p := step a) fun r s' _ => ?_
  cases r with
  | none => rfl
  | some a' =>
    refine past_congr fun hread => ?_
    exact iterateAt_congr step m _ _ a' s' hread (Nat.lt_succ_self _)

end Unfolding

namespace Takes

variable {Q : List α → Prop}

/-- The last round reads all that is left to be read. -/
theorem stopRound {round : Parser (Round Unit α)}
    (h : Takes round ts rest fun r => ∃ found, r = .stop found ∧ Q found.toList) :
    Takes (many round) ts rest Q := by
  unfold many
  rw [gather_eq]
  refine .inspect fun _ _ => h.bindLast ?_
  rintro _ ⟨found, rfl, hfound⟩
  exact .pure hfound

/-- A round that reads a token, those after it, and what is made of what they find. -/
theorem nextRoundBind {round : Parser (Round Unit α)} {f : List α → Parser β}
    {P : Option α → Prop} {R : β → Prop} (hts : ts ≠ [])
    (h : Takes round ts (us ++ rest) fun r => ∃ found, r = .next () found ∧ P found)
    (hmore : ∀ found, P found → Takes (many round >>= fun more => f (found.toList ++ more)) us rest R) :
    Takes (many round >>= f) (ts ++ us) rest R := by
  unfold many at hmore ⊢
  rw [gather_eq]
  simp only [bind_assoc]
  refine .inspect fun s hs => h.bind ?_
  rintro _ ⟨found, rfl, hfound⟩
  have hlength : (us ++ rest).length < s.rest.length := by
    have hpos := List.length_pos_iff.2 hts
    simp only [hs, List.length_append]
    omega
  simp only [bind_assoc, pure_bind]
  exact (hmore found hfound).pastBind hlength

/-- A round that reads a token, and those after it. -/
theorem nextRound {round : Parser (Round Unit α)} {P : Option α → Prop} (hts : ts ≠ [])
    (h : Takes round ts (us ++ rest) fun r => ∃ found, r = .next () found ∧ P found)
    (hmore : ∀ found, P found → Takes (many round) us rest fun more => Q (found.toList ++ more)) :
    Takes (many round) (ts ++ us) rest Q := by
  rw [← bind_pure (many round)]
  exact nextRoundBind hts h fun found hfound => (hmore found hfound).bindLast fun _ h => .pure h

/-- One round for each element, and a last one that finds nothing.  Each element begins with a
token of the kinds `K`, as does what comes after the last. -/
theorem each {round : Parser (Round Unit α)} {one : α → List Token → Prop} {shape : α → α}
    {K : TokenKind → Prop} {n : Nat} {as : List α} (has : WrittenEach one as ts)
    (hbegins : ∀ a ts, one a ts → Begins K ts)
    (hround : ∀ a ts rest, one a ts → Begins K rest → (ts ++ rest).length ≤ n →
      Takes round ts rest fun r => ∃ b, r = .next () (some b) ∧ shape b = shape a)
    (hstop : Takes round [] rest (· = .stop none)) (hrest : Begins K rest)
    (hl : (ts ++ rest).length ≤ n) :
    Takes (many round) ts rest fun bs => bs.map shape = as.map shape := by
  induction has with
  | nil =>
    refine .stopRound (hstop.mono ?_)
    rintro _ rfl
    exact ⟨none, rfl, rfl⟩
  | @cons a as ts us ha has ih =>
    have hnext : Begins K (us ++ rest) := by
      cases has with
      | nil => exact hrest
      | cons ha' => exact ((hbegins _ _ ha').append _).append _
    obtain ⟨t, vs, rfl, -⟩ := hbegins a ts ha
    rw [List.append_assoc] at hl
    refine .nextRound (P := fun o => ∃ b, o = some b ∧ shape b = shape a) (by simp) ?_ ?_
    · refine (hround a _ _ ha hnext hl).mono ?_
      rintro _ ⟨b, rfl, hb⟩
      exact ⟨_, rfl, b, rfl, hb⟩
    · rintro _ ⟨b, rfl, hb⟩
      refine (ih ?_).mono fun bs hbs => ?_
      · rw [List.length_append] at hl
        omega
      · simp [hb, hbs]

variable {step : α → Parser (Option α)} {a : α} {R : α → Prop}

/-- No step is left. -/
theorem lastStep (h : Takes (step a) [] rest (· = none)) (ha : R a) :
    Takes (iterate step a) [] rest R := by
  rw [iterate_eq]
  refine .inspect fun _ _ => h.bindLast ?_
  rintro _ rfl
  exact .pure ha

/-- A step that reads a token, and those after it. -/
theorem nextStep {P : α → Prop} (hts : ts ≠ [])
    (h : Takes (step a) ts (us ++ rest) fun r => ∃ a', r = some a' ∧ P a')
    (hmore : ∀ a', P a' → Takes (iterate step a') us rest R) :
    Takes (iterate step a) (ts ++ us) rest R := by
  rw [iterate_eq]
  refine .inspect fun s hs => h.bind ?_
  rintro _ ⟨a', rfl, ha'⟩
  have hlength : (us ++ rest).length < s.rest.length := by
    have hpos := List.length_pos_iff.2 hts
    simp only [hs, List.length_append]
    omega
  exact (hmore a' ha').past hlength

end Takes

/-! ## Reading back -/

/-- With fewer than `n` tokens left `p` takes every way in which a value is written, if what
follows satisfies `follow`, and its value has the same shape. -/
def ReadsBack (written : α → List Token → Prop) (follow : List Token → Prop) (shape : α → α)
    (n : Nat) (p : Parser α) : Prop :=
  ∀ a ts rest, written a ts → follow rest → (ts ++ rest).length < n →
    Takes p ts rest fun b => shape b = shape a

namespace ReadsBack

variable {written : α → List Token → Prop} {follow : List Token → Prop} {shape : α → α}
  {n : Nat}

/-- A rule that reads back what is written with one token more than it is given for itself
reads back all. -/
theorem recurse {rule : Parser α → Parser α}
    (hr : ∀ n p, ReadsBack written follow shape n p →
      ReadsBack written follow shape (n + 1) (rule p)) :
    ReadsBack written follow shape n (recurse rule) := by
  have key : ∀ fuel, ReadsBack written follow shape fuel (recurseAt rule fuel) := by
    intro fuel
    induction fuel with
    | zero => intro a ts rest _ _ h; omega
    | succ fuel ih =>
      intro a ts rest ha hrest hlength s hs
      have hself : ReadsBack written follow shape s.rest.length
          (past s.rest.length (recurseAt rule fuel)) := by
        intro a' ts' rest' ha' hrest' hlength'
        rw [hs] at hlength'
        exact (ih a' ts' rest' ha' hrest' (by omega)).past (by rwa [hs])
      exact hr _ _ hself a ts rest ha hrest (by rw [hs]; omega) s hs
  intro a ts rest ha hrest _ s hs
  exact key (s.rest.length + 1) a ts rest ha hrest (by rw [hs]; omega) s hs

section Commas

variable {as : List α}

/-- No comma is left. -/
theorem noMore (hrest : Begins (· ≠ .mark .comma) rest) :
    Takes (many do if ← eatMark .comma then found (← p) else stopped) [] rest (· = []) :=
  .stopRound (.notEat hrest (.pure ⟨none, rfl, rfl⟩))

/-- A comma, and the elements behind it. -/
theorem more (hp : ReadsBack written follow shape n p)
    (hcomma : ∀ t us, t.kind = .mark .comma → follow (t :: us)) (has : WrittenList written as ts)
    (ht : t.kind = .mark .comma) (hrest : follow rest)
    (hnot : Begins (· ≠ .mark .comma) rest) (hl : (ts ++ rest).length < n) :
    Takes (many do if ← eatMark .comma then found (← p) else stopped) (t :: ts) rest
      fun bs => bs.map shape = as.map shape := by
  induction has generalizing t with
  | @last a ts ha =>
    have hround : Takes (many do if ← eatMark .comma then found (← p) else stopped)
        (t :: ts ++ []) rest fun bs => bs.map shape = [a].map shape := by
      refine .nextRound (P := fun b => ∃ c, b = some c ∧ shape c = shape a) (by simp) ?_ ?_
      · exact .eatMark ht ((hp a ts rest ha hrest hl).bindLast fun b hb => .pure ⟨_, rfl, b, rfl, hb⟩)
      · rintro _ ⟨b, rfl, hb⟩
        refine (noMore hnot).mono ?_
        rintro _ rfl
        simp [hb]
    rwa [List.append_nil] at hround
  | @more a as ts us comma ha hc _ ih =>
    rw [List.append_assoc] at hl
    have hl' : (us ++ rest).length < n := by
      simp only [List.length_append, List.length_cons] at hl ⊢
      omega
    rw [← List.cons_append]
    refine .nextRound (P := fun b => ∃ c, b = some c ∧ shape c = shape a) (by simp) ?_ ?_
    · refine .eatMark ht ((hp a ts _ ha (hcomma _ _ hc) hl).bindLast fun b hb => ?_)
      exact .pure ⟨_, rfl, b, rfl, hb⟩
    · rintro _ ⟨b, rfl, hb⟩
      refine (ih hc hl').mono fun bs hbs => ?_
      simp [hb, hbs]

/-- Elements with commas between them are read back one by one. -/
theorem commaSeparated (hp : ReadsBack written follow shape n p)
    (hcomma : ∀ t us, t.kind = .mark .comma → follow (t :: us)) (has : WrittenList written as ts)
    (hrest : follow rest) (hnot : Begins (· ≠ .mark .comma) rest) (hl : (ts ++ rest).length < n) :
    Takes (commaSeparated p) ts rest fun bs => bs.map shape = as.map shape := by
  cases has with
  | @last a _ ha =>
    refine (hp a ts rest ha hrest hl).bindLast fun b hb => (noMore hnot).bindLast ?_
    rintro _ rfl
    exact .pure (by simp [hb])
  | @more a as ts us comma ha hc has =>
    rw [List.append_assoc] at hl
    have hl' : (us ++ rest).length < n := by
      simp only [List.length_append, List.length_cons] at hl ⊢
      omega
    refine (hp a ts _ ha (hcomma _ _ hc) hl).bind fun b hb => ?_
    refine (hp.more hcomma has hc hrest hnot hl').bindLast fun bs hbs => .pure ?_
    simp [hb, hbs]

end Commas

end ReadsBack

end SimFront.Parser
