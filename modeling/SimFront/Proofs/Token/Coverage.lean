import SimFront.Proofs.Text.LineIndex
import SimFront.Proofs.Token.Lexeme

/-!
# The tokens cover the text

`Laid p cs ts` says of tokens `ts` that, written one after the other with trivia between
them, they are the text `cs` that begins at position `p`.  Scanning lays a text out that
way (`laid_tokenizeFrom`); what a reader of the tokens relies on follows by induction on
`Laid`: that nothing is lost and nothing invented (`faithful_tokenize`), and that two
names never touch (`ident_before`).
-/

namespace SimFront

open String (utf8Len)

/-! ## Tokens laid out over a text -/

/-- The tokens of the text `cs` that begins at `p`, with trivia before each of them. -/
inductive Laid : Position → List Char → List Token → Prop where
  | done {p : Position} {gap : List Char} (trivia : Trivia gap) :
      Laid p gap [.endAt (p.advanceBy gap)]
  | token {p : Position} {gap text rest : List Char} {kind : TokenKind} {value : TokenValue}
      {ts : List Token} (trivia : Trivia gap) (notEmpty : text ≠ []) (notEnd : kind ≠ .eof)
      (name : kind = .ident → (∃ c ∈ text.head?, Lexeme.isNameStart c) ∧
        ∀ d ∈ rest.head?, Lexeme.isNameStart d = false)
      (more : Laid ((p.advanceBy gap).advanceBy text) rest ts) :
      Laid p (gap ++ (text ++ rest)) (⟨kind, String.ofList text, value,
        ⟨p.advanceBy gap, (p.advanceBy gap).advanceBy text⟩⟩ :: ts)

namespace Laid

theorem after_trivia {p : Position} {gap cs : List Char} {ts : List Token} (hgap : Trivia gap)
    (h : Laid (p.advanceBy gap) cs ts) : Laid p (gap ++ cs) ts := by
  cases h with
  | done trivia =>
    rw [← Position.advanceBy_append]
    exact .done (hgap.append trivia)
  | @token _ inner text rest _ _ ts trivia notEmpty notEnd name more =>
    rw [← Position.advanceBy_append p gap inner] at more ⊢
    rw [← List.append_assoc]
    exact .token (hgap.append trivia) notEmpty notEnd name more

end Laid

theorem laid_tokenizeFrom (p : Position) (cs : List Char) : Laid p cs (tokenizeFrom p cs) := by
  induction p, cs using tokenizeFrom.induct with
  | case1 p =>
    rw [tokenizeFrom]
    exact .done .nil
  | case2 p c cs n text stop kind value hread ih =>
    rw [tokenizeFrom, hread]
    have := @Laid.token p [] _ _ kind value _ .nil (List.cons_ne_nil c (cs.take n))
      (Lexeme.ne_eof_of_token hread)
      (fun hkind => by
        subst hkind
        exact (Lexeme.of_ident hread).imp (fun h => ⟨c, rfl, h⟩) id) ih
    rwa [List.nil_append, List.cons_append, List.take_append_drop] at this
  | case3 p c cs n text stop hread ih =>
    rw [tokenizeFrom, hread]
    have := ih.after_trivia (Lexeme.trivia_of_blank hread)
    rwa [List.cons_append, List.take_append_drop] at this
  | case4 p c cs n text stop hread ih =>
    rw [tokenizeFrom, hread]
    have := ih.after_trivia (Lexeme.trivia_of_comment hread)
    rwa [List.cons_append, List.take_append_drop] at this

theorem laid_tokenize (text : String) : Laid .start text.toList (tokenize text) :=
  laid_tokenizeFrom .start text.toList

/-! ## The order of the tokens -/

/-- Where the tokens of a list end, when reading began at `p`. -/
def endOf (p : Position) (ts : List Token) : Position :=
  (ts.getLast?.map (·.span.stop)).getD p

theorem endOf_cons (p : Position) (t : Token) (ts : List Token) :
    endOf p (t :: ts) = endOf t.span.stop ts := by
  unfold endOf
  rw [List.getLast?_cons]
  cases ts.getLast? <;> rfl

theorem endOf_append (p : Position) (ts us : List Token) :
    endOf p (ts ++ us) = endOf (endOf p ts) us := by
  induction ts generalizing p with
  | nil => rfl
  | cons t ts ih => rw [List.cons_append, endOf_cons, endOf_cons, ih]

/-- Spans that follow each other, from a position on. -/
def InOrder : Position → List Token → Prop
  | _, [] => True
  | p, t :: ts => p ≤ t.span.start ∧ t.span.start ≤ t.span.stop ∧ InOrder t.span.stop ts

namespace InOrder

variable {p q : Position} {ts us : List Token}

theorem of_le (h : InOrder q ts) (hle : p ≤ q) : InOrder p ts := by
  cases ts with
  | nil => trivial
  | cons t ts => exact ⟨le_trans hle h.1, h.2⟩

theorem le_endOf (h : InOrder p ts) : p ≤ endOf p ts := by
  induction ts generalizing p with
  | nil => exact le_refl p
  | cons t ts ih =>
    rw [endOf_cons]
    exact le_trans h.1 (le_trans h.2.1 (ih h.2.2))

theorem of_append (h : InOrder p (ts ++ us)) : InOrder p ts ∧ InOrder (endOf p ts) us := by
  induction ts generalizing p with
  | nil => exact ⟨trivial, h⟩
  | cons t ts ih =>
    obtain ⟨hts, hus⟩ := ih h.2.2
    rw [endOf_cons]
    exact ⟨⟨h.1, h.2.1, hts⟩, hus⟩

theorem append (h : InOrder p ts) (h' : InOrder (endOf p ts) us) : InOrder p (ts ++ us) := by
  induction ts generalizing p with
  | nil => exact h'
  | cons t ts ih =>
    rw [endOf_cons] at h'
    exact ⟨h.1, h.2.1, ih h.2.2 h'⟩

/-- Tokens can be left out. -/
theorem filter (h : InOrder p ts) (keep : Token → Bool) : InOrder p (ts.filter keep) := by
  induction ts generalizing p with
  | nil => trivial
  | cons t ts ih =>
    rw [List.filter_cons]
    split
    · exact ⟨h.1, h.2.1, ih h.2.2⟩
    · exact ih (h.2.2.of_le (le_trans h.1 h.2.1))

end InOrder

/-- One comes from one position to another along some characters. -/
def Position.Reaches (p q : Position) : Prop := ∃ cs, q = p.advanceBy cs

namespace Position.Reaches

variable {p q r : Position}

theorem along (p : Position) (cs : List Char) : p.Reaches (p.advanceBy cs) := ⟨cs, rfl⟩

theorem trans (h : p.Reaches q) (h' : q.Reaches r) : p.Reaches r := by
  obtain ⟨cs, rfl⟩ := h
  obtain ⟨ds, rfl⟩ := h'
  exact ⟨cs ++ ds, (advanceBy_append p cs ds).symm⟩

theorem le (h : p.Reaches q) : p ≤ q := by
  obtain ⟨cs, rfl⟩ := h
  exact le_advanceBy p cs

theorem offset_le (h : p.Reaches q) : p.offset ≤ q.offset := by
  obtain ⟨cs, rfl⟩ := h
  rw [advanceBy_offset]
  exact Nat.le_add_right _ _

end Position.Reaches

namespace Laid

theorem reaches {p : Position} {cs : List Char} {ts : List Token} (h : Laid p cs ts) :
    ∀ t ∈ ts, p.Reaches t.span.start ∧ t.span.start.Reaches t.span.stop := by
  induction h with
  | @done p gap _ =>
    rintro t ht
    obtain rfl := List.mem_singleton.1 ht
    exact ⟨.along p gap, .along _ []⟩
  | @token p gap text rest _ _ ts _ _ _ _ _ ih =>
    rintro t ht
    rcases List.mem_cons.1 ht with rfl | ht
    · exact ⟨.along p gap, .along _ text⟩
    · exact ⟨((Position.Reaches.along p gap).trans (.along _ text)).trans (ih t ht).1, (ih t ht).2⟩

theorem pairwise_reaches {p : Position} {cs : List Char} {ts : List Token} (h : Laid p cs ts) :
    ts.Pairwise fun a b => a.span.stop.Reaches b.span.start := by
  induction h with
  | done => exact List.pairwise_singleton _ _
  | token _ _ _ _ more ih => exact .cons (fun t ht => (more.reaches t ht).1) ih

theorem inOrder {p : Position} {cs : List Char} {ts : List Token} (h : Laid p cs ts) :
    InOrder p ts := by
  induction h with
  | @done p gap _ => exact ⟨Position.le_advanceBy p gap, le_refl _, trivial⟩
  | @token p gap text _ _ _ _ _ _ _ _ _ ih =>
    exact ⟨Position.le_advanceBy p gap, Position.le_advanceBy _ text, ih⟩

/-- No name starts where nothing stands that could begin one. -/
theorem ident_before {p : Position} {cs : List Char} {ts : List Token} (h : Laid p cs ts)
    (hhead : ∀ c ∈ cs.head?, Lexeme.isNameStart c = false) :
    ∀ t ∈ ts, t.kind = .ident → p.Before t.span.start := by
  intro t ht hkind
  cases h with
  | done => exact absurd (List.mem_singleton.1 ht ▸ hkind) (by simp [Token.endAt])
  | @token _ gap text rest _ _ ts _ notEmpty _ name more =>
    rcases List.mem_cons.1 ht with rfl | ht
    · refine Position.before_advanceBy p fun hgap => ?_
      subst hgap
      obtain ⟨⟨c, hc, hstart⟩, -⟩ := name hkind
      rw [hhead c (by rw [List.nil_append, List.head?_append, hc]; rfl)] at hstart
      exact Bool.false_ne_true hstart
    · exact .of_le (Position.le_advanceBy p gap)
        ((Position.before_advanceBy _ notEmpty).trans_le (more.reaches t ht).1.le)

/-- Two names do not touch. -/
theorem pairwise_ident {p : Position} {cs : List Char} {ts : List Token} (h : Laid p cs ts) :
    ts.Pairwise fun a b =>
      a.kind = .ident → b.kind = .ident → a.span.stop.Before b.span.start := by
  induction h with
  | done => exact List.pairwise_singleton _ _
  | token _ _ _ name more ih =>
    exact .cons (fun b hb ha hkind => more.ident_before (name ha).2 b hb hkind) ih

/-- One token closes the list, at the end of the text; no other is of its kind, and all others
take characters. -/
theorem closed {p : Position} {cs : List Char} {ts : List Token} (h : Laid p cs ts) :
    ∃ us, ts = us ++ [.endAt (p.advanceBy cs)] ∧ ∀ t ∈ us, t.kind ≠ .eof ∧ t.text ≠ "" := by
  induction h with
  | done => exact ⟨[], rfl, fun t ht => nomatch ht⟩
  | @token p gap text rest kind value ts _ notEmpty notEnd _ _ ih =>
    obtain ⟨us, hus, hall⟩ := ih
    refine ⟨⟨kind, String.ofList text, value, ⟨p.advanceBy gap, (p.advanceBy gap).advanceBy text⟩⟩
      :: us, ?_, List.forall_mem_cons.2 ⟨⟨notEnd, by simpa using notEmpty⟩, hall⟩⟩
    rw [Position.advanceBy_append, Position.advanceBy_append, List.cons_append, hus]

end Laid

/-! ## The text of the tokens -/

/-- The characters `cs` stand in a text between two offsets, which are on character boundaries. -/
def Slice (text : List Char) (lo hi : Nat) (cs : List Char) : Prop :=
  ∃ before after, text = before ++ (cs ++ after) ∧ lo = utf8Len before ∧ hi = lo + utf8Len cs

/-- A position that one comes to in a text. -/
def InText (text : List Char) (p : Position) : Prop :=
  ∃ before after, text = before ++ after ∧ p = Position.start.advanceBy before

/-- Lines and columns tell the positions of a text apart. -/
theorem InText.apart (text : List Char) : Position.Apart (InText text) := by
  rintro _ _ ⟨before, after, rfl, rfl⟩ ⟨before', after', htext, rfl⟩ hline hcolumn
  -- one of the two runs goes on where the other ends
  have hsame {cs ds : List Char} (hline : (Position.start.advanceBy cs).line =
      (Position.start.advanceBy (cs ++ ds)).line) (hcolumn : (Position.start.advanceBy cs).column =
      (Position.start.advanceBy (cs ++ ds)).column) : ds = [] := by
    by_contra hne
    have hbefore := Position.before_advanceBy (Position.start.advanceBy cs) hne
    rw [← Position.advanceBy_append] at hbefore
    unfold Position.Before at hbefore
    omega
  rcases List.append_eq_append_iff.1 htext with ⟨ds, rfl, -⟩ | ⟨ds, rfl, -⟩
  · rw [hsame hline hcolumn, List.append_nil]
  · rw [hsame hline.symm hcolumn.symm, List.append_nil]

theorem Slice.of_append (before cs after : List Char) :
    Slice (before ++ (cs ++ after)) (Position.start.advanceBy before).offset
      ((Position.start.advanceBy before).advanceBy cs).offset cs := by
  refine ⟨before, after, rfl, ?_, Position.advanceBy_offset _ _⟩
  rw [Position.advanceBy_offset]
  exact Nat.zero_add _

namespace Laid

/-- Both ends of every token are positions of the text, and between them stands its own text. -/
theorem slice (before : List Char) {cs : List Char} {ts : List Token}
    (h : Laid (Position.start.advanceBy before) cs ts) :
    ∀ t ∈ ts, InText (before ++ cs) t.span.start ∧ InText (before ++ cs) t.span.stop ∧
      Slice (before ++ cs) t.span.start.offset t.span.stop.offset t.text.toList := by
  generalize hp : Position.start.advanceBy before = p at h
  induction h generalizing before with
  | @done p gap _ =>
    subst hp
    intro t ht
    obtain rfl := List.mem_singleton.1 ht
    rw [← Position.advanceBy_append]
    have hend : InText (before ++ gap) (Position.start.advanceBy (before ++ gap)) :=
      ⟨_, [], (List.append_nil _).symm, rfl⟩
    refine ⟨hend, hend, ?_⟩
    have := Slice.of_append (before ++ gap) [] []
    rwa [List.append_nil, List.append_nil] at this
  | @token p gap text rest kind value ts _ _ _ _ _ ih =>
    subst hp
    rw [← Position.advanceBy_append, ← List.append_assoc]
    intro t ht
    rcases List.mem_cons.1 ht with rfl | ht
    · refine ⟨⟨_, _, rfl, rfl⟩, ⟨_, rest, (List.append_assoc _ _ _).symm,
        (Position.advanceBy_append _ _ _).symm⟩, ?_⟩
      simpa only [String.toList_ofList] using Slice.of_append _ _ _
    · have := ih (before ++ gap ++ text) (by simp only [Position.advanceBy_append]) t ht
      simpa only [List.append_assoc] using this

/-- Between the tokens stands trivia. -/
theorem gap (before : List Char) {cs : List Char} {ts : List Token}
    (h : Laid (Position.start.advanceBy before) cs ts) {xs ys : List Token} {t : Token}
    (hts : ts = xs ++ t :: ys) :
    ∃ gap, Trivia gap ∧ Slice (before ++ cs)
      (endOf (Position.start.advanceBy before) xs).offset t.span.start.offset gap := by
  generalize hp : Position.start.advanceBy before = p at h
  induction h generalizing before xs with
  | @done p gap trivia =>
    subst hp
    obtain ⟨rfl, rfl, rfl⟩ : xs = [] ∧ t = .endAt ((Position.start.advanceBy before).advanceBy gap) ∧
        ys = [] := by
      simpa [List.append_eq_singleton_iff] using hts.symm
    have := Slice.of_append before gap []
    rw [List.append_nil] at this
    exact ⟨gap, trivia, this⟩
  | @token p gap text rest kind value ts trivia _ _ _ _ ih =>
    subst hp
    cases xs with
    | nil =>
      obtain ⟨rfl, rfl⟩ := List.cons.inj hts
      exact ⟨gap, trivia, Slice.of_append _ _ _⟩
    | cons x xs =>
      obtain ⟨rfl, htail⟩ := List.cons.inj hts
      have := ih (before ++ gap ++ text) htail (by simp only [Position.advanceBy_append])
      rw [endOf_cons]
      simpa only [List.append_assoc] using this

end Laid

/-! ## Nothing is lost, nothing invented -/

/-- The tokens of a list are what a text consists of, up to trivia. -/
structure Faithful (text : String) (tokens : List Token) : Prop where
  /-- One token closes the list, empty and at the end of the text; no other does, and no other
  is empty. -/
  closed : ∃ ts last, tokens = ts ++ [last] ∧ last.kind = .eof ∧ last.text = "" ∧
    last.span.start = last.span.stop ∧ last.span.stop.offset = text.utf8ByteSize ∧
    ∀ t ∈ ts, t.kind ≠ .eof ∧ t.text ≠ ""
  /-- The text of a token is what stands between its two offsets, which are on character
  boundaries. -/
  slice : ∀ t ∈ tokens,
    Slice text.toList t.span.start.offset t.span.stop.offset t.text.toList
  /-- No token starts before an earlier one has ended. -/
  ordered : tokens.Pairwise fun a b =>
    a.span.stop ≤ b.span.start ∧ a.span.stop.offset ≤ b.span.start.offset
  /-- Before, between and after the tokens stand blanks and closed comments. -/
  gap : ∀ xs t ys, tokens = xs ++ t :: ys → ∃ gap, Trivia gap ∧
    Slice text.toList (endOf .start xs).offset t.span.start.offset gap
  /-- The line of an end of a token counts the line feeds before it, the column the characters
  since the last of them, and the line index answers the same. -/
  position : ∀ t ∈ tokens, ∀ p ∈ [t.span.start, t.span.stop],
    (∃ before after, text.toList = before ++ after ∧
      p = ⟨before.count '\n' + 1, (LineIndex.lineText before).length + 1, utf8Len before⟩) ∧
    (LineIndex.ofString text).position text p.offset = p

theorem faithful_tokenize (text : String) : Faithful text (tokenize text) := by
  have hlaid := laid_tokenize text
  have hslice : ∀ t ∈ tokenize text, InText text.toList t.span.start ∧
      InText text.toList t.span.stop ∧
      Slice text.toList t.span.start.offset t.span.stop.offset t.text.toList :=
    Laid.slice [] hlaid
  have hend : (Position.start.advanceBy text.toList).offset = text.utf8ByteSize := by
    rw [Position.advanceBy_offset, String.utf8Len_toList]
    exact Nat.zero_add _
  have hposition : ∀ p, InText text.toList p → (∃ before after, text.toList = before ++ after ∧
      p = ⟨before.count '\n' + 1, (LineIndex.lineText before).length + 1, utf8Len before⟩) ∧
      (LineIndex.ofString text).position text p.offset = p := by
    rintro p ⟨before, after, happend, rfl⟩
    refine ⟨⟨before, after, happend, LineIndex.advanceBy_start before⟩, ?_⟩
    rw [Position.advanceBy_offset, show Position.start.offset = 0 from rfl, Nat.zero_add,
      LineIndex.position_ofString happend]
  constructor
  · obtain ⟨ts, hts, hall⟩ := hlaid.closed
    exact ⟨ts, _, hts, rfl, rfl, rfl, hend, hall⟩
  · exact fun t ht => (hslice t ht).2.2
  · exact hlaid.pairwise_reaches.imp fun h => ⟨h.le, h.offset_le⟩
  · exact fun xs t ys => Laid.gap [] hlaid
  · intro t ht p hp
    rcases List.mem_cons.1 hp with rfl | hp
    · exact hposition _ (hslice t ht).1
    · obtain rfl := List.mem_singleton.1 hp
      exact hposition _ (hslice t ht).2.1

end SimFront
