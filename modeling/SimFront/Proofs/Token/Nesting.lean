import SimFront.Proofs.Token.Extent

/-!
# Nested comments, read by recursion

`Comment.behind?` reads a comment the way it is specified: an opener of either form begins a
comment inside, which is read first, the closer of its own form ends it, and every other
character is skipped.  The stack of open forms stops where this reader stops
(`length?_eq_behind?`), and so does a stack that sees nothing but the bytes of the text
(`skipBytes?_eq_behind?`).  What stands behind a comment is read as if nothing stood
before it, up to the places of its tokens (`tokenizeFrom_opener`).
-/

namespace SimFront

open String (utf8Len utf8EncodeChar)

namespace Comment

/-! ## The recursive reader -/

/-- A place in a text where a reader stops, past something that it took. -/
structure Stop (cs : List Char) where
  taken : List Char
  rest : List Char
  append : taken ++ rest = cs
  notEmpty : taken ≠ []

namespace Stop

theorem rest_lt {cs : List Char} (s : Stop cs) : s.rest.length < cs.length := by
  have hlen := congrArg List.length s.append
  have hpos := List.length_pos_iff.2 s.notEmpty
  rw [List.length_append] at hlen
  omega

theorem take_taken {cs : List Char} (s : Stop cs) : cs.take s.taken.length = s.taken := by
  obtain ⟨taken, rest, rfl, -⟩ := s
  exact List.take_left

theorem drop_taken {cs : List Char} (s : Stop cs) : cs.drop s.taken.length = s.rest := by
  obtain ⟨taken, rest, rfl, -⟩ := s
  exact List.drop_left

/-- The same place when something stands before the text. -/
def after {cs : List Char} (front : List Char) (s : Stop cs) : Stop (front ++ cs) where
  taken := front ++ s.taken
  rest := s.rest
  append := by rw [List.append_assoc, s.append]
  notEmpty := List.append_ne_nil_of_right_ne_nil front s.notEmpty

/-- A place further on, in what another one leaves. -/
def andThen {cs : List Char} (s : Stop cs) (t : Stop s.rest) : Stop cs where
  taken := s.taken ++ t.taken
  rest := t.rest
  append := by rw [List.append_assoc, t.append, s.append]
  notEmpty := List.append_ne_nil_of_left_ne_nil s.notEmpty t.taken

end Stop

/-- Reads a comment of a form whose opener has been read, up to its closer and with it; none when
the text ends first. -/
def behind? (form : Form) (cs : List Char) : Option (Stop cs) :=
  match form, cs with
  | _, [] => none
  | form, '\x7b' :: cs =>
    match behind? .brace cs with
    | none => none
    | some inner => (behind? form inner.rest).map fun s => (inner.andThen s).after ['\x7b']
  | form, '(' :: '*' :: cs =>
    match behind? .paren cs with
    | none => none
    | some inner => (behind? form inner.rest).map fun s => (inner.andThen s).after ['(', '*']
  | .brace, '\x7d' :: cs => some ⟨['\x7d'], cs, rfl, List.cons_ne_nil _ _⟩
  | .paren, '*' :: ')' :: cs => some ⟨['*', ')'], cs, rfl, List.cons_ne_nil _ _⟩
  | form, c :: cs => (behind? form cs).map (.after [c])
termination_by cs.length
decreasing_by
  all_goals simp only [List.length_cons]
  all_goals first
    | omega
    | have := inner.rest_lt; omega

/-- What can stand at the head of a text inside a comment of a form: an opener, the closer of the
form, or a character that begins neither. -/
inductive Head (form : Form) : List Char → Prop where
  | ended : Head form []
  | opener (inner : Form) (cs : List Char) : Head form (inner.opener ++ cs)
  | closer (cs : List Char) : Head form (form.closer ++ cs)
  | plain {c : Char} {cs : List Char} (unopened : ∀ inner : Form, ¬ inner.opener <+: c :: cs)
      (inside : ¬ form.closer <+: c :: cs) : Head form (c :: cs)

theorem head_of (form : Form) : ∀ cs, Head form cs
  | [] => .ended
  | c :: cs => by
    by_cases hopen : ∃ inner : Form, inner.opener <+: c :: cs
    · obtain ⟨inner, ds, hds⟩ := hopen
      exact hds ▸ .opener inner ds
    · by_cases hclose : form.closer <+: c :: cs
      · obtain ⟨ds, hds⟩ := hclose
        exact hds ▸ .closer ds
      · exact .plain (not_exists.1 hopen) hclose

theorem behind?_nil (form : Form) : behind? form [] = none := by rw [behind?]

theorem behind?_opener (inner form : Form) (cs : List Char) :
    behind? form (inner.opener ++ cs) = (behind? inner cs).bind fun s =>
      (behind? form s.rest).map fun t => (s.andThen t).after inner.opener := by
  cases inner with
  | brace =>
    show behind? form ('\x7b' :: cs) = _
    rw [behind?]
    cases behind? .brace cs <;> rfl
  | paren =>
    show behind? form ('(' :: '*' :: cs) = _
    rw [behind?]
    cases behind? .paren cs <;> rfl

theorem behind?_closer (form : Form) (cs : List Char) :
    behind? form (form.closer ++ cs) =
      some ⟨form.closer, cs, rfl, by cases form <;> exact List.cons_ne_nil _ _⟩ := by
  cases form with
  | brace =>
    show behind? .brace ('\x7d' :: cs) = _
    rw [behind?]
    rfl
  | paren =>
    show behind? .paren ('*' :: ')' :: cs) = _
    rw [behind?]
    rfl

theorem behind?_plain {form : Form} {c : Char} {cs : List Char}
    (unopened : ∀ inner : Form, ¬ inner.opener <+: c :: cs)
    (inside : ¬ form.closer <+: c :: cs) :
    behind? form (c :: cs) = (behind? form cs).map (.after [c]) := by
  rw [behind?]
  · rintro rfl
    exact unopened .brace ⟨cs, rfl⟩
  · rintro ds rfl rfl
    exact unopened .paren ⟨ds, rfl⟩
  · rintro rfl rfl
    exact inside ⟨cs, rfl⟩
  · rintro ds rfl rfl rfl
    exact inside ⟨ds, rfl⟩

/-! ## Stacks of open forms -/

/-- What a scan with a stack of open forms does at each head of a text, when `size` is what it adds
to its count for the characters it takes. -/
structure Stacks (size : List Char → Nat) (scan : List Form → Nat → List Char → Option Nat) :
    Prop where
  size_append (cs ds : List Char) : size (cs ++ ds) = size cs + size ds
  emptied (n : Nat) (cs : List Char) : scan [] n cs = some n
  ended (form : Form) (outer : List Form) (n : Nat) : scan (form :: outer) n [] = none
  opener (inner form : Form) (outer : List Form) (n : Nat) (cs : List Char) :
    scan (form :: outer) n (inner.opener ++ cs) =
      scan (inner :: form :: outer) (n + size inner.opener) cs
  closer (form : Form) (outer : List Form) (n : Nat) (cs : List Char) :
    scan (form :: outer) n (form.closer ++ cs) = scan outer (n + size form.closer) cs
  plain {form : Form} {c : Char} {cs : List Char} (outer : List Form) (n : Nat)
    (unopened : ∀ inner : Form, ¬ inner.opener <+: c :: cs)
    (inside : ¬ form.closer <+: c :: cs) :
    scan (form :: outer) n (c :: cs) = scan (form :: outer) (n + size [c]) cs

namespace Stacks

variable {size : List Char → Nat} {scan : List Form → Nat → List Char → Option Nat}

/-- Such a scan takes the innermost open form off its stack where the reader stops. -/
theorem pops (h : Stacks size scan) (form : Form) (outer : List Form) (n : Nat) (cs : List Char) :
    scan (form :: outer) n cs =
      (behind? form cs).bind fun s => scan outer (n + size s.taken) s.rest := by
  -- On the length of the text: what is read behind a comment inside is not a tail of the text.
  induction hlen : cs.length using Nat.strong_induction_on generalizing form outer n cs with
  | _ len ih =>
    subst hlen
    cases head_of form cs with
    | ended => rw [h.ended, behind?_nil, Option.bind_none]
    | opener inner cs =>
      have hshort : cs.length < (inner.opener ++ cs).length := by
        cases inner with
        | brace => exact Nat.lt_succ_self _
        | paren => exact Nat.lt_succ_of_lt (Nat.lt_succ_self _)
      rw [h.opener, ih _ hshort inner (form :: outer) _ cs rfl, behind?_opener, Option.bind_assoc]
      refine Option.bind_congr fun s _ => ?_
      rw [ih _ (s.rest_lt.trans hshort) form outer _ s.rest rfl, Option.bind_map]
      refine Option.bind_congr fun t _ => ?_
      simp only [Function.comp, Stop.after, Stop.andThen, h.size_append, Nat.add_assoc]
    | closer cs => rw [h.closer, behind?_closer, Option.bind_some]
    | @plain c cs unopened inside =>
      have hshort : cs.length < (c :: cs).length := Nat.lt_succ_self _
      rw [h.plain outer n unopened inside, ih _ hshort form outer _ cs rfl,
        behind?_plain unopened inside, Option.bind_map]
      refine Option.bind_congr fun s _ => ?_
      simp only [Function.comp, Stop.after, h.size_append, Nat.add_assoc]

/-- So one that begins with a single open form stops where the reader stops. -/
theorem eq_behind? (h : Stacks size scan) (form : Form) (cs : List Char) :
    scan [form] 0 cs = (behind? form cs).map fun s => size s.taken := by
  rw [h.pops, Option.map_eq_bind]
  exact Option.bind_congr fun s _ => by rw [h.emptied, Nat.zero_add]; rfl

end Stacks

theorem stacks_skip? : Stacks List.length skip? where
  size_append _ _ := List.length_append
  emptied n cs := by rw [skip?]
  ended form outer n := by rw [skip?]
  opener inner form outer n cs := by cases inner <;> cases form <;> simp [Form.opener, skip?]
  closer form outer n cs := by cases form <;> simp [Form.closer, skip?]
  plain outer n unopened inside := by
    rw [skip?]
    · rfl
    · rintro rfl rfl
      exact inside ⟨_, rfl⟩
    · rintro ds rfl rfl rfl
      exact inside ⟨ds, rfl⟩
    · rintro rfl
      exact unopened .brace ⟨_, rfl⟩
    · rintro ds rfl rfl
      exact unopened .paren ⟨ds, rfl⟩

/-- The length of a comment is what the recursive reader takes. -/
theorem length?_eq_behind? (form : Form) (cs : List Char) :
    length? form cs = (behind? form cs).map (·.taken.length) := stacks_skip?.eq_behind? form cs

/-! ## Bytes -/

/-- The bytes of a text. -/
def bytes (cs : List Char) : List UInt8 := cs.flatMap utf8EncodeChar

/-- A stack of open forms that sees the bytes of a text: the number of bytes, added to `n`, up to
the closer that empties it. -/
def skipBytes? : List Form → Nat → List UInt8 → Option Nat
  | [], n, _ => some n
  | _ :: _, _, [] => none
  | .brace :: outer, n, 0x7d :: bs => skipBytes? outer (n + 1) bs
  | .paren :: outer, n, 0x2a :: 0x29 :: bs => skipBytes? outer (n + 2) bs
  | form :: outer, n, 0x7b :: bs => skipBytes? (.brace :: form :: outer) (n + 1) bs
  | form :: outer, n, 0x28 :: 0x2a :: bs => skipBytes? (.paren :: form :: outer) (n + 2) bs
  | form :: outer, n, _ :: bs => skipBytes? (form :: outer) (n + 1) bs

theorem bytes_cons (c : Char) (cs : List Char) : bytes (c :: cs) = utf8EncodeChar c ++ bytes cs :=
  List.flatMap_cons

/-- A character of ASCII is one byte, and all bytes of any other are above ASCII. -/
theorem utf8EncodeChar_cases (c : Char) :
    (c.toNat < 128 ∧ utf8EncodeChar c = [UInt8.ofNat c.toNat]) ∨
      ∀ b ∈ utf8EncodeChar c, 128 ≤ b.toNat := by
  unfold utf8EncodeChar
  by_cases h1 : c.val.toNat ≤ 127
  · exact Or.inl ⟨Nat.lt_succ_of_le h1, if_pos h1⟩
  · refine Or.inr ?_
    simp only [if_neg h1]
    split_ifs
    all_goals
      simp only [List.forall_mem_cons, List.not_mem_nil, false_implies, implies_true, and_true,
        UInt8.toNat_ofNat']
      omega

theorem eq_of_byte {c d : Char} (hc : c.toNat < 128) (hd : d.toNat < 128)
    (h : UInt8.ofNat c.toNat = UInt8.ofNat d.toNat) : c = d := by
  have heq := congrArg UInt8.toNat h
  rw [UInt8.toNat_ofNat', UInt8.toNat_ofNat'] at heq
  exact Char.ext (UInt32.toNat_inj.1 (show c.toNat = d.toNat by omega))

/-- So a byte of ASCII is found where its character stands. -/
theorem eq_cons_of_bytes {d : Char} (hd : d.toNat < 128) {cs : List Char} {bs : List UInt8}
    (h : bytes cs = UInt8.ofNat d.toNat :: bs) : ∃ ds, cs = d :: ds := by
  cases cs with
  | nil => exact nomatch h
  | cons c cs =>
    rw [bytes_cons] at h
    rcases utf8EncodeChar_cases c with ⟨hc, hone⟩ | hhigh
    · rw [hone] at h
      exact ⟨cs, by rw [eq_of_byte hc hd (List.cons.inj h).1]⟩
    · obtain ⟨b, rest, hb⟩ := List.exists_cons_of_ne_nil (String.utf8EncodeChar_ne_nil (c := c))
      rw [hb] at h hhigh
      have hle := hhigh b List.mem_cons_self
      rw [(List.cons.inj h).1, UInt8.toNat_ofNat'] at hle
      omega

theorem skipBytes?_high (form : Form) (outer : List Form) (n : Nat) {high : List UInt8}
    (h : ∀ b ∈ high, 128 ≤ b.toNat) (bs : List UInt8) :
    skipBytes? (form :: outer) n (high ++ bs) =
      skipBytes? (form :: outer) (n + high.length) bs := by
  induction high generalizing n with
  | nil => rfl
  | cons b high ih =>
    obtain ⟨hb, hhigh⟩ := List.forall_mem_cons.1 h
    have hne (d : UInt8) (hd : d.toNat < 128) : b ≠ d := by
      rintro rfl
      omega
    rw [List.cons_append, skipBytes?, ih _ hhigh, List.length_cons, Nat.add_right_comm,
      Nat.add_assoc]
    · exact fun _ => hne _ (by decide)
    · exact fun _ _ h _ => hne _ (by decide) h
    · exact hne _ (by decide)
    · exact fun _ h _ => hne _ (by decide) h

theorem stacks_skipBytes? : Stacks utf8Len fun stack n cs => skipBytes? stack n (bytes cs) where
  size_append := String.utf8Len_append
  emptied n cs := by rw [skipBytes?]
  ended form outer n := by
    show skipBytes? (form :: outer) n [] = none
    rw [skipBytes?]
  opener inner form outer n cs := by
    cases inner with
    | brace =>
      show skipBytes? (form :: outer) n (0x7b :: bytes cs) = _
      cases form <;> rw [skipBytes?] <;> rfl
    | paren =>
      show skipBytes? (form :: outer) n (0x28 :: 0x2a :: bytes cs) = _
      cases form <;> rw [skipBytes?] <;> rfl
  closer form outer n cs := by
    cases form with
    | brace =>
      show skipBytes? (.brace :: outer) n (0x7d :: bytes cs) = _
      rw [skipBytes?]
      rfl
    | paren =>
      show skipBytes? (.paren :: outer) n (0x2a :: 0x29 :: bytes cs) = _
      rw [skipBytes?]
      rfl
  plain := by
    intro form c cs outer n unopened inside
    show skipBytes? (form :: outer) n (bytes (c :: cs)) =
      skipBytes? (form :: outer) (n + utf8Len [c]) (bytes cs)
    have hsize : utf8Len [c] = (utf8EncodeChar c).length := by
      rw [String.length_utf8EncodeChar, String.utf8Len_cons, String.utf8Len_nil, Nat.zero_add]
    rw [bytes_cons, hsize]
    rcases utf8EncodeChar_cases c with ⟨hc, hone⟩ | hhigh
    · rw [hone, List.singleton_append, skipBytes?]
      · rfl
      · rintro rfl hbyte
        obtain rfl := eq_of_byte (d := '\x7d') hc (by decide) hbyte
        exact inside ⟨cs, rfl⟩
      · rintro bs rfl hbyte hbytes
        obtain rfl := eq_of_byte (d := '*') hc (by decide) hbyte
        obtain ⟨ds, rfl⟩ := eq_cons_of_bytes (d := ')') (by decide) hbytes
        exact inside ⟨ds, rfl⟩
      · intro hbyte
        obtain rfl := eq_of_byte (d := '\x7b') hc (by decide) hbyte
        exact unopened .brace ⟨cs, rfl⟩
      · rintro bs hbyte hbytes
        obtain rfl := eq_of_byte (d := '(') hc (by decide) hbyte
        obtain ⟨ds, rfl⟩ := eq_cons_of_bytes (d := '*') (by decide) hbytes
        exact unopened .paren ⟨ds, rfl⟩
    · exact skipBytes?_high form outer n hhigh (bytes cs)

/-- The bytes of a comment are those of the characters that the recursive reader takes. -/
theorem skipBytes?_eq_behind? (form : Form) (cs : List Char) :
    skipBytes? [form] 0 (bytes cs) = (behind? form cs).map (utf8Len ·.taken) :=
  stacks_skipBytes?.eq_behind? form cs

end Comment

/-! ## Where tokens stand -/

namespace Position

/-- Where a position of a text is when the text begins at `base`. -/
def placedAt (p base : Position) : Position :=
  ⟨base.line + (p.line - 1), if p.line = 1 then base.column + (p.column - 1) else p.column,
    base.offset + p.offset⟩

theorem start_placedAt (base : Position) : start.placedAt base = base := rfl

/-- Lines and columns are counted from one. -/
def FromOne (p : Position) : Prop := 1 ≤ p.line ∧ 1 ≤ p.column

theorem FromOne.advance {p : Position} (h : p.FromOne) (c : Char) : (p.advance c).FromOne := by
  unfold FromOne Position.advance at *
  split
  · exact ⟨Nat.le_add_left _ _, Nat.le_refl _⟩
  · exact ⟨h.1, Nat.le_add_left _ _⟩

theorem FromOne.advanceBy {p : Position} (h : p.FromOne) (cs : List Char) :
    (p.advanceBy cs).FromOne := by
  induction cs generalizing p with
  | nil => exact h
  | cons c cs ih => exact ih (h.advance c)

theorem placedAt_advance {p : Position} (h : p.FromOne) (base : Position) (c : Char) :
    (p.placedAt base).advance c = (p.advance c).placedAt base := by
  obtain ⟨hline, hcolumn⟩ := h
  unfold advance placedAt
  by_cases hc : c = '\n'
  · have hline' : p.line + 1 ≠ 1 := by omega
    simp only [hc, if_true, if_neg hline', mk.injEq, true_and]
    omega
  · by_cases hfirst : p.line = 1
    · simp only [hc, if_false, if_pos hfirst, mk.injEq, true_and]
      omega
    · simp only [hc, if_false, if_neg hfirst, mk.injEq, true_and]
      omega

theorem placedAt_advanceBy {p : Position} (h : p.FromOne) (base : Position) (cs : List Char) :
    (p.placedAt base).advanceBy cs = (p.advanceBy cs).placedAt base := by
  induction cs generalizing p with
  | nil => rfl
  | cons c cs ih => rw [advanceBy_cons, advanceBy_cons, placedAt_advance h, ih (h.advance c)]

end Position

/-- A token of a text when the text begins at `base`. -/
def Token.placedAt (t : Token) (base : Position) : Token :=
  { t with span := ⟨t.span.start.placedAt base, t.span.stop.placedAt base⟩ }

/-- Where a text begins shows in the places of its tokens alone. -/
theorem tokenizeFrom_placedAt {p : Position} (hp : p.FromOne) (base : Position) (cs : List Char) :
    tokenizeFrom (p.placedAt base) cs = (tokenizeFrom p cs).map (·.placedAt base) := by
  induction p, cs using scan_induction with
  | ended p => rw [tokenizeFrom, tokenizeFrom]; rfl
  | blank p c cs hc ih =>
    rw [tokenizeFrom_blank hc, tokenizeFrom_blank hc, Position.placedAt_advance hp,
      ih (hp.advance c)]
  | comment p c cs n hread ih =>
    rw [tokenizeFrom_comment hread, tokenizeFrom_comment hread, Position.placedAt_advanceBy hp,
      ih (hp.advanceBy _)]
  | token p c cs kind value n hread ih =>
    rw [tokenizeFrom_token hread, tokenizeFrom_token hread, Position.placedAt_advanceBy hp,
      ih (hp.advanceBy _)]
    rfl

/-! ## Comments between tokens -/

namespace Lexeme

theorem read_brace (cs : List Char) :
    read '\x7b' cs =
      match Comment.length? .brace cs with
      | some n => (.comment, n)
      | none => (invalid .unterminatedComment, cs.length) := by
  have hread : read '\x7b' = readSign '\x7b' := by rw [read_eq]; rfl
  rw [hread]
  unfold readSign
  cases hlength : Comment.length? .brace cs with
  | none => simp [opener?, hlength]
  | some n => simp [opener?, hlength]

theorem read_paren (cs : List Char) :
    read '(' ('*' :: cs) =
      match Comment.length? .paren cs with
      | some n => (.comment, n + 1)
      | none => (invalid .unterminatedComment, ('*' :: cs).length) := by
  have hread : read '(' = readSign '(' := by rw [read_eq]; rfl
  rw [hread]
  unfold readSign
  cases hlength : Comment.length? .paren cs with
  | none => simp [opener?, hlength]
  | some n => simp [opener?, hlength, Nat.add_comm 1]

end Lexeme

/-- A comment that is closed leaves what stands behind it. -/
theorem tokenizeFrom_closed {form : Comment.Form} {cs : List Char} {n : Nat}
    (h : Comment.length? form cs = some n) (p : Position) :
    tokenizeFrom p (form.opener ++ cs) =
      tokenizeFrom (p.advanceBy (form.opener ++ cs.take n)) (cs.drop n) := by
  cases form with
  | brace =>
    have hread := Lexeme.read_brace cs
    rw [h] at hread
    exact tokenizeFrom_comment hread p
  | paren =>
    have hread := Lexeme.read_paren cs
    rw [h] at hread
    exact tokenizeFrom_comment hread p

/-- A token for a comment that the text leaves open. -/
def Token.unclosed (p : Position) (cs : List Char) : Token :=
  ⟨.error, String.ofList cs, .error .unterminatedComment, ⟨p, p.advanceBy cs⟩⟩

/-- One that is not takes all of the text. -/
theorem tokenizeFrom_unclosed {form : Comment.Form} {cs : List Char}
    (h : Comment.length? form cs = none) (p : Position) :
    tokenizeFrom p (form.opener ++ cs) =
      [.unclosed p (form.opener ++ cs), .endAt (p.advanceBy (form.opener ++ cs))] := by
  cases form with
  | brace =>
    have hread := Lexeme.read_brace cs
    rw [h] at hread
    show tokenizeFrom p ('\x7b' :: cs) = _
    rw [tokenizeFrom_token hread, List.take_length, List.drop_length, tokenizeFrom.eq_1]
    rfl
  | paren =>
    have hread := Lexeme.read_paren cs
    rw [h] at hread
    show tokenizeFrom p ('(' :: '*' :: cs) = _
    rw [tokenizeFrom_token hread, List.take_length, List.drop_length, tokenizeFrom.eq_1]
    rfl

/-- Comments nest as the recursive reader reads them.  Behind an opener the stack of open forms,
be it over characters or over bytes, stops where the reader stops.  If that is at a closer, the
tokens are those of the text behind it, read on its own and put in their places; and they are
one that says that a comment is not closed, from the opener to the end of the text, just when
the reader comes to the end of the text. -/
theorem tokenizeFrom_opener (form : Comment.Form) (cs : List Char) (p : Position) :
    Comment.length? form cs = (Comment.behind? form cs).map (·.taken.length) ∧
      Comment.skipBytes? [form] 0 (Comment.bytes cs) =
        (Comment.behind? form cs).map (utf8Len ·.taken) ∧
      (∀ s, Comment.behind? form cs = some s →
        tokenizeFrom p (form.opener ++ cs) =
          (tokenize (String.ofList s.rest)).map
            (·.placedAt (p.advanceBy (form.opener ++ s.taken)))) ∧
      (Comment.behind? form cs = none ↔
        tokenizeFrom p (form.opener ++ cs) =
          [.unclosed p (form.opener ++ cs), .endAt (p.advanceBy (form.opener ++ cs))]) := by
  have hlength := Comment.length?_eq_behind? form cs
  have hclosed : ∀ s, Comment.behind? form cs = some s → tokenizeFrom p (form.opener ++ cs) =
      tokenizeFrom (p.advanceBy (form.opener ++ s.taken)) s.rest := by
    intro s hs
    rw [hs, Option.map_some] at hlength
    rw [tokenizeFrom_closed hlength p, s.take_taken, s.drop_taken]
  refine ⟨hlength, Comment.skipBytes?_eq_behind? form cs, ?_, ?_, ?_⟩
  · intro s hs
    have hstart : Position.start.FromOne := ⟨Nat.le_refl _, Nat.le_refl _⟩
    rw [hclosed s hs]
    unfold tokenize
    rw [String.toList_ofList, ← tokenizeFrom_placedAt hstart, Position.start_placedAt]
  · intro hnone
    rw [hnone, Option.map_none] at hlength
    exact tokenizeFrom_unclosed hlength p
  · intro htokens
    cases hs : Comment.behind? form cs with
    | none => rfl
    | some s =>
      -- No token behind the comment begins where the comment does.
      have hafter : p.advanceBy (form.opener ++ s.taken) ≤ p := by
        have horder := (laid_tokenizeFrom (p.advanceBy (form.opener ++ s.taken)) s.rest).inOrder
        rw [← hclosed s hs, htokens] at horder
        exact horder.1
      have hbefore : p < p.advanceBy (form.opener ++ s.taken) :=
        (Position.before_advanceBy p (List.append_ne_nil_of_right_ne_nil _ s.notEmpty)).lt
      exact absurd hafter (not_le_of_gt hbefore)

/-- The openers overlap with closers, a closer of the other form stands in each comment, and a
character takes two bytes. -/
theorem tokenizeFrom_opener_mixed :
    let cs := ") \x7b*)\x7d (*\x7dé*) *)x".toList
    ∃ s, Comment.behind? .paren cs = some s ∧ s.rest = ['x'] ∧
      Comment.skipBytes? [.paren] 0 (Comment.bytes cs) = some 17 ∧
      tokenizeFrom .start (Comment.Form.paren.opener ++ cs) =
        (tokenize "x").map (·.placedAt ⟨1, 19, 19⟩) := by
  intro cs
  obtain ⟨hlength, hbytes, hclosed, -⟩ := tokenizeFrom_opener .paren cs .start
  have hmeasured : Comment.length? .paren cs = some 16 := by decide +kernel
  rw [hmeasured, eq_comm, Option.map_eq_some_iff] at hlength
  obtain ⟨s, hs, htaken⟩ := hlength
  have hrest : s.rest = ['x'] := by
    rw [← s.drop_taken, htaken]
    decide +kernel
  have hfront : s.taken = cs.take 16 := by rw [← s.take_taken, htaken]
  refine ⟨s, hs, hrest, ?_, ?_⟩
  · rw [hbytes, hs, Option.map_some, hfront]
    decide +kernel
  · rw [hclosed s hs, hrest, hfront]
    decide +kernel

end SimFront
