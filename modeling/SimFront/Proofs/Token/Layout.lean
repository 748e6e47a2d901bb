import SimFront.Proofs.Token.Extent

/-!
# Tokens and the layout of a text

A blank between two texts keeps their tokens apart (`tokenizeFrom_append`): those of the second
are the same with the first before them as without it, only further down.  For a text without
errors the blank can be a space (`tokenize_spaced`).  A line feed does it for every text whose
comments are closed (`tokenize_lines`), so that whatever cannot be read at the end of a line
changes nothing below it.
-/

namespace SimFront

/-! ## Texts with a blank between them -/

/-- The tokens of two texts with a blank between them, before which all tokens of the first end. -/
theorem tokenizeFrom_append {d : Char} (hd : Lexeme.isBlank d) (p : Position) (cs ds : List Char)
    (h : ∀ t ∈ tokenizeFrom p cs, (Lexeme.token t.kind t.value).EndsBefore d) :
    tokenizeFrom p (cs ++ d :: ds) =
      (tokenizeFrom p cs).dropLast ++ tokenizeFrom ((p.advanceBy cs).advance d) ds := by
  induction p, cs using scan_induction with
  | ended p =>
    rw [List.nil_append, tokenizeFrom_blank hd, tokenizeFrom.eq_1]
    rfl
  | blank p c cs hc ih =>
    rw [tokenizeFrom_blank hc] at h ⊢
    rw [List.cons_append, tokenizeFrom_blank hc, ih h]
    rfl
  | comment p c cs n hread ih =>
    have hle := (Lexeme.read_selfContained c).le cs
    have hstill := (Lexeme.read_selfContained c).append hd cs (by rw [hread]; trivial) ds
    rw [hread] at hle hstill
    rw [tokenizeFrom_comment hread] at h ⊢
    rw [List.cons_append, tokenizeFrom_comment hstill, List.take_append_of_le_length hle,
      List.drop_append_of_le_length hle, ih h, ← Position.advanceBy_append, List.cons_append,
      List.take_append_drop]
  | token p c cs kind value n hread ih =>
    rw [tokenizeFrom_token hread] at h ⊢
    obtain ⟨hends, hrest⟩ := List.forall_mem_cons.1 h
    have hle := (Lexeme.read_selfContained c).le cs
    have hstill := (Lexeme.read_selfContained c).append hd cs (by rw [hread]; exact hends) ds
    rw [hread] at hle hstill
    rw [List.cons_append, tokenizeFrom_token hstill, List.take_append_of_le_length hle,
      List.drop_append_of_le_length hle, ih hrest,
      List.dropLast_cons_of_ne_nil (tokenizeFrom_ne_nil _ _), List.cons_append,
      ← Position.advanceBy_append, List.cons_append, List.take_append_drop]

/-! ## Tokens with single spaces between them -/

/-- What a token says, wherever it stands. -/
def Token.content (t : Token) : TokenKind × String × TokenValue := (t.kind, t.text, t.value)

/-- The texts of some tokens with single spaces between them. -/
def spaced (tokens : List Token) : String := " ".intercalate (tokens.map (·.text))

theorem toList_spaced_cons {ts : List Token} (h : ts ≠ []) (t : Token) :
    (spaced (t :: ts)).toList = t.text.toList ++ ' ' :: (spaced ts).toList := by
  unfold spaced
  rw [List.map_cons, String.intercalate_cons_of_ne_nil (by simpa using h)]
  simp

theorem toList_spaced_concat {ts : List Token} (h : ts ≠ []) {last : Token}
    (hlast : last.text = "") :
    (spaced (ts ++ [last])).toList = (spaced ts).toList ++ [' '] := by
  unfold spaced
  rw [List.map_append, List.map_cons, List.map_nil, hlast,
    String.intercalate_append_of_ne_nil (by simpa using h) (by simp)]
  simp

/-- A token alone is read as it was in its text. -/
theorem tokenizeFrom_alone {c : Char} {cs : List Char} {kind : TokenKind} {value : TokenValue}
    {n : Nat} (h : Lexeme.read c cs = (.token kind value, n)) (hkind : kind ≠ .error)
    (q : Position) :
    let stop := q.advanceBy (c :: cs.take n)
    tokenizeFrom q (c :: cs.take n) =
      [⟨kind, String.ofList (c :: cs.take n), value, ⟨q, stop⟩⟩, .endAt stop] := by
  intro stop
  have halone : Lexeme.read c (cs.take n) = (.token kind value, n) :=
    (Lexeme.read_selfContained c).take h hkind
  rw [tokenizeFrom_token halone, List.take_take, Nat.min_self, List.drop_take_self,
    tokenizeFrom.eq_1]

/-- The tokens of a text without errors, with single spaces between them, are read again. -/
theorem content_spaced (p q : Position) (cs : List Char)
    (h : ∀ t ∈ tokenizeFrom p cs, t.kind ≠ .error) :
    (tokenizeFrom q (spaced (tokenizeFrom p cs).dropLast).toList).map Token.content =
      (tokenizeFrom p cs).map Token.content := by
  induction p, cs using scan_induction generalizing q with
  | ended p =>
    rw [tokenizeFrom.eq_1]
    show (tokenizeFrom q []).map Token.content = _
    rw [tokenizeFrom.eq_1]
    rfl
  | blank p c cs hc ih =>
    rw [tokenizeFrom_blank hc] at h ⊢
    exact ih q h
  | comment p c cs n hread ih =>
    rw [tokenizeFrom_comment hread] at h ⊢
    exact ih q h
  | token p c cs kind value n hread ih =>
    rw [tokenizeFrom_token hread] at h ⊢
    obtain ⟨hkind, hrest⟩ := List.forall_mem_cons.1 h
    have halone (r : Position) := tokenizeFrom_alone hread hkind r
    obtain ⟨ts, hts, -⟩ := (laid_tokenizeFrom (p.advanceBy (c :: cs.take n)) (cs.drop n)).closed
    rw [hts] at ih ⊢
    rw [List.dropLast_concat] at ih
    rw [← List.cons_append, List.dropLast_concat, List.cons_append, List.map_cons]
    by_cases hnil : ts = []
    · subst hnil
      show (tokenizeFrom q (String.ofList (c :: cs.take n)).toList).map Token.content = _
      rw [String.toList_ofList, halone]
      rfl
    · have hsame := ih ((q.advanceBy (c :: cs.take n)).advance ' ') (hts ▸ hrest)
      have hends : ∀ t ∈ tokenizeFrom q (c :: cs.take n),
          (Lexeme.token t.kind t.value).EndsBefore ' ' := by
        have hend : TokenKind.eof ≠ .error := by decide
        rw [halone]
        exact List.forall_mem_cons.2 ⟨Or.inl hkind, List.forall_mem_singleton.2 (Or.inl hend)⟩
      rw [toList_spaced_cons hnil, String.toList_ofList,
        tokenizeFrom_append (rfl : Lexeme.isBlank ' ') _ _ _ hends, List.map_append, hsame, halone]
      rfl

/-- A space at the end of a text adds no token. -/
theorem content_concat_space (q : Position) (cs : List Char)
    (h : ∀ t ∈ tokenizeFrom q cs, t.kind ≠ .error) :
    (tokenizeFrom q (cs ++ [' '])).map Token.content = (tokenizeFrom q cs).map Token.content := by
  obtain ⟨ts, hts, -⟩ := (laid_tokenizeFrom q cs).closed
  rw [tokenizeFrom_append (rfl : Lexeme.isBlank ' ') q cs [] fun t ht => Or.inl (h t ht), hts,
    List.dropLast_concat, tokenizeFrom.eq_1, List.map_append, List.map_append]
  rfl

/-- If every character of a text can be read, then what its tokens say does not depend on how they
are laid out: with single spaces between them they are read as the same tokens again, whether or
not a space comes before the last of them, which stands for the end. -/
theorem tokenize_spaced (text : String) (h : ∀ t ∈ tokenize text, t.kind ≠ .error) :
    (tokenize (spaced (tokenize text))).map Token.content = (tokenize text).map Token.content ∧
      (tokenize (spaced (tokenize text).dropLast)).map Token.content =
        (tokenize text).map Token.content := by
  have hwords : (tokenize (spaced (tokenize text).dropLast)).map Token.content =
      (tokenize text).map Token.content := content_spaced .start .start text.toList h
  refine ⟨?_, hwords⟩
  obtain ⟨ts, hts, -⟩ := (laid_tokenize text).closed
  rw [hts, List.dropLast_concat] at hwords
  rw [hts] at h ⊢
  by_cases hnil : ts = []
  · subst hnil
    exact hwords
  · have hread : ∀ t ∈ tokenize (spaced ts), t.kind ≠ .error := by
      intro t ht
      have hmem : t.content ∈ (tokenize (spaced ts)).map Token.content := List.mem_map_of_mem ht
      rw [hwords] at hmem
      obtain ⟨u, hu, hcontent⟩ := List.mem_map.1 hmem
      have hkind : u.kind = t.kind := congrArg Prod.fst hcontent
      rw [← hkind]
      exact h u hu
    have hspace := content_concat_space .start (spaced ts).toList hread
    rw [← toList_spaced_concat hnil (rfl : (Token.endAt _).text = "")] at hspace
    exact hspace.trans hwords

/-- Marks, a number, a character and a string with doubled quotes, and comments. -/
theorem tokenize_spaced_dense :
    let text := "x:=1.5e+2(*c*)'''';s:=\"a\"\"b\"<>y\x7bz\x7d"
    (∀ t ∈ tokenize text, t.kind ≠ .error) ∧
      spaced (tokenize text) = "x := 1.5e+2 '''' ; s := \"a\"\"b\" <> y " ∧
      (tokenize (spaced (tokenize text))).map Token.content = (tokenize text).map Token.content ∧
      (tokenize (spaced (tokenize text).dropLast)).map Token.content =
        (tokenize text).map Token.content := by
  intro text
  have hread : ∀ t ∈ tokenize text, t.kind ≠ .error := by decide +kernel
  have hspaced : spaced (tokenize text) = "x := 1.5e+2 '''' ; s := \"a\"\"b\" <> y " := by
    decide +kernel
  exact ⟨hread, hspaced, tokenize_spaced text hread⟩

/-! ## Further down -/

namespace Position

/-- A position of a text when it stands so many lines and bytes further down. -/
def below (p : Position) (lines bytes : Nat) : Position :=
  ⟨p.line + lines, p.column, p.offset + bytes⟩

theorem below_advance (p : Position) (lines bytes : Nat) (c : Char) :
    (p.below lines bytes).advance c = (p.advance c).below lines bytes := by
  unfold advance below
  by_cases hc : c = '\n'
  · simp only [hc, if_true, mk.injEq, true_and]
    omega
  · simp only [hc, if_false, mk.injEq, true_and]
    omega

theorem below_advanceBy (p : Position) (lines bytes : Nat) (cs : List Char) :
    (p.below lines bytes).advanceBy cs = (p.advanceBy cs).below lines bytes := by
  induction cs generalizing p with
  | nil => rfl
  | cons c cs ih => rw [advanceBy_cons, advanceBy_cons, below_advance, ih]

/-- The first position of a line of its own below a text. -/
theorem below_start (text : String) :
    (Position.start.advanceBy text.toList).advance '\n' =
      Position.start.below (text.toList.count '\n' + 1) (text.utf8ByteSize + 1) := by
  rw [LineIndex.advanceBy_start, String.utf8Len_toList]
  simp only [advance, below, start, if_true, mk.injEq, true_and]
  constructor
  · omega
  · rw [Nat.zero_add]
    rfl

end Position

/-- A span of a text when it stands so many lines and bytes further down. -/
def Span.below (s : Span) (lines bytes : Nat) : Span :=
  ⟨s.start.below lines bytes, s.stop.below lines bytes⟩

/-- A token of a text when it stands so many lines and bytes further down. -/
def Token.below (t : Token) (lines bytes : Nat) : Token :=
  { t with span := t.span.below lines bytes }

/-- Where a text stands shows in the places of its tokens alone. -/
theorem tokenizeFrom_below (p : Position) (lines bytes : Nat) (cs : List Char) :
    tokenizeFrom (p.below lines bytes) cs = (tokenizeFrom p cs).map (·.below lines bytes) := by
  induction p, cs using scan_induction with
  | ended p => rw [tokenizeFrom, tokenizeFrom]; rfl
  | blank p c cs hc ih =>
    rw [tokenizeFrom_blank hc, tokenizeFrom_blank hc, Position.below_advance, ih]
  | comment p c cs n hread ih =>
    rw [tokenizeFrom_comment hread, tokenizeFrom_comment hread, Position.below_advanceBy, ih]
  | token p c cs kind value n hread ih =>
    rw [tokenizeFrom_token hread, tokenizeFrom_token hread, Position.below_advanceBy, ih]
    rfl

/-! ## Two texts on top of each other -/

/-- If the tokens of a text say of no comment that it is never closed, then those of the text with
another one below it are its own without the last, which stands for its end, and then those of
the other one, as many lines and bytes further down as the text and the line feed take. -/
theorem tokenize_lines (above text : String)
    (closed : ∀ t ∈ tokenize above, t.value ≠ .error .unterminatedComment) :
    ∃ ts last, tokenize above = ts ++ [last] ∧ last.kind = .eof ∧
      tokenize (above ++ "\n" ++ text) = ts ++ (tokenize text).map
        (·.below (above.toList.count '\n' + 1) (above.utf8ByteSize + 1)) := by
  obtain ⟨ts, hts, -⟩ := (laid_tokenize above).closed
  refine ⟨ts, _, hts, rfl, ?_⟩
  have hchars : (above ++ "\n" ++ text).toList = above.toList ++ '\n' :: text.toList := by simp
  have hlines := tokenizeFrom_append (rfl : Lexeme.isBlank '\n') .start above.toList text.toList
    fun t ht => Or.inr ⟨rfl, closed t ht⟩
  have hbelow := tokenizeFrom_below .start (above.toList.count '\n' + 1) (above.utf8ByteSize + 1)
    text.toList
  unfold tokenize at hts ⊢
  rw [hchars, hlines, hts, List.dropLast_concat, Position.below_start, hbelow]

/-- A character and a string that are not closed, above a text that begins with a quote. -/
theorem tokenize_lines_unclosed :
    let above := "c := 'b; s := \"a"
    let text := "'c' \"d\""
    (∀ t ∈ tokenize above, t.value ≠ .error .unterminatedComment) ∧
      (∃ t ∈ tokenize above, t.value = .error .malformedCharacter) ∧
      (∃ t ∈ tokenize above, t.value = .error .unterminatedString) ∧
      ∃ ts last, tokenize above = ts ++ [last] ∧ last.kind = .eof ∧
        tokenize (above ++ "\n" ++ text) = ts ++ (tokenize text).map (·.below 1 17) := by
  intro above text
  have closed : ∀ t ∈ tokenize above, t.value ≠ .error .unterminatedComment := by decide +kernel
  obtain ⟨ts, last, habove, hend, htokens⟩ := tokenize_lines above text closed
  have hlines : above.toList.count '\n' + 1 = 1 := by decide +kernel
  have hbytes : above.utf8ByteSize + 1 = 17 := by decide +kernel
  rw [hlines, hbytes] at htokens
  exact ⟨closed, by decide +kernel, by decide +kernel, ts, last, habove, hend, htokens⟩

end SimFront
