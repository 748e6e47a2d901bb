import SimFront.Proofs.Token.Extent

/-!
# Quoted literals

How a string and a character are written: a string between double quotes with each quote in it
doubled (`stringText`), a character between single quotes, where the single quote itself takes
four (`charText`).  A reader that meets the written form of a string takes all of it and gives
the string back, also when the string begins or ends with quotes, or is made of them
(`stringFrom_written`), and what it takes for a string is a written form (`written_of_stringFrom`).
-/

namespace SimFront

namespace Literal

/-! ## Written forms -/

/-- A character of a string as it stands between the quotes. -/
def escape (c : Char) : List Char := if c = '"' then ['"', '"'] else [c]

/-- The characters of a string as they stand between the quotes. -/
def escaped (cs : List Char) : List Char := cs.flatMap escape

/-- A string as it is written. -/
def stringText (s : String) : String := String.ofList ('"' :: escaped s.toList ++ ['"'])

/-- A character as it is written. -/
def charText (c : Char) : String :=
  if c = quote then String.ofList [quote, quote, quote, quote] else String.ofList [quote, c, quote]

/-- No character ends the line. -/
def Unbroken (cs : List Char) : Prop := ∀ c ∈ cs, ¬ (c = '\n' ∨ c = '\r')

instance (cs : List Char) : Decidable (Unbroken cs) :=
  List.decidableBAll (fun c => ¬ (c = '\n' ∨ c = '\r')) cs

@[simp]
theorem escaped_nil : escaped [] = [] := rfl

theorem escaped_quote (cs : List Char) : escaped ('"' :: cs) = '"' :: '"' :: escaped cs := rfl

theorem escaped_plain {c : Char} (h : c ≠ '"') (cs : List Char) :
    escaped (c :: cs) = c :: escaped cs := by
  unfold escaped
  rw [List.flatMap_cons, escape, if_neg h, List.singleton_append]

/-! ## Strings -/

/-- The written form of a string is read to its end, whatever follows that is not another quote. -/
theorem stringFrom_written (value : List Char) (n : Nat) {cs rest : List Char}
    (hline : Unbroken cs) (hrest : rest.head? ≠ some '"') :
    stringFrom value n (escaped cs ++ '"' :: rest) =
      (some (value.reverse ++ cs), n + (escaped cs).length + 1) := by
  induction cs generalizing value n with
  | nil => rw [escaped_nil, List.nil_append, stringFrom_closed value n hrest, List.append_nil,
      List.length_nil, Nat.add_zero]
  | cons c cs ih =>
    obtain ⟨hc, hcs⟩ := List.forall_mem_cons.1 hline
    by_cases hquote : c = '"'
    · subst hquote
      rw [escaped_quote, List.cons_append, List.cons_append, stringFrom_escaped, ih _ _ hcs,
        List.reverse_cons, List.append_assoc, List.singleton_append, List.length_cons,
        List.length_cons, Prod.mk.injEq]
      exact ⟨rfl, by omega⟩
    · rw [escaped_plain hquote, List.cons_append, stringFrom_plain value n _ hquote, if_neg hc,
        ih _ _ hcs, List.reverse_cons, List.append_assoc, List.singleton_append, List.length_cons,
        Prod.mk.injEq]
      exact ⟨rfl, by omega⟩

/-- What is read as a string is the written form of what was read. -/
theorem written_of_stringFrom (value : List Char) (n : Nat) (cs : List Char) {s : List Char}
    {k : Nat} (h : stringFrom value n cs = (some s, n + k)) :
    ∃ t, s = value.reverse ++ t ∧ cs.take k = escaped t ++ ['"'] ∧ Unbroken t := by
  induction value, n, cs using stringFrom_induction generalizing k with
  | escaped value n cs ih =>
    rw [stringFrom_escaped] at h
    have hle := le_stringFrom ('"' :: value) (n + 2) cs
    rw [h] at hle
    obtain ⟨j, rfl⟩ : ∃ j, k = j + 2 := ⟨k - 2, by omega⟩
    have hsum : n + (j + 2) = n + 2 + j := by omega
    rw [hsum] at h
    obtain ⟨t, hs, htake, hline⟩ := ih h
    have hquote : ¬ ('"' = '\n' ∨ '"' = '\r') := by decide
    refine ⟨'"' :: t, ?_, ?_, List.forall_mem_cons.2 ⟨hquote, hline⟩⟩
    · rw [hs, List.reverse_cons, List.append_assoc, List.singleton_append]
    · rw [List.take_succ_cons, List.take_succ_cons, htake, escaped_quote, List.cons_append,
        List.cons_append]
  | closed value n cs hhead =>
    rw [stringFrom_closed value n hhead, Prod.mk.injEq, Option.some.injEq] at h
    obtain rfl : k = 1 := by omega
    exact ⟨[], by rw [← h.1, List.append_nil], rfl, List.forall_mem_nil _⟩
  | ended value n => cases h
  | broken value n c cs hquote hline =>
    rw [stringFrom_plain value n cs hquote, if_pos hline] at h
    cases h
  | plain value n c cs hquote hline ih =>
    rw [stringFrom_plain value n cs hquote, if_neg hline] at h
    have hle := le_stringFrom (c :: value) (n + 1) cs
    rw [h] at hle
    obtain ⟨j, rfl⟩ : ∃ j, k = j + 1 := ⟨k - 1, by omega⟩
    have hsum : n + (j + 1) = n + 1 + j := by omega
    rw [hsum] at h
    obtain ⟨t, hs, htake, hrest⟩ := ih h
    refine ⟨c :: t, ?_, ?_, List.forall_mem_cons.2 ⟨hline, hrest⟩⟩
    · rw [hs, List.reverse_cons, List.append_assoc, List.singleton_append]
    · rw [List.take_succ_cons, htake, escaped_plain hquote, List.cons_append]

theorem stringTail_written {cs : List Char} (hline : Unbroken cs) :
    stringTail (escaped cs ++ ['"']) = (some cs, (escaped cs ++ ['"']).length) := by
  have hnone : ([] : List Char).head? ≠ some '"' := by decide
  have hread := stringFrom_written [] 0 hline hnone
  rwa [List.reverse_nil, List.nil_append, Nat.zero_add, ← List.length_singleton (a := '"'),
    ← List.length_append] at hread

theorem written_of_stringTail {cs s : List Char} {n : Nat} (h : stringTail cs = (some s, n)) :
    cs.take n = escaped s ++ ['"'] ∧ Unbroken s := by
  have hread : stringFrom [] 0 cs = (some s, 0 + n) := by rwa [Nat.zero_add]
  obtain ⟨t, rfl, htake, hline⟩ := written_of_stringFrom [] 0 cs hread
  exact ⟨htake, hline⟩

/-! ## Characters -/

theorem written_of_charTail {cs : List Char} {c : Char} {n : Nat} (h : charTail cs = (some c, n)) :
    String.ofList (quote :: cs.take n) = charText c := by
  unfold charText
  rcases charTail_cases cs with ⟨rest, rfl⟩ | ⟨d, rest, hquote, hline, rfl⟩ | hnone
  · obtain ⟨rfl, rfl⟩ : quote = c ∧ 3 = n := by simpa [charTail_quote] using h
    rw [if_pos rfl]
    rfl
  · obtain ⟨rfl, rfl⟩ : d = c ∧ 2 = n := by simpa [charTail_plain hquote hline] using h
    rw [if_neg hquote]
    rfl
  · rw [hnone] at h
    cases h

end Literal

/-! ## Tokens -/

namespace Lexeme

open Literal (Unbroken)

theorem nameKind_unquoted (text : List Char) :
    nameKind text ≠ .string ∧ nameKind text ≠ .char := by
  unfold nameKind
  split <;> simp

/-- Only behind a quote of the one or the other sort is a quoted literal read. -/
theorem quoted_of_read {c : Char} {cs : List Char} {kind : TokenKind} {value : TokenValue} {n : Nat}
    (h : read c cs = (.token kind value, n)) (hkind : kind = .string ∨ kind = .char) :
    c = '"' ∧ readString cs = (.token kind value, n) ∨
      c = Literal.quote ∧ readChar cs = (.token kind value, n) := by
  rw [read_eq] at h
  split_ifs at h with hblank hname hdigit hstring hchar
  · cases h
  · have hunquoted := nameKind_unquoted (c :: cs.takeWhile isNameChar)
    cases h
    exact absurd hkind (not_or.2 hunquoted)
  · cases h
    split at hkind <;> simp at hkind
  · exact Or.inl ⟨hstring, h⟩
  · exact Or.inr ⟨hchar, h⟩
  · unfold readSign at h
    split at h
    · split at h
      · cases h
      · cases h
        simp at hkind
    · split at h <;> cases h <;> simp at hkind

theorem string_of_read {c : Char} {cs : List Char} {value : TokenValue} {n : Nat}
    (h : read c cs = (.token .string value, n)) :
    ∃ s, value = .string s ∧ String.ofList (c :: cs.take n) = Literal.stringText s ∧
      Unbroken s.toList := by
  rcases quoted_of_read h (Or.inl rfl) with ⟨rfl, hread⟩ | ⟨rfl, hread⟩
  · unfold readString at hread
    split at hread
    · next s m hs =>
      obtain ⟨htake, hline⟩ := Literal.written_of_stringTail hs
      cases hread
      refine ⟨String.ofList s, rfl, ?_, by rwa [String.toList_ofList]⟩
      rw [Literal.stringText, String.toList_ofList, htake, List.cons_append]
    · cases hread
  · unfold readChar at hread
    split at hread <;> cases hread

theorem char_of_read {c : Char} {cs : List Char} {value : TokenValue} {n : Nat}
    (h : read c cs = (.token .char value, n)) :
    ∃ d, value = .char d ∧ String.ofList (c :: cs.take n) = Literal.charText d := by
  rcases quoted_of_read h (Or.inr rfl) with ⟨rfl, hread⟩ | ⟨rfl, hread⟩
  · unfold readString at hread
    split at hread <;> cases hread
  · unfold readChar at hread
    split at hread
    · next d m hd =>
      cases hread
      exact ⟨d, rfl, Literal.written_of_charTail hd⟩
    · cases hread

theorem read_string_written {cs : List Char} (hline : Unbroken cs) :
    read '"' (Literal.escaped cs ++ ['"']) =
      (.token .string (.string (String.ofList cs)), (Literal.escaped cs ++ ['"']).length) := by
  show readString _ = _
  unfold readString
  rw [Literal.stringTail_written hline]

end Lexeme

/-- A token whose text, if it is a string or a character, is the written form of its value. -/
structure Token.Written (t : Token) : Prop where
  string (kind : t.kind = .string) : ∃ s, t.value = .string s ∧ t.text = Literal.stringText s ∧
    Literal.Unbroken s.toList
  char (kind : t.kind = .char) : ∃ c, t.value = .char c ∧ t.text = Literal.charText c

theorem written_tokenizeFrom (p : Position) (cs : List Char) :
    ∀ t ∈ tokenizeFrom p cs, t.Written := by
  induction p, cs using scan_induction with
  | ended p =>
    intro t ht
    rw [tokenizeFrom, List.mem_singleton] at ht
    subst ht
    constructor
    · intro hkind
      cases hkind
    · intro hkind
      cases hkind
  | blank p c cs hc ih => rwa [tokenizeFrom_blank hc]
  | comment p c cs n hread ih => rwa [tokenizeFrom_comment hread]
  | token p c cs kind value n hread ih =>
    rw [tokenizeFrom_token hread]
    refine List.forall_mem_cons.2 ⟨⟨?_, ?_⟩, ih⟩
    · rintro rfl
      exact Lexeme.string_of_read hread
    · rintro rfl
      exact Lexeme.char_of_read hread

/-- A string without line breaks is read back from its written form, as the only token before the
end.  Conversely, wherever a string or a character stands among the tokens of a text, its text is
the written form of its value, and the string has no line break in it. -/
theorem literals_roundtrip :
    (∀ s : String, Literal.Unbroken s.toList →
      ∃ stop, tokenize (Literal.stringText s) =
        [⟨.string, Literal.stringText s, .string s, ⟨.start, stop⟩⟩, .endAt stop]) ∧
    ∀ text : String, ∀ t ∈ tokenize text, t.Written := by
  constructor
  · intro s hline
    have hread := Lexeme.read_string_written hline
    have htokens := tokenizeFrom_token hread .start
    rw [List.take_length, List.drop_length, tokenizeFrom.eq_1, String.ofList_toList] at htokens
    have htext : tokenize (Literal.stringText s) =
        tokenizeFrom .start ('"' :: (Literal.escaped s.toList ++ ['"'])) := by
      unfold tokenize Literal.stringText
      rw [String.toList_ofList, List.cons_append]
    exact ⟨_, htext.trans htokens⟩
  · intro text
    exact written_tokenizeFrom .start text.toList

/-- A string that begins and ends with quotes, and a text with a quote as a character and as a
string next to literals that are malformed or not closed. -/
theorem literals_roundtrip_quotes :
    let s := "\"\\n\"é\"\""
    let text := "''''x\"\"\"\"'a b''c'\"d"
    Literal.Unbroken s.toList ∧
      (∃ stop, tokenize (Literal.stringText s) =
        [⟨.string, Literal.stringText s, .string s, ⟨.start, stop⟩⟩, .endAt stop]) ∧
      (tokenize text).map (fun t => (t.kind, t.text)) =
        [(.char, "''''"), (.ident, "x"), (.string, "\"\"\"\""), (.error, "'a b'"), (.char, "'c'"),
          (.error, "\"d"), (.eof, "")] ∧
      ∀ t ∈ tokenize text, t.Written := by
  intro s text
  have hline : Literal.Unbroken s.toList := by decide +kernel
  exact ⟨hline, literals_roundtrip.1 s hline, by decide +kernel, literals_roundtrip.2 text⟩

end SimFront
