import SimFront.Proofs.Text.LineIndex
import SimFront.Proofs.Token.Nesting

/-!
# Positions by counting

What a position says of an offset can be counted off the text without any index: the line is
one more than the line feeds among the bytes before the offset, and the column one more than
the characters after the last of them (`LineIndex.counted`).  The line index answers the same
at every character boundary, and past the end, where an offset stands for the end
(`LineIndex.position_counts`).  A later boundary has more of the text before it, and so a
later position.
-/

namespace SimFront.LineIndex

open String (utf8Len utf8EncodeChar)
open Comment (bytes bytes_cons utf8EncodeChar_cases eq_of_byte)

/-! ## Counting -/

/-- The characters that lie in the first `n` bytes. -/
def charsBefore : Nat → List Char → List Char
  | _, [] => []
  | n, c :: cs => if c.utf8Size ≤ n then c :: charsBefore (n - c.utf8Size) cs else []

/-- The position of a byte offset, counted off the text. -/
def counted (text : String) (offset : Nat) : Position :=
  let offset := min offset text.utf8ByteSize
  { line := 1 + (text.toByteArray.data.toList.take offset).count 0x0a
    column := 1 + (lineText (charsBefore offset text.toList)).length
    offset }

theorem charsBefore_append (cs ds : List Char) : charsBefore (utf8Len cs) (cs ++ ds) = cs := by
  induction cs with
  | nil =>
    cases ds with
    | nil => rfl
    | cons d ds => exact if_neg (Nat.not_le.2 d.utf8Size_pos)
  | cons c cs ih =>
    rw [List.cons_append, charsBefore, String.utf8Len_cons, if_pos (Nat.le_add_left _ _),
      Nat.add_sub_cancel, ih]

/-! ## Bytes -/

theorem length_bytes (cs : List Char) : (bytes cs).length = utf8Len cs := by
  induction cs with
  | nil => rfl
  | cons c cs ih =>
    rw [bytes_cons, List.length_append, String.length_utf8EncodeChar, ih, String.utf8Len_cons,
      Nat.add_comm]

theorem bytes_append (cs ds : List Char) : bytes (cs ++ ds) = bytes cs ++ bytes ds :=
  List.flatMap_append

/-- A line feed is one byte, which is found in no other character. -/
theorem count_utf8EncodeChar (c : Char) :
    (utf8EncodeChar c).count 0x0a = if c = '\n' then 1 else 0 := by
  obtain ⟨hc, hone⟩ | hhigh := utf8EncodeChar_cases c
  · rw [hone]
    split
    · next h => rw [h]; rfl
    · next h =>
      refine List.count_eq_zero.2 fun hmem => h ?_
      exact eq_of_byte hc (d := '\n') (by decide) (List.mem_singleton.1 hmem).symm
  · have hne : c ≠ '\n' := by
      rintro rfl
      exact absurd (hhigh 0x0a (by decide)) (by decide)
    rw [if_neg hne]
    exact List.count_eq_zero.2 fun hmem => absurd (hhigh _ hmem) (by decide)

theorem count_bytes (cs : List Char) : (bytes cs).count 0x0a = cs.count '\n' := by
  induction cs with
  | nil => rfl
  | cons c cs ih =>
    rw [bytes_cons, List.count_append, count_utf8EncodeChar, ih, List.count_cons, Nat.add_comm]
    simp

theorem toList_toByteArray (text : String) : text.toByteArray.data.toList = bytes text.toList := by
  rw [← String.ofList_toList (s := text), String.toByteArray_ofList, String.toList_ofList,
    List.utf8Encode, List.toList_data_toByteArray, bytes]

/-! ## Character boundaries -/

variable {text : String}

theorem isValid_iff {offset : Nat} : (String.Pos.Raw.mk offset).IsValid text ↔
    ∃ before after, text.toList = before ++ after ∧ offset = utf8Len before := by
  rw [String.Pos.Raw.isValid_iff_exists_append]
  constructor
  · rintro ⟨before, after, rfl, hoffset⟩
    refine ⟨before.toList, after.toList, String.toList_append, ?_⟩
    rw [String.utf8Len_toList]
    exact congrArg String.Pos.Raw.byteIdx hoffset
  · rintro ⟨before, after, happend, rfl⟩
    refine ⟨.ofList before, .ofList after, ?_, ?_⟩
    · rw [← String.ofList_append, ← happend, String.ofList_toList]
    · rw [String.Pos.Raw.ext_iff, String.byteIdx_rawEndPos, ← String.utf8Len_toList,
        String.toList_ofList]

section

variable {before after : List Char}

theorem utf8Len_le (h : text.toList = before ++ after) : utf8Len before ≤ text.utf8ByteSize := by
  rw [← String.utf8Len_toList, h, String.utf8Len_append]
  exact Nat.le_add_right _ _

/-- At a character boundary the bytes before the offset are those of the characters before it. -/
theorem counted_eq (h : text.toList = before ++ after) :
    counted text (utf8Len before) = Position.start.advanceBy before := by
  have htake : (bytes (before ++ after)).take (utf8Len before) = bytes before := by
    rw [bytes_append, ← length_bytes, List.take_left]
  rw [counted, toList_toByteArray, Nat.min_eq_left (utf8Len_le h), h, charsBefore_append, htake,
    count_bytes, advanceBy_start, Nat.add_comm 1, Nat.add_comm 1]

theorem position_boundary (h : text.toList = before ++ after) :
    (ofString text).position text (utf8Len before) = counted text (utf8Len before) :=
  (position_ofString h).trans (counted_eq h).symm

end

/-! ## Past the end -/

theorem position_past {offset : Nat} (h : text.utf8ByteSize ≤ offset) :
    (ofString text).position text offset = counted text offset := by
  have hend := position_boundary (List.append_nil text.toList).symm
  rw [String.utf8Len_toList] at hend
  have hmin : min offset text.utf8ByteSize = text.utf8ByteSize := Nat.min_eq_right h
  have hposition : (ofString text).position text offset =
      (ofString text).position text text.utf8ByteSize := by
    simp only [position, ofString, hmin, Nat.min_self]
  rw [hposition, hend, counted, counted, hmin, Nat.min_self]

/-! ## Every offset -/

/-- Of two boundaries the later one has the earlier one's characters before it, and more. -/
theorem position_lt {before after before' after' : List Char}
    (h : text.toList = before ++ after) (h' : text.toList = before' ++ after')
    (hlt : utf8Len before < utf8Len before') :
    (ofString text).position text (utf8Len before) <
      (ofString text).position text (utf8Len before') := by
  obtain ⟨run, hrun⟩ : before <+: before' := by
    refine (List.prefix_or_prefix_of_prefix ⟨after, h.symm⟩ ⟨after', h'.symm⟩).resolve_right ?_
    exact fun hprefix => absurd (String.utf8Len_le_of_prefix hprefix) (Nat.not_le.2 hlt)
  have hne : run ≠ [] := by
    rintro rfl
    rw [List.append_nil] at hrun
    exact absurd (congrArg utf8Len hrun) (Nat.ne_of_lt hlt)
  rw [position_ofString h, position_ofString h', ← hrun, Position.advanceBy_append]
  exact (Position.before_advanceBy _ hne).lt

/-- The line index gives the position that is counted off the text, at every character boundary
and past the end, and a later boundary has a later position. -/
theorem position_counts (text : String) :
    (∀ offset, (String.Pos.Raw.mk offset).IsValid text ∨ text.utf8ByteSize < offset →
      (ofString text).position text offset = counted text offset) ∧
    ∀ o o', (String.Pos.Raw.mk o).IsValid text → (String.Pos.Raw.mk o').IsValid text → o < o' →
      (ofString text).position text o < (ofString text).position text o' := by
  constructor
  · rintro offset (hvalid | hpast)
    · obtain ⟨before, after, happend, rfl⟩ := isValid_iff.1 hvalid
      exact position_boundary happend
    · exact position_past (Nat.le_of_lt hpast)
  · intro o o' ho ho' hlt
    obtain ⟨before, after, happend, rfl⟩ := isValid_iff.1 ho
    obtain ⟨before', after', happend', rfl⟩ := isValid_iff.1 ho'
    exact position_lt happend happend' hlt

/-- In a text with a character of two bytes before the line feed, behind the line feed and far
past the end. -/
theorem position_counts_accented : (String.Pos.Raw.mk 2).IsValid "é\nx" ∧
    (String.Pos.Raw.mk 3).IsValid "é\nx" ∧ "é\nx".utf8ByteSize < 9 ∧
    (ofString "é\nx").position "é\nx" 3 = ⟨2, 1, 3⟩ ∧
    (ofString "é\nx").position "é\nx" 9 = ⟨2, 2, 4⟩ ∧
    (ofString "é\nx").position "é\nx" 2 < (ofString "é\nx").position "é\nx" 3 := by
  have hbefore : (String.Pos.Raw.mk 2).IsValid "é\nx" := isValid_iff.2 ⟨['é'], ['\n', 'x'], rfl, rfl⟩
  have hbehind : (String.Pos.Raw.mk 3).IsValid "é\nx" := isValid_iff.2 ⟨['é', '\n'], ['x'], rfl, rfl⟩
  have hpast : "é\nx".utf8ByteSize < 9 := by decide
  obtain ⟨hcounts, hlater⟩ := position_counts "é\nx"
  exact ⟨hbefore, hbehind, hpast, (hcounts 3 (.inl hbehind)).trans (by decide +kernel),
    (hcounts 9 (.inr hpast)).trans (by decide +kernel), hlater 2 3 hbefore hbehind (by decide)⟩

end SimFront.LineIndex
