import Mathlib.Data.List.Induction
import SimFront.Proofs.Text.Position
import SimFront.Text.LineIndex

/-!
# What the line index answers

At an offset that has a character boundary the line index gives the position that one
comes to by going along the text character by character (`position_ofString`): the
recorded starts up to the offset are those of the lines that were begun there, and the
column counts the characters of the last of them.
-/

namespace SimFront.LineIndex

open String (utf8Len)

/-! ## Starts of lines -/

theorem startsFrom_append (off : Nat) (cs ds : List Char) :
    startsFrom off (cs ++ ds) = startsFrom off cs ++ startsFrom (off + utf8Len cs) ds := by
  induction cs generalizing off with
  | nil => rfl
  | cons c cs ih =>
    have hlen : off + c.utf8Size + utf8Len cs = off + utf8Len (c :: cs) := by
      rw [String.utf8Len_cons]
      omega
    simp only [List.cons_append, startsFrom, ih, hlen]
    split <;> rfl

theorem lt_of_mem_startsFrom {off n : Nat} {cs : List Char} (h : n ∈ startsFrom off cs) :
    off < n ∧ n ≤ off + utf8Len cs := by
  induction cs generalizing off with
  | nil => cases h
  | cons c cs ih =>
    have hc := c.utf8Size_pos
    rw [String.utf8Len_cons]
    unfold startsFrom at h
    split at h
    · rcases List.mem_cons.1 h with rfl | h
      · omega
      · have := ih h
        omega
    · have := ih h
      omega

theorem length_startsFrom (off : Nat) (cs : List Char) :
    (startsFrom off cs).length = cs.count '\n' := by
  induction cs generalizing off with
  | nil => rfl
  | cons c cs ih =>
    unfold startsFrom
    rw [List.count_cons]
    split
    · next h => simp [ih, h]
    · next h => simp [ih, h]

/-- Where the current line begins after some characters. -/
def lineStart (cs : List Char) : Nat := ((startsFrom 0 cs).getLast?).getD 0

/-- The characters of the current line after some characters. -/
def lineText (cs : List Char) : List Char := (cs.reverse.takeWhile (· ≠ '\n')).reverse

/-- The lines before the current one. -/
def linesBefore (cs : List Char) : List Char := (cs.reverse.dropWhile (· ≠ '\n')).reverse

theorem linesBefore_append_lineText (cs : List Char) : linesBefore cs ++ lineText cs = cs := by
  unfold linesBefore lineText
  rw [← List.reverse_append, List.takeWhile_append_dropWhile, List.reverse_reverse]

theorem utf8Len_linesBefore (cs : List Char) : utf8Len (linesBefore cs) = lineStart cs := by
  induction cs using List.reverseRecOn with
  | nil => rfl
  | append_singleton cs c ih =>
    unfold lineStart linesBefore at *
    rw [List.reverse_append, startsFrom_append]
    by_cases h : c = '\n'
    · subst h
      simp [startsFrom, String.utf8Len_append]
    · simpa [startsFrom, h] using ih

/-! ## Searching among the starts -/

/-- The search finds the last start that does not exceed the offset. -/
theorem lastStart_eq {starts : Array Nat} {offset line : Nat} (lo hi : Nat)
    (hle : ∀ j, j ≤ line → starts.getD j 0 ≤ offset)
    (hgt : ∀ j, line < j → j ≤ hi → offset < starts.getD j 0)
    (hlo : lo ≤ line) (hhi : line ≤ hi) : lastStart starts offset lo hi = line := by
  induction lo, hi using lastStart.induct starts offset with
  | case1 lo hi hlt mid hmid ih =>
    have : mid ≤ line := by
      by_contra hn
      have := hgt mid (by omega) (by omega)
      omega
    unfold lastStart
    rw [if_pos hlt]
    show (if starts.getD mid 0 ≤ offset then _ else _) = line
    rw [if_pos hmid]
    exact ih hgt this hhi
  | case2 lo hi hlt mid hmid ih =>
    have : line < mid := by
      by_contra hn
      exact hmid (hle mid (by omega))
    unfold lastStart
    rw [if_pos hlt]
    show (if starts.getD mid 0 ≤ offset then _ else _) = line
    rw [if_neg hmid]
    exact ih (fun j hj hj' => hgt j hj (by omega)) hlo (by omega)
  | case3 lo hi hlt =>
    unfold lastStart
    rw [if_neg hlt]
    omega

/-! ## Counting characters -/

theorem dropBytes?_append (cs ds : List Char) : dropBytes? (utf8Len cs) (cs ++ ds) = some ds := by
  induction cs with
  | nil => cases ds <;> rfl
  | cons c cs ih =>
    have hc := c.utf8Size_pos
    rw [String.utf8Len_cons, List.cons_append]
    obtain ⟨n, hn⟩ : ∃ n, utf8Len cs + c.utf8Size = n + 1 := ⟨_, (Nat.succ_pred_eq_of_pos (by omega)).symm⟩
    rw [hn, dropBytes?, if_pos (by omega)]
    rwa [show n + 1 - c.utf8Size = utf8Len cs by omega]

theorem charsIn?_append (cs ds : List Char) :
    charsIn? (utf8Len cs) (cs ++ ds) = some cs.length := by
  induction cs with
  | nil => cases ds <;> rfl
  | cons c cs ih =>
    have hc := c.utf8Size_pos
    rw [String.utf8Len_cons, List.cons_append]
    obtain ⟨n, hn⟩ : ∃ n, utf8Len cs + c.utf8Size = n + 1 := ⟨_, (Nat.succ_pred_eq_of_pos (by omega)).symm⟩
    rw [hn, charsIn?, if_pos (by omega), show n + 1 - c.utf8Size = utf8Len cs by omega, ih]
    rfl

theorem charsBetween?_append (cs ds es : List Char) :
    charsBetween? (cs ++ ds ++ es) (utf8Len cs) (utf8Len (cs ++ ds)) = some ds.length := by
  unfold charsBetween?
  rw [List.append_assoc, dropBytes?_append, Option.bind_some, String.utf8Len_append,
    Nat.add_sub_cancel_left, charsIn?_append]

/-! ## Positions -/

theorem advanceBy_start (cs : List Char) :
    Position.start.advanceBy cs = ⟨cs.count '\n' + 1, (lineText cs).length + 1, utf8Len cs⟩ := by
  have hcolumn : (Position.start.advanceBy cs).column = (lineText cs).length + 1 := by
    induction cs using List.reverseRecOn with
    | nil => rfl
    | append_singleton cs c ih =>
      rw [Position.advanceBy_append]
      unfold lineText at *
      rw [List.reverse_append]
      by_cases h : c = '\n'
      · simp [Position.advance, h]
      · simp [Position.advance, h, ih]
  refine Position.ext ?_ hcolumn ?_
  · rw [Position.advanceBy_line]
    exact Nat.add_comm _ _
  · rw [Position.advanceBy_offset]
    exact Nat.zero_add _

section Boundary

variable {text : String} {before after : List Char}

/-- The starts of lines up to a character boundary, and those behind it. -/
theorem starts_ofString (h : text.toList = before ++ after) :
    (ofString text).starts =
      ((0 :: startsFrom 0 before) ++ startsFrom (utf8Len before) after).toArray := by
  unfold ofString
  rw [h, startsFrom_append, Nat.zero_add, List.cons_append]

theorem getD_starts (h : text.toList = before ++ after) (line : Nat) :
    (ofString text).starts.getD line 0 =
      if line ≤ before.count '\n' then (0 :: startsFrom 0 before)[line]?.getD 0
      else (startsFrom (utf8Len before) after)[line - (before.count '\n' + 1)]?.getD 0 := by
  have hcount : (0 :: startsFrom 0 before).length = before.count '\n' + 1 := by
    rw [List.length_cons, length_startsFrom]
  rw [starts_ofString h, Array.getD_eq_getD_getElem?, List.getElem?_toArray]
  split
  · rw [List.getElem?_append_left (by omega)]
  · rw [List.getElem?_append_right (by omega), hcount]

theorem start_le (h : text.toList = before ++ after) {line : Nat}
    (hline : line ≤ before.count '\n') :
    (ofString text).starts.getD line 0 ≤ utf8Len before := by
  rw [getD_starts h, if_pos hline]
  cases hn : (0 :: startsFrom 0 before)[line]? with
  | none => exact Nat.zero_le _
  | some n =>
    rcases List.mem_cons.1 (List.mem_of_getElem? hn) with rfl | hmem
    · exact Nat.zero_le _
    · have := (lt_of_mem_startsFrom hmem).2
      rw [Option.getD_some]
      omega

theorem lt_start (h : text.toList = before ++ after) {line : Nat}
    (hline : before.count '\n' < line) (hlast : line ≤ (ofString text).starts.size - 1) :
    utf8Len before < (ofString text).starts.getD line 0 := by
  rw [starts_ofString h, List.size_toArray, List.length_append, List.length_cons,
    length_startsFrom] at hlast
  rw [getD_starts h, if_neg (by omega)]
  obtain ⟨n, hn⟩ : ∃ n, (startsFrom (utf8Len before) after)[line - (before.count '\n' + 1)]? =
      some n := ⟨_, List.getElem?_eq_getElem (by omega)⟩
  rw [hn, Option.getD_some]
  exact (lt_of_mem_startsFrom (List.mem_of_getElem? hn)).1

/-- The search comes to the line that the boundary is on. -/
theorem lastStart_ofString (h : text.toList = before ++ after) :
    lastStart (ofString text).starts (utf8Len before) 0 ((ofString text).starts.size - 1) =
      before.count '\n' := by
  refine lastStart_eq _ _ (fun _ => start_le h) (fun _ => lt_start h) (Nat.zero_le _) ?_
  rw [starts_ofString h, List.size_toArray, List.length_append, List.length_cons,
    length_startsFrom]
  omega

theorem start_ofString (h : text.toList = before ++ after) :
    (ofString text).starts.getD (before.count '\n') 0 = utf8Len (linesBefore before) := by
  rw [getD_starts h, if_pos le_rfl, utf8Len_linesBefore, ← length_startsFrom 0 before]
  unfold lineStart
  cases startsFrom 0 before with
  | nil => rfl
  | cons n ns =>
    rw [List.length_cons, List.getElem?_cons_succ, List.getLast?_eq_getElem?, List.length_cons,
      Nat.add_sub_cancel]

/-- At a character boundary the line index gives the position that one comes to by going along
the text. -/
theorem position_ofString (h : text.toList = before ++ after) :
    (ofString text).position text (utf8Len before) = Position.start.advanceBy before := by
  have hcolumn : charsBetween? text.toList (utf8Len (linesBefore before)) (utf8Len before) =
      some (lineText before).length := by
    have := charsBetween?_append (linesBefore before) (lineText before) after
    rwa [linesBefore_append_lineText, ← h] at this
  have hmin : min (utf8Len before) (ofString text).length = utf8Len before := by
    have hsize : text.utf8ByteSize = utf8Len before + utf8Len after := by
      rw [← String.utf8Len_toList, h, String.utf8Len_append]
    show min _ text.utf8ByteSize = _
    omega
  unfold position
  simp only [hmin, lastStart_ofString h, start_ofString h, hcolumn, Option.getD_some,
    advanceBy_start]

end Boundary

end SimFront.LineIndex
