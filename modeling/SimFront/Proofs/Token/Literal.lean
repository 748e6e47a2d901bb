import SimFront.Token.Scan

/-!
# How far the literals reach

A reader of a literal takes no more than there is (`_le`), sees no further than a blank
(`_append`), and finds the same when nothing is there beyond what it takes (`_take`).  Only
a string or a character that is not closed needs a line feed instead of a blank to be held
up, since a space would become a part of it.
-/

namespace SimFront

namespace Lexeme

/-! ## Blanks -/

theorem isNameChar_of_isBlank {d : Char} (h : isBlank d) : isNameChar d = false := by
  unfold isBlank at h
  simp only [Bool.or_eq_true, decide_eq_true_eq] at h
  rcases h with (((rfl | rfl) | rfl) | rfl) | rfl <;> decide

theorem isDigit_of_isBlank {d : Char} (h : isBlank d) : d.isDigit = false := by
  have hname : isNameChar d = false := isNameChar_of_isBlank h
  unfold isNameChar Char.isAlphanum at hname
  simp only [Bool.or_eq_false_iff] at hname
  exact hname.1.2

theorem ne_of_isBlank {c d : Char} (h : isBlank d) (hc : isBlank c = false) : d ≠ c := by
  rintro rfl
  rw [h] at hc
  cases hc

end Lexeme

theorem takeWhile_append_stop {p : Char → Bool} {d : Char} (hd : p d = false) (cs ds : List Char) :
    (cs ++ d :: ds).takeWhile p = cs.takeWhile p := by
  induction cs with
  | nil => simp [hd]
  | cons c cs ih => simp only [List.cons_append, List.takeWhile_cons, ih]

namespace Literal

open Lexeme (isBlank)

/-! ## Digits -/

theorem digits_le (cs : List Char) : digits cs ≤ cs.length :=
  (List.takeWhile_prefix Char.isDigit).length_le

theorem digits_append {d : Char} (hd : isBlank d) (cs ds : List Char) :
    digits (cs ++ d :: ds) = digits cs := by
  unfold digits
  rw [takeWhile_append_stop (Lexeme.isDigit_of_isBlank hd)]

theorem digits_take (m : Nat) (cs : List Char) : digits (cs.take m) = min m (digits cs) := by
  unfold digits
  induction cs generalizing m with
  | nil => simp
  | cons c cs ih =>
    cases m with
    | zero => simp
    | succ m =>
      rw [List.take_succ_cons, List.takeWhile_cons, List.takeWhile_cons]
      by_cases hc : c.isDigit
      · have := ih m
        simp only [hc, if_true, List.length_cons]
        omega
      · simp [hc]

/-! ## Fractions -/

theorem fraction_le (cs : List Char) : fraction cs ≤ cs.length := by
  unfold fraction
  split
  · next cs =>
    have := digits_le cs
    split
    · simp
    · simpa using this
  · simp

theorem fraction_append {d : Char} (hd : isBlank d) (cs ds : List Char) :
    fraction (cs ++ d :: ds) = fraction cs := by
  cases cs with
  | nil =>
    have hdot : d ≠ '.' := Lexeme.ne_of_isBlank hd rfl
    simp [fraction, hdot]
  | cons c cs =>
    by_cases hc : c = '.'
    · subst hc
      simp only [List.cons_append, fraction, digits_append hd]
    · simp [fraction, hc]

theorem fraction_take {m : Nat} {cs : List Char} (h : fraction cs ≤ m) :
    fraction (cs.take m) = fraction cs := by
  cases cs with
  | nil => simp
  | cons c cs =>
    by_cases hc : c = '.'
    · subst hc
      cases m with
      | zero =>
        have hnone : fraction ('.' :: cs) = 0 := by omega
        rw [hnone]
        rfl
      | succ m =>
        simp only [fraction, List.take_succ_cons, digits_take] at h ⊢
        by_cases hzero : digits cs = 0
        · simp [hzero]
        · rw [if_neg hzero] at h ⊢
          have hmin : min m (digits cs) = digits cs := by omega
          rw [hmin, if_neg hzero]
    · cases m with
      | zero => simp [fraction, hc]
      | succ m => simp [fraction, hc]

/-! ## Exponents -/

theorem sign_le (cs : List Char) : sign cs ≤ cs.length := by
  unfold sign
  split <;> simp

/-- Whether there is a sign shows in the first character. -/
theorem sign_cons (c : Char) (cs ds : List Char) : sign (c :: cs) = sign (c :: ds) := by
  by_cases hplus : c = '+'
  · subst hplus
    rfl
  · by_cases hminus : c = '-'
    · subst hminus
      rfl
    · simp [sign, hplus, hminus]

theorem sign_append {d : Char} (hd : isBlank d) (cs ds : List Char) :
    sign (cs ++ d :: ds) = sign cs := by
  cases cs with
  | nil =>
    have hplus : d ≠ '+' := Lexeme.ne_of_isBlank hd rfl
    have hminus : d ≠ '-' := Lexeme.ne_of_isBlank hd rfl
    simp [sign, hplus, hminus]
  | cons c cs => exact sign_cons c _ _

theorem sign_take {m : Nat} (hm : 0 < m) (cs : List Char) : sign (cs.take m) = sign cs := by
  cases cs with
  | nil => simp
  | cons c cs =>
    obtain ⟨k, rfl⟩ : ∃ k, m = k + 1 := ⟨m - 1, by omega⟩
    exact sign_cons c _ _

/-- What is left of the digits of an exponent when a text is cut off. -/
theorem power_take (m : Nat) (cs : List Char) :
    digits ((cs.take m).drop (sign (cs.take m))) = min (m - sign cs) (digits (cs.drop (sign cs))) := by
  cases m with
  | zero => simp [digits]
  | succ m => rw [sign_take (Nat.succ_pos m), List.drop_take, digits_take]

theorem exponent_le (cs : List Char) : exponent cs ≤ cs.length := by
  cases cs with
  | nil => exact Nat.le_refl 0
  | cons c cs =>
    have hsign : sign cs ≤ cs.length := sign_le cs
    have hpower : digits (cs.drop (sign cs)) ≤ (cs.drop (sign cs)).length := digits_le _
    rw [List.length_drop] at hpower
    simp only [exponent, List.length_cons]
    split
    · split <;> omega
    · omega

theorem exponent_append {d : Char} (hd : isBlank d) (cs ds : List Char) :
    exponent (cs ++ d :: ds) = exponent cs := by
  cases cs with
  | nil =>
    have hlower : d ≠ 'e' := Lexeme.ne_of_isBlank hd rfl
    have hupper : d ≠ 'E' := Lexeme.ne_of_isBlank hd rfl
    simp [exponent, hlower, hupper]
  | cons c cs =>
    have hpower : digits ((cs ++ d :: ds).drop (sign cs)) = digits (cs.drop (sign cs)) := by
      rw [List.drop_append_of_le_length (sign_le cs), digits_append hd]
    simp only [List.cons_append, exponent, sign_append hd, hpower]

theorem exponent_take {m : Nat} {cs : List Char} (h : exponent cs ≤ m) :
    exponent (cs.take m) = exponent cs := by
  cases cs with
  | nil => simp
  | cons c cs =>
    cases m with
    | zero =>
      have hnone : exponent (c :: cs) = 0 := by omega
      rw [hnone]
      rfl
    | succ m =>
      have hpower := power_take m cs
      simp only [exponent, List.take_succ_cons] at h ⊢
      by_cases hc : c = 'e' ∨ c = 'E'
      · rw [if_pos hc] at h ⊢
        rw [if_pos hc]
        by_cases hzero : digits (cs.drop (sign cs)) = 0
        · rw [hpower, hzero, Nat.min_zero, if_pos rfl, if_pos rfl]
        · rw [if_neg hzero] at h ⊢
          have hmin : min (m - sign cs) (digits (cs.drop (sign cs))) = digits (cs.drop (sign cs)) := by
            omega
          have hsign : sign (cs.take m) = sign cs := sign_take (by omega) cs
          rw [hpower, hmin, hsign, if_neg hzero]
      · rw [if_neg hc, if_neg hc]

/-! ## Numbers -/

theorem numberTail_le (cs : List Char) : (numberTail cs).2 ≤ cs.length := by
  have hwhole : digits cs ≤ cs.length := digits_le cs
  have hpoint := fraction_le (cs.drop (digits cs))
  have hpower := exponent_le (cs.drop (digits cs + fraction (cs.drop (digits cs))))
  rw [List.length_drop] at hpoint hpower
  show digits cs + fraction (cs.drop (digits cs)) + _ ≤ cs.length
  omega

theorem numberTail_append {d : Char} (hd : isBlank d) (cs ds : List Char) :
    numberTail (cs ++ d :: ds) = numberTail cs := by
  have hwhole : digits cs ≤ cs.length := digits_le cs
  have hpoint := fraction_le (cs.drop (digits cs))
  rw [List.length_drop] at hpoint
  have hfraction : fraction ((cs ++ d :: ds).drop (digits cs)) = fraction (cs.drop (digits cs)) := by
    rw [List.drop_append_of_le_length hwhole, fraction_append hd]
  have hexponent : ∀ n ≤ cs.length, exponent ((cs ++ d :: ds).drop n) = exponent (cs.drop n) := by
    intro n hn
    rw [List.drop_append_of_le_length hn, exponent_append hd]
  dsimp only [numberTail]
  rw [digits_append hd, hfraction, hexponent _ (by omega)]

theorem numberTail_take (cs : List Char) :
    numberTail (cs.take (numberTail cs).2) = numberTail cs := by
  let whole := digits cs
  let point := fraction (cs.drop whole)
  let power := exponent (cs.drop (whole + point))
  show numberTail (cs.take (whole + point + power)) = numberTail cs
  have hwhole : digits (cs.take (whole + point + power)) = whole := by
    rw [digits_take]
    omega
  have hpoint : fraction ((cs.take (whole + point + power)).drop whole) = point := by
    rw [List.drop_take]
    exact fraction_take (by omega)
  have hpower : exponent ((cs.take (whole + point + power)).drop (whole + point)) = power := by
    rw [List.drop_take]
    exact exponent_take (by omega)
  dsimp only [numberTail]
  rw [hwhole, hpoint, hpower]

/-! ## Strings -/

theorem stringFrom_escaped (value : List Char) (n : Nat) (cs : List Char) :
    stringFrom value n ('"' :: '"' :: cs) = stringFrom ('"' :: value) (n + 2) cs := rfl

theorem stringFrom_closed (value : List Char) (n : Nat) {cs : List Char}
    (h : cs.head? ≠ some '"') : stringFrom value n ('"' :: cs) = (some value.reverse, n + 1) := by
  rw [stringFrom]
  rintro ds rfl
  exact h rfl

theorem stringFrom_plain (value : List Char) (n : Nat) {c : Char} (cs : List Char) (h : c ≠ '"') :
    stringFrom value n (c :: cs) =
      if c = '\n' ∨ c = '\r' then (none, n) else stringFrom (c :: value) (n + 1) cs := by
  rw [stringFrom]
  · exact fun _ hc _ => h hc
  · exact h

/-- The steps of reading a string, one for each way in which its next characters can be taken. -/
theorem stringFrom_induction {P : List Char → Nat → List Char → Prop}
    (escaped : ∀ value n cs, P ('"' :: value) (n + 2) cs → P value n ('"' :: '"' :: cs))
    (closed : ∀ value n cs, cs.head? ≠ some '"' → P value n ('"' :: cs))
    (ended : ∀ value n, P value n [])
    (broken : ∀ value n c cs, c ≠ '"' → c = '\n' ∨ c = '\r' → P value n (c :: cs))
    (plain : ∀ value n c cs, c ≠ '"' → ¬ (c = '\n' ∨ c = '\r') → P (c :: value) (n + 1) cs →
      P value n (c :: cs)) (value : List Char) (n : Nat) (cs : List Char) : P value n cs := by
  induction value, n, cs using stringFrom.induct with
  | case1 value n cs ih => exact escaped value n cs ih
  | case2 value n cs hquote =>
    refine closed value n cs fun hhead => ?_
    obtain ⟨ds, rfl⟩ := List.head?_eq_some_iff.1 hhead
    exact hquote ds rfl
  | case3 value n => exact ended value n
  | case4 value n c cs _ hquote hline => exact broken value n c cs hquote hline
  | case5 value n c cs _ hquote hline ih => exact plain value n c cs hquote hline ih

theorem stringFrom_le (value : List Char) (n : Nat) (cs : List Char) :
    (stringFrom value n cs).2 ≤ n + cs.length := by
  induction value, n, cs using stringFrom_induction with
  | escaped value n cs ih =>
    rw [stringFrom_escaped, List.length_cons, List.length_cons]
    omega
  | closed value n cs hhead =>
    rw [stringFrom_closed value n hhead, List.length_cons]
    omega
  | ended value n => exact Nat.le_refl n
  | broken value n c cs hquote hline =>
    rw [stringFrom_plain value n cs hquote, if_pos hline]
    omega
  | plain value n c cs hquote hline ih =>
    rw [stringFrom_plain value n cs hquote, if_neg hline, List.length_cons]
    omega

theorem le_stringFrom (value : List Char) (n : Nat) (cs : List Char) :
    n ≤ (stringFrom value n cs).2 := by
  induction value, n, cs using stringFrom_induction with
  | escaped value n cs ih =>
    rw [stringFrom_escaped]
    omega
  | closed value n cs hhead =>
    rw [stringFrom_closed value n hhead]
    exact Nat.le_succ n
  | ended value n => exact Nat.le_refl n
  | broken value n c cs hquote hline =>
    have hstop : (stringFrom value n (c :: cs)).2 = n := by
      rw [stringFrom_plain value n cs hquote, if_pos hline]
    exact Nat.le_of_eq hstop.symm
  | plain value n c cs hquote hline ih =>
    rw [stringFrom_plain value n cs hquote, if_neg hline]
    omega

/-- A string that is closed ends before a blank, and a line feed ends every string. -/
theorem stringFrom_append {d : Char} (hd : isBlank d) (ds value : List Char) (n : Nat)
    (cs : List Char) (h : d = '\n' ∨ (stringFrom value n cs).1.isSome) :
    stringFrom value n (cs ++ d :: ds) = stringFrom value n cs := by
  have hquote : d ≠ '"' := Lexeme.ne_of_isBlank hd rfl
  induction value, n, cs using stringFrom_induction with
  | escaped value n cs ih => exact ih h
  | closed value n cs hhead =>
    have hstill : (cs ++ d :: ds).head? ≠ some '"' := by
      cases cs with
      | nil => simpa using hquote
      | cons c cs => exact hhead
    rw [List.cons_append, stringFrom_closed value n hhead, stringFrom_closed value n hstill]
  | ended value n =>
    rcases h with rfl | hsome
    · rfl
    · cases hsome
  | broken value n c cs hc hline =>
    rw [List.cons_append, stringFrom_plain value n _ hc, stringFrom_plain value n _ hc,
      if_pos hline, if_pos hline]
  | plain value n c cs hc hline ih =>
    rw [stringFrom_plain value n cs hc, if_neg hline] at h ⊢
    rw [List.cons_append, stringFrom_plain value n _ hc, if_neg hline]
    exact ih h

theorem stringFrom_take {s : List Char} (value : List Char) (n : Nat) (cs : List Char) {k : Nat}
    (h : stringFrom value n cs = (some s, n + k)) :
    stringFrom value n (cs.take k) = (some s, n + k) := by
  induction value, n, cs using stringFrom_induction generalizing k with
  | escaped value n cs ih =>
    rw [stringFrom_escaped] at h
    have hle := le_stringFrom ('"' :: value) (n + 2) cs
    rw [h] at hle
    obtain ⟨j, rfl⟩ : ∃ j, k = j + 2 := ⟨k - 2, by omega⟩
    have hsum : n + (j + 2) = n + 2 + j := by omega
    rw [hsum] at h ⊢
    exact ih h
  | closed value n cs hhead =>
    rw [stringFrom_closed value n hhead, Prod.mk.injEq] at h
    obtain rfl : k = 1 := by omega
    rw [List.take_succ_cons, List.take_zero, stringFrom_closed value n (by simp), h.1]
  | ended value n => cases h
  | broken value n c cs hc hline =>
    rw [stringFrom_plain value n cs hc, if_pos hline] at h
    cases h
  | plain value n c cs hc hline ih =>
    rw [stringFrom_plain value n cs hc, if_neg hline] at h
    have hle := le_stringFrom (c :: value) (n + 1) cs
    rw [h] at hle
    obtain ⟨j, rfl⟩ : ∃ j, k = j + 1 := ⟨k - 1, by omega⟩
    have hsum : n + (j + 1) = n + 1 + j := by omega
    rw [List.take_succ_cons, stringFrom_plain value n _ hc, if_neg hline]
    rw [hsum] at h ⊢
    exact ih h

theorem stringTail_le (cs : List Char) : (stringTail cs).2 ≤ cs.length := by
  have h := stringFrom_le [] 0 cs
  rwa [Nat.zero_add] at h

theorem stringTail_append {d : Char} (hd : isBlank d) {cs : List Char} (ds : List Char)
    (h : d = '\n' ∨ (stringTail cs).1.isSome) : stringTail (cs ++ d :: ds) = stringTail cs :=
  stringFrom_append hd ds [] 0 cs h

theorem stringTail_take {s : List Char} {cs : List Char} {n : Nat}
    (h : stringTail cs = (some s, n)) : stringTail (cs.take n) = (some s, n) := by
  have h : stringFrom [] 0 cs = (some s, 0 + n) := by rwa [Nat.zero_add]
  have htake := stringFrom_take [] 0 cs h
  rwa [Nat.zero_add] at htake

/-! ## Characters -/

/-- What a malformed quoted run is made of. -/
def inRun (c : Char) : Bool := c != '\n' && c != '\r' && c != quote

/-- How long the quoted run at the head of a text is, without the quote that ends it. -/
def runLength (cs : List Char) : Nat := (cs.takeWhile inRun).length

theorem runLength_le (cs : List Char) : runLength cs ≤ cs.length :=
  (List.takeWhile_prefix inRun).length_le

theorem malformedChar_eq (cs : List Char) :
    malformedChar cs =
      if (cs.drop (runLength cs)).head? = some quote then runLength cs + 1 else 0 := by
  have hrun : (cs.takeWhile fun c => c != '\n' && c != '\r' && c != quote).length = runLength cs :=
    rfl
  unfold malformedChar
  dsimp only
  rw [hrun]
  cases cs.drop (runLength cs) with
  | nil => rfl
  | cons c rest => simp

theorem malformedChar_le (cs : List Char) : malformedChar cs ≤ cs.length := by
  rw [malformedChar_eq]
  split
  · next hquote =>
    obtain ⟨rest, hrest⟩ := List.head?_eq_some_iff.1 hquote
    have hlength := congrArg List.length hrest
    rw [List.length_drop, List.length_cons] at hlength
    omega
  · exact Nat.zero_le _

theorem malformedChar_append (cs ds : List Char) :
    malformedChar (cs ++ '\n' :: ds) = malformedChar cs := by
  have hrun : runLength (cs ++ '\n' :: ds) = runLength cs := by
    unfold runLength
    rw [takeWhile_append_stop (by decide)]
  rw [malformedChar_eq, malformedChar_eq, hrun, List.drop_append_of_le_length (runLength_le cs)]
  cases cs.drop (runLength cs) with
  | nil => rfl
  | cons c rest => rfl

theorem charTail_quote (ds : List Char) :
    charTail (quote :: quote :: quote :: ds) = (some quote, 3) := rfl

theorem charTail_plain {c : Char} (hquote : c ≠ quote) (hline : c ≠ '\n') (ds : List Char) :
    charTail (c :: quote :: ds) = (some c, 2) := by
  unfold charTail
  split
  · next hcs => exact absurd (List.cons.inj hcs).1 hquote
  · next hcs =>
    obtain ⟨rfl, -⟩ := List.cons.inj hcs
    rw [if_neg (not_or.2 ⟨hquote, hline⟩)]
  · next hother => exact absurd rfl (hother c ds)

/-- The three ways of reading a character: the quote itself, another character, or none. -/
theorem charTail_cases (cs : List Char) :
    (∃ ds, cs = quote :: quote :: quote :: ds) ∨
      (∃ c ds, c ≠ quote ∧ c ≠ '\n' ∧ cs = c :: quote :: ds) ∨
      charTail cs = (none, malformedChar cs) := by
  unfold charTail
  split
  · next ds => exact Or.inl ⟨ds, rfl⟩
  · next c ds _ =>
    split
    · exact Or.inr (Or.inr rfl)
    · next hc =>
      rw [not_or] at hc
      exact Or.inr (Or.inl ⟨c, ds, hc.1, hc.2, rfl⟩)
  · exact Or.inr (Or.inr rfl)

theorem charTail_le (cs : List Char) : (charTail cs).2 ≤ cs.length := by
  rcases charTail_cases cs with ⟨ds, rfl⟩ | ⟨c, ds, hquote, hline, rfl⟩ | hnone
  · rw [charTail_quote]
    simp
  · rw [charTail_plain hquote hline]
    simp
  · rw [hnone]
    exact malformedChar_le cs

/-- A character that is closed ends where it ends, and a line feed ends every run of quotes. -/
theorem charTail_append {d : Char} {cs : List Char} (ds : List Char)
    (h : d = '\n' ∨ (charTail cs).1.isSome) : charTail (cs ++ d :: ds) = charTail cs := by
  rcases charTail_cases cs with ⟨rest, rfl⟩ | ⟨c, rest, hquote, hline, rfl⟩ | hnone
  · rfl
  · rw [List.cons_append, List.cons_append, charTail_plain hquote hline,
      charTail_plain hquote hline]
  · have hd : d = '\n' := by
      rcases h with hd | hsome
      · exact hd
      · rw [hnone] at hsome
        cases hsome
    subst hd
    -- what stands before the line feed is no character, so what stands around it is none
    have hstill : charTail (cs ++ '\n' :: ds) = (none, malformedChar (cs ++ '\n' :: ds)) := by
      rcases charTail_cases (cs ++ '\n' :: ds) with ⟨rest, hrest⟩ | ⟨c, rest, hquote, hline, hrest⟩ | h
      · match cs, hrest with
        | a :: b :: c :: cs, hrest =>
          simp only [List.cons_append, List.cons.injEq] at hrest
          obtain ⟨rfl, rfl, rfl, -⟩ := hrest
          cases hnone
      · match cs, hrest with
        | [], hrest => exact absurd (List.cons.inj hrest).1.symm hline
        | a :: b :: cs, hrest =>
          simp only [List.cons_append, List.cons.injEq] at hrest
          obtain ⟨rfl, rfl, -⟩ := hrest
          rw [charTail_plain hquote hline] at hnone
          cases hnone
      · exact h
    rw [hstill, hnone, malformedChar_append]

theorem charTail_take {v : Char} {cs : List Char} {n : Nat} (h : charTail cs = (some v, n)) :
    charTail (cs.take n) = (some v, n) := by
  rcases charTail_cases cs with ⟨rest, rfl⟩ | ⟨c, rest, hquote, hline, rfl⟩ | hnone
  · obtain ⟨rfl, rfl⟩ : quote = v ∧ 3 = n := by simpa [charTail_quote] using h
    rfl
  · obtain ⟨rfl, rfl⟩ : c = v ∧ 2 = n := by simpa [charTail_plain hquote hline] using h
    exact charTail_plain hquote hline []
  · rw [hnone] at h
    cases h

end Literal

end SimFront
