import Mathlib.Data.String.Basic
import Mathlib.Order.Basic
import SimFront.Text.Position

/-!
# Going along a text

The order of positions is a linear one.  A run of characters leads to a later
position: the offset grows by the bytes of the run, and unless the run is empty the
line or the column grows too (`Before`), which is all that `Span.contains` looks at.
-/

namespace SimFront

namespace Position

variable {p q r : Position}

/-! ## Order -/

theorem lt_def : p < q ↔ p.line < q.line ∨ (p.line = q.line ∧
    (p.column < q.column ∨ (p.column = q.column ∧ p.offset < q.offset))) := Iff.rfl

theorem le_def : p ≤ q ↔ p < q ∨ p = q := Iff.rfl

@[ext] theorem ext (hl : p.line = q.line) (hc : p.column = q.column)
    (ho : p.offset = q.offset) : p = q := by
  cases p
  cases q
  simp_all

instance : PartialOrder Position where
  le_refl p := Or.inr rfl
  le_trans p q r hpq hqr := by
    rcases hpq with hpq | rfl
    · rcases hqr with hqr | rfl
      · refine Or.inl ?_
        rw [lt_def] at *
        omega
      · exact Or.inl hpq
    · exact hqr
  lt_iff_le_not_ge p q := by
    constructor
    · intro h
      refine ⟨Or.inl h, ?_⟩
      rintro (h' | rfl)
      · rw [lt_def] at *
        omega
      · rw [lt_def] at h
        omega
    · rintro ⟨h | rfl, hn⟩
      · exact h
      · exact absurd (Or.inr rfl) hn
  le_antisymm p q hpq hqp := by
    rcases hpq with hpq | rfl
    · rcases hqp with hqp | rfl
      · rw [lt_def] at *
        omega
      · rfl
    · rfl

theorem later_of_ge (h : q ≤ p) : p.later q = p := by
  unfold later
  split
  · next h' => exact le_antisymm h h'
  · rfl

/-! ## Lines and columns -/

/-- An earlier line, or an earlier column of the same line. -/
def Before (p q : Position) : Prop :=
  p.line < q.line ∨ p.line = q.line ∧ p.column < q.column

theorem Before.lt (h : Before p q) : p < q := by
  rw [lt_def]
  unfold Before at h
  omega

theorem Before.trans_le (h : Before p q) (h' : q ≤ r) : Before p r := by
  rcases h' with h' | rfl
  · rw [lt_def] at h'
    unfold Before at *
    omega
  · exact h

theorem Before.of_le (h : p ≤ q) (h' : Before q r) : Before p r := by
  rcases h with h | rfl
  · rw [lt_def] at h
    unfold Before at *
    omega
  · exact h'

theorem before_advance (p : Position) (c : Char) : Before p (p.advance c) := by
  unfold Before advance
  split
  · exact Or.inl (Nat.lt_succ_self _)
  · exact Or.inr ⟨rfl, Nat.lt_succ_self _⟩

/-- Among these positions no two share their line and column. -/
def Apart (M : Position → Prop) : Prop :=
  ∀ a b : Position, M a → M b → a.line = b.line → a.column = b.column → a = b

/-! ## Runs of characters -/

theorem le_advanceBy (p : Position) (cs : List Char) : p ≤ p.advanceBy cs := by
  induction cs generalizing p with
  | nil => exact le_refl p
  | cons c cs ih => exact le_trans (le_of_lt (before_advance p c).lt) (ih _)

theorem before_advanceBy (p : Position) {cs : List Char} (h : cs ≠ []) :
    Before p (p.advanceBy cs) := by
  cases cs with
  | nil => exact absurd rfl h
  | cons c cs => exact (before_advance p c).trans_le (le_advanceBy _ cs)

theorem advanceBy_offset (p : Position) (cs : List Char) :
    (p.advanceBy cs).offset = p.offset + String.utf8Len cs := by
  induction cs generalizing p with
  | nil => rfl
  | cons c cs ih =>
    rw [advanceBy_cons, ih, advance_offset, String.utf8Len_cons]
    omega

theorem advanceBy_line (p : Position) (cs : List Char) :
    (p.advanceBy cs).line = p.line + cs.count '\n' := by
  induction cs generalizing p with
  | nil => rfl
  | cons c cs ih =>
    rw [advanceBy_cons, ih, List.count_cons]
    unfold advance
    by_cases h : c = '\n'
    · simp only [h, if_true, beq_self_eq_true]
      omega
    · simp [h]

end Position

/-! ## Spans within spans -/

namespace Span

variable {a b c : Span}

theorem containsSpan_iff : a.containsSpan b ↔ a.start ≤ b.start ∧ b.stop ≤ a.stop := by
  unfold containsSpan
  rw [Bool.and_eq_true, decide_eq_true_eq, decide_eq_true_eq]

theorem containsSpan_refl (a : Span) : a.containsSpan a :=
  containsSpan_iff.2 ⟨le_refl _, le_refl _⟩

theorem containsSpan_trans (h : a.containsSpan b) (h' : b.containsSpan c) : a.containsSpan c := by
  rw [containsSpan_iff] at *
  exact ⟨le_trans h.1 h'.1, le_trans h'.2 h.2⟩

/-- Among positions that lines and columns tell apart, a span has those from its start to its
end, the end included. -/
theorem contains_iff {M : Position → Prop} (hM : Position.Apart M) {s : Span} {p : Position}
    (hstart : M s.start) (hstop : M s.stop) (hp : M p) :
    s.contains p ↔ s.start ≤ p ∧ p ≤ s.stop := by
  have hle {a b : Position} (ha : M a) (hb : M b) :
      a ≤ b ↔ a.line < b.line ∨ a.line = b.line ∧ a.column ≤ b.column := by
    rw [Position.le_def, Position.lt_def]
    constructor
    · rintro (h | rfl) <;> omega
    · intro h
      by_cases hsame : a.line = b.line ∧ a.column = b.column
      · exact .inr (hM a b ha hb hsame.1 hsame.2)
      · exact .inl (by omega)
  rw [hle hstart hp, hle hp hstop]
  unfold contains
  simp only [Bool.and_eq_true, Bool.not_eq_true', Bool.or_eq_false_iff, decide_eq_false_iff_not,
    Bool.and_eq_false_iff, beq_eq_false_iff_ne]
  omega

end Span

end SimFront
