import SimFront.Types.Accepts

/-!
# Subranges and their bases in assignments

A place of a subrange takes what a place of its base takes, and whole numbers fit wherever
whole numbers do.  A value of a subrange of another ordinal type is not taken for a value of
its base, though: it fits where its very type stands, or a subrange of that
(`accepts_ordinal_iff`).  So a subrange of such a type does not behave as its base where the
base itself would be equal to the other side (`accepts_subrange_iff`).
-/

namespace SimFront.Ty

variable {t b : Ty}

/-! ## Ordinal types -/

/-- Whether the values of a type are counted: whole numbers, characters, truth values,
enumerations and subranges of such. -/
def isOrdinal : Ty → Bool
  | .builtin .integer | .builtin .longInt | .builtin .cardinal => true
  | .builtin .char | .builtin .boolean | .enum _ => true
  | .subrange base => base.isOrdinal
  | _ => false

/-- What is left of a type without the subranges around it. -/
def unranged : Ty → Ty
  | .subrange base => base.unranged
  | t => t

/-- A type is another one, or a subrange that comes down to it. -/
inductive Within (b : Ty) : Ty → Prop
  | self : Within b b
  | subrange {t : Ty} : Within b t → Within b (.subrange t)

/-! ## Equality with an ordinal type -/

/-- An ordinal type is equal to no other. -/
theorem beq_ordinal : ∀ {t b : Ty}, b.isOrdinal → ((t == b) = true ↔ t = b)
  | t, .builtin b, _ => by cases t <;> simp [BEq.beq, same]
  | t, .enum values, _ => by cases t <;> simp [BEq.beq, same]
  | t, .subrange base, hb => by
    cases t with
    | subrange t =>
      have h : (t == base) = true ↔ t = base := beq_ordinal (b := base) hb
      simpa [BEq.beq, same] using h
    | _ => simp [BEq.beq, same]

theorem ordinal_beq : ∀ {t b : Ty}, b.isOrdinal → ((b == t) = true ↔ b = t)
  | t, .builtin b, _ => by cases t <;> simp [BEq.beq, same]
  | t, .enum values, _ => by cases t <;> simp [BEq.beq, same]
  | t, .subrange base, hb => by
    cases t with
    | subrange t =>
      have h : (base == t) = true ↔ base = t := ordinal_beq (b := base) hb
      simpa [BEq.beq, same] using h
    | _ => simp [BEq.beq, same]

/-! ## What fits a place of some type -/

theorem within_subrange_iff {b t : Ty} :
    Within b (.subrange t) ↔ b = .subrange t ∨ Within b t := by
  constructor
  · rintro (_ | h)
    · exact .inl rfl
    · exact .inr h
  · rintro (rfl | h)
    · exact .self
    · exact .subrange h

/-- Every value fits a place of the type, for all that is known of it. -/
def IsOpen (t : Ty) : Prop := t.isUnknown ∨ t.named?.isSome

/-- A place of a subrange takes what a place of its base takes, but for what is no value. -/
theorem subrange_accepts_iff {base source : Ty} : (subrange base).accepts source ↔
    source = .unknown ∨ subrange base == source ∨
      source ≠ .nil ∧ (base.isInteger ∧ source.isInteger ∨ base.accepts source) := by
  rw [accepts.eq_def]
  cases source <;> simp [isUnknown, isReference]

/-- What a place takes of the values of an ordinal type: those of just this type, whole numbers
if it is for numbers, and characters if it is for strings. -/
def Takes (t b : Ty) : Prop :=
  t.unranged.IsOpen ∨ Within b t ∨ b.isInteger ∧ (t.isInteger ∨ t.unranged.isReal) ∨
    b = .char ∧ t.unranged = .string

theorem takes_flat_iff (ht : ∀ base, t ≠ .subrange base) : t.Takes b ↔
    t.IsOpen ∨ b = t ∨ b.isInteger ∧ (t.isInteger ∨ t.isReal) ∨ b = .char ∧ t = .string := by
  have hunranged : t.unranged = t := by
    cases t with
    | subrange base => exact absurd rfl (ht base)
    | _ => rfl
  have hwithin : Within b t ↔ b = t := by
    constructor
    · rintro (_ | h)
      · rfl
      · exact absurd rfl (ht _)
    · rintro rfl
      exact .self
  rw [Takes, hunranged, hwithin]

theorem takes_subrange_iff {base : Ty} :
    (subrange base).Takes b ↔ b = .subrange base ∨ base.Takes b := by
  rw [Takes, Takes, within_subrange_iff, unranged, isInteger]
  grind

theorem flat_accepts_iff (ht : ∀ base, t ≠ .subrange base) (hb : b.isOrdinal) :
    t.accepts b ↔ t.Takes b := by
  have hbeq : (t == b) = true ↔ b = t := (beq_ordinal hb).trans eq_comm
  rw [accepts.eq_def, takes_flat_iff ht]
  cases t with
  | builtin c =>
    cases b with
    | builtin b =>
      cases b <;> cases c <;>
        simp_all [isOrdinal, isInteger, isReal, isNumeric, isUnknown, IsOpen, named?, char, string]
    | _ =>
      cases c <;> simp_all [isOrdinal, isInteger, isReal, isNumeric, isUnknown, IsOpen, named?, char]
  | subrange base => exact absurd rfl (ht base)
  | _ =>
    cases b <;>
      simp_all [isOrdinal, isInteger, isReal, isNumeric, isUnknown, IsOpen, named?, char, string]

/-- Which values of ordinal types fit a place of any type. -/
theorem accepts_ordinal_iff (hb : b.isOrdinal) : ∀ t : Ty, t.accepts b ↔ t.Takes b
  | .subrange base => by
    have hvalue : b ≠ .unknown ∧ b ≠ .nil := by
      constructor <;> rintro rfl <;> cases hb
    have hinteger : base.isInteger ∧ b.isInteger → base.Takes b := fun h =>
      .inr (.inr (.inl ⟨h.2, .inl h.1⟩))
    rw [subrange_accepts_iff, beq_ordinal hb, accepts_ordinal_iff hb base, takes_subrange_iff]
    grind
  | .builtin _ | .named _ _ | .array _ _ | .record _ | .object _ | .pointer _ | .set _ | .enum _
  | .procedure _ | .nil | .void | .unknown => flat_accepts_iff (fun _ => nofun) hb

/-! ## A subrange in place of its base -/

theorem Within.unranged_eq (h : Within b t) : t.unranged = b.unranged := by
  induction h with
  | self => rfl
  | subrange _ ih => exact ih

theorem Within.sizeOf_le (h : Within b t) : sizeOf b ≤ sizeOf t := by
  induction h with
  | self => exact Nat.le_refl _
  | subrange _ ih =>
    rw [subrange.sizeOf_spec]
    omega

theorem within_iff : ∀ {t b : Ty}, Within b t ↔ t = b ∨ Within (.subrange b) t
  | .subrange base, b => by
    rw [within_subrange_iff, within_subrange_iff, subrange.injEq, within_iff (t := base)]
    grind
  | .builtin _, b | .named _ _, b | .array _ _, b | .record _, b | .object _, b | .pointer _, b
  | .set _, b | .enum _, b | .procedure _, b | .nil, b | .void, b | .unknown, b => by
    constructor
    · rintro ⟨⟩
      exact .inl rfl
    · rintro (rfl | h)
      · exact .self
      · cases h

theorem not_isOpen_unranged : ∀ {b : Ty}, b.isOrdinal → ¬ b.unranged.IsOpen
  | .subrange base, hb => not_isOpen_unranged (b := base) hb
  | .builtin _, _ | .enum _, _ => fun h => h.elim nofun nofun

/-- What takes the values of an ordinal type takes those of a subrange of it, unless it is the
type itself, or under its subranges the strings that take a character. -/
theorem takes_iff_subrange : t.Takes b ↔
    t.Takes (.subrange b) ∨ t = b ∨ b = .char ∧ t.unranged = .string := by
  rw [Takes, Takes, within_iff, isInteger]
  simp [char]
  grind

theorem not_takes_subrange (hb : b.isOrdinal) (hint : ¬ b.isInteger)
    (h : t = b ∨ b = .char ∧ t.unranged = .string) : ¬ t.Takes (.subrange b) := by
  rintro (hopen | hwithin | ⟨hinteger, -⟩ | ⟨⟨⟩, -⟩)
  · rcases h with rfl | ⟨-, hstring⟩
    · exact not_isOpen_unranged hb hopen
    · rw [hstring] at hopen
      exact hopen.elim nofun nofun
  · rcases h with rfl | ⟨rfl, hstring⟩
    · have hle := hwithin.sizeOf_le
      rw [subrange.sizeOf_spec] at hle
      omega
    · rw [hwithin.unranged_eq] at hstring
      cases hstring
  · exact hint hinteger

theorem takes_integer (ht : t.isInteger) (hb : b.isInteger) : t.Takes b :=
  .inr (.inr (.inl ⟨hb, .inl ht⟩))

theorem isOrdinal_of_isInteger : ∀ {t : Ty}, t.isInteger → t.isOrdinal
  | .subrange base, h => isOrdinal_of_isInteger (t := base) h
  | .builtin b, h => by cases b <;> first | rfl | cases h

theorem not_ordinal_accepts_nil : ∀ {b : Ty}, b.isOrdinal → ¬ b.accepts .nil
  | .subrange base, hb => by
    rw [subrange_accepts_iff, ordinal_beq hb]
    grind
  | .builtin b, hb => by
    cases b <;> simp_all [accepts.eq_def, BEq.beq, same, isUnknown, isReference, isOrdinal]
  | .enum values, _ => by simp [accepts.eq_def, BEq.beq, same, isUnknown, isReference]

/-- A subrange of whole numbers behaves as its base in assignments.  A subrange of another
ordinal type does not at three points: no value of it fits a place of just its base, nor, if
the base is the characters, a place of strings, and its own values fit its own places but none
of its base. -/
theorem accepts_subrange_iff (t b : Ty) (hb : b.isOrdinal) :
    (t.accepts (.subrange b) = t.accepts b ↔
      b.isInteger ∨ ¬ (t = b ∨ b = .char ∧ t.unranged = .string)) ∧
    ((Ty.subrange b).accepts t = b.accepts t ↔ b.isInteger ∨ t ≠ .subrange b) := by
  have hvalue (t : Ty) : t.accepts (.subrange b) ↔ t.Takes (.subrange b) :=
    accepts_ordinal_iff (b := .subrange b) hb t
  constructor
  · rw [Bool.eq_iff_iff, hvalue, accepts_ordinal_iff hb, takes_iff_subrange (b := b)]
    have hdiffer := not_takes_subrange (t := t) hb
    have hsame : b.isInteger → t = b ∨ b = .char ∧ t.unranged = .string →
        t.Takes (.subrange b) := by
      rintro hint (rfl | ⟨rfl, -⟩)
      · exact takes_integer hint hint
      · cases hint
    grind
  · have hown : b.accepts (.subrange b) ↔ b.isInteger := by
      rw [hvalue]
      refine ⟨fun h => Decidable.byContradiction fun hint => ?_, fun h => takes_integer h h⟩
      exact not_takes_subrange hb hint (.inl rfl) h
    have hintegers (hint : b.isInteger) (ht : t.isInteger) : b.accepts t :=
      (accepts_ordinal_iff (isOrdinal_of_isInteger ht) b).2 (takes_integer hint ht)
    have hnil := not_ordinal_accepts_nil hb
    have hunknown := accepts_unknown b
    rw [Bool.eq_iff_iff, subrange_accepts_iff, ordinal_beq (b := .subrange b) hb]
    grind

theorem accepts_subrange_iff_char : Ty.char.isOrdinal ∧
    ¬ (Ty.char.accepts (.subrange .char) = Ty.char.accepts .char) ∧
    (Ty.subrange .char).accepts .integer = Ty.char.accepts .integer :=
  have hchar : Ty.char.isOrdinal := rfl
  ⟨hchar, fun h => ((accepts_subrange_iff .char .char hchar).1.1 h).elim nofun fun h => h (.inl rfl),
    (accepts_subrange_iff .integer .char hchar).2.2 (.inr nofun)⟩

end SimFront.Ty
