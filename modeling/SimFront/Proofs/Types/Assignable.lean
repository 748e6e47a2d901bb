import Mathlib.Data.List.Forall2
import SimFront.Proofs.Types.Parts
import SimFront.Proofs.Types.Subranges

/-!
# Assignments compose

Types that `Ty.same` takes for equal need not be the same term, since the order of members
plays no part.  Two lists of members are alike if each name gives nothing in both or alike
values in both (`Members.Alike`), and the lists of bases and parameters are alike place by
place.  From these readings of the definition equality is reflexive and transitive, by
induction on the first type.

The order in which `Ty.accepts` tries its cases matters to no answer once nothing is left open:
`Ty.Fits` states the rules one by one, and on known types they say the same
(`Ty.accepts_iff_fits`).  A known type has no unknown type and no name at any depth, and every
subrange in it is one of values that cannot be NIL.

By the rules assignability is a preorder.  It passes on by induction on the first of two
assignments; that a subrange has no base of references is needed where the second one stores
NIL.
-/

namespace SimFront

/-! ## Values that may be missing, and lists of values -/

section

variable {α : Type} {R : α → α → Prop}

theorem rel_refl {a : Option α} (h : ∀ x ∈ a, R x x) : Option.Rel R a a := by
  cases a with
  | none => exact .none
  | some x => exact .some (h x rfl)

theorem rel_trans {a b c : Option α} (h : Option.Rel R a b) (h' : Option.Rel R b c)
    (hR : ∀ x ∈ a, ∀ y z, R x y → R y z → R x z) : Option.Rel R a c := by
  cases h with
  | none => exact h'
  | some hab =>
    cases h' with | some hbc =>
    exact .some (hR _ rfl _ _ hab hbc)

/-- A relation that passes on from every entry of a list passes on along whole lists. -/
theorem forall₂_trans {as bs cs : List α} (h : List.Forall₂ R as bs) (h' : List.Forall₂ R bs cs)
    (hR : ∀ x ∈ as, ∀ y z, R x y → R y z → R x z) : List.Forall₂ R as cs := by
  induction h generalizing cs with
  | nil => exact h'
  | cons hab _ ih =>
    obtain ⟨hR, hRs⟩ := List.forall_mem_cons.1 hR
    cases h' with | cons hbc h' =>
    exact .cons (hR _ _ hab hbc) (ih h' hRs)

end

namespace Members

variable {α : Type} {R : α → α → Prop} {ms ms' ms'' : Members α}

/-- Every name gives nothing in both lists, or related values in both. -/
def Alike (R : α → α → Prop) (ms ms' : Members α) : Prop :=
  ∀ n, Option.Rel R (find? ms n) (find? ms' n)

theorem alike_iff : Alike R ms ms' ↔
    (∀ n a, find? ms n = some a → ∃ a', find? ms' n = some a' ∧ R a a') ∧
      ∀ n, (find? ms' n).isSome → (find? ms n).isSome := by
  rw [Alike, ← forall_and]
  refine forall_congr' fun n => ?_
  cases find? ms n <;> cases find? ms' n <;> simp

theorem hasNames_iff : hasNames ms ms' ↔ ∀ n, (find? ms' n).isSome → (find? ms n).isSome := by
  rw [hasNames, List.all_eq_true]
  constructor
  · intro h n hn
    obtain ⟨a, ha⟩ := Option.isSome_iff_exists.1 hn
    exact h _ (mem_of_find? ha)
  · exact fun h e he => h e.1 (find?_isSome_of_mem he)

theorem Alike.refl (h : ∀ e ∈ ms, R e.2 e.2) : Alike R ms ms :=
  fun _ => rel_refl fun _ ha => h _ (mem_of_find? ha)

theorem Alike.trans (h : Alike R ms ms') (h' : Alike R ms' ms'')
    (hR : ∀ e ∈ ms, ∀ b c, R e.2 b → R b c → R e.2 c) : Alike R ms ms'' :=
  fun n => rel_trans (h n) (h' n) fun _ ha => hR _ (mem_of_find? ha)

end Members

/-! ## What equality compares -/

theorem sameFields_iff_alike {fs fs' : Members Ty} :
    (sameFields [] fs fs' && hasNames fs fs') ↔ Members.Alike (·.same ·) fs fs' := by
  rw [Bool.and_eq_true, sameFields_iff, Members.hasNames_iff, Members.alike_iff]
  simp

theorem sameMethods_iff_alike {ms ms' : Members MethodInfo} :
    (sameMethods [] ms ms' && hasNames ms ms') ↔ Members.Alike (·.same ·) ms ms' := by
  rw [Bool.and_eq_true, sameMethods_iff, Members.hasNames_iff, Members.alike_iff]
  simp

theorem sameTypes_iff : ∀ {ts ts' : List Ty}, sameTypes ts ts' ↔ List.Forall₂ (·.same ·) ts ts'
  | [], ts' => by cases ts' <;> simp [sameTypes]
  | t :: ts, [] => by simp [sameTypes]
  | t :: ts, t' :: ts' => by
    rw [sameTypes, Bool.and_eq_true, sameTypes_iff, List.forall₂_cons]

/-- Parameters are compared by their modes and types. -/
def ParamType.Same (p p' : ParamType) : Prop := p.mode = p'.mode ∧ p.type.same p'.type

theorem sameParams_iff : ∀ {ps ps' : List ParamType},
    sameParams ps ps' ↔ List.Forall₂ ParamType.Same ps ps'
  | [], ps' => by cases ps' <;> simp [sameParams]
  | ⟨m, t⟩ :: ps, [] => by simp [sameParams]
  | ⟨m, t⟩ :: ps, p' :: ps' => by
    rw [sameParams, Bool.and_eq_true, Bool.and_eq_true, decide_eq_true_eq, sameParams_iff,
      List.forall₂_cons, ParamType.Same]

theorem sameResult_iff {r r' : Option Ty} : sameResult r r' ↔ Option.Rel (·.same ·) r r' := by
  cases r <;> cases r' <;> simp [sameResult]

theorem Signature.same_iff {s s' : Signature} : s.same s' ↔
    List.Forall₂ ParamType.Same s.params s'.params ∧ Option.Rel (·.same ·) s.result s'.result := by
  obtain ⟨ps, r⟩ := s
  obtain ⟨ps', r'⟩ := s'
  rw [Signature.same, Bool.and_eq_true, sameParams_iff, sameResult_iff]

theorem MethodInfo.same_iff {m m' : MethodInfo} : m.same m' ↔
    m.dispatch = m'.dispatch ∧ m.signature.same m'.signature ∧ m.isOverride = m'.isOverride := by
  obtain ⟨d, s, o⟩ := m
  obtain ⟨d', s', o'⟩ := m'
  simp only [MethodInfo.same, Bool.and_eq_true, decide_eq_true_eq, and_assoc]

theorem ObjectInfo.same_iff {o o' : ObjectInfo} : o.same o' ↔
    List.Forall₂ (·.same ·) o.bases o'.bases ∧ Members.Alike (·.same ·) o.fields o'.fields ∧
      Members.Alike (·.same ·) o.methods o'.methods := by
  obtain ⟨bs, fs, ms⟩ := o
  obtain ⟨bs', fs', ms'⟩ := o'
  rw [ObjectInfo.same, Bool.and_eq_true, Bool.and_eq_true, sameTypes_iff, sameFields_iff_alike,
    sameMethods_iff_alike, and_assoc]

/-! ## A preorder on types -/

namespace Signature

variable {s s' s'' : Signature}

theorem same_refl (h : ∀ t ∈ s.types, t.same t) : s.same s := by
  rw [types, List.forall_mem_append, List.forall_mem_map] at h
  exact same_iff.2 ⟨List.forall₂_same.2 fun p hp => ⟨rfl, h.1 p hp⟩,
    rel_refl fun t ht => h.2 t (Option.mem_toList.2 ht)⟩

theorem same_trans (h : ∀ t ∈ s.types, ∀ t' t'' : Ty, t.same t' → t'.same t'' → t.same t'')
    (h₁ : s.same s') (h₂ : s'.same s'') : s.same s'' := by
  rw [types, List.forall_mem_append, List.forall_mem_map] at h
  rw [same_iff] at h₁ h₂ ⊢
  constructor
  · exact forall₂_trans h₁.1 h₂.1 fun p hp p' p'' hp' hp'' =>
      ⟨hp'.1.trans hp''.1, h.1 p hp _ _ hp'.2 hp''.2⟩
  · exact rel_trans h₁.2 h₂.2 fun t ht => h.2 t (Option.mem_toList.2 ht)

end Signature

namespace MethodInfo

variable {m m' m'' : MethodInfo}

theorem same_refl (h : ∀ t ∈ m.signature.types, t.same t) : m.same m :=
  same_iff.2 ⟨rfl, Signature.same_refl h, rfl⟩

theorem same_trans
    (h : ∀ t ∈ m.signature.types, ∀ t' t'' : Ty, t.same t' → t'.same t'' → t.same t'')
    (h₁ : m.same m') (h₂ : m'.same m'') : m.same m'' := by
  rw [same_iff] at h₁ h₂ ⊢
  exact ⟨h₁.1.trans h₂.1, Signature.same_trans h h₁.2.1 h₂.2.1, h₁.2.2.trans h₂.2.2⟩

end MethodInfo

namespace Ty

theorem same_refl (t : Ty) : t.same t := by
  induction t using Ty.inductionOn with
  | builtin | named | enum | nil | void | unknown => simp [same]
  | array d e ih => simpa [same] using ih
  | pointer t ih | set t ih | subrange t ih => simpa [same] using ih
  | record fs ih =>
    rw [same, sameFields_iff_alike]
    exact .refl ih
  | object o hbases hfields hmethods =>
    rw [same, ObjectInfo.same_iff]
    exact ⟨List.forall₂_same.2 hbases, .refl hfields,
      .refl fun e he => MethodInfo.same_refl (hmethods e he)⟩
  | procedure s ih =>
    rw [same]
    exact Signature.same_refl ih

/-! What is equal to a type that is built from other types, by its form. -/

theorem array_same_iff {d : Nat} {e b : Ty} :
    (array d e).same b ↔ ∃ e', b = .array d e' ∧ e.same e' := by
  cases b with
  | array d' e' => simp [same, and_assoc, @eq_comm _ d]
  | _ => simp [same]

theorem pointer_same_iff {t b : Ty} : (pointer t).same b ↔ ∃ t', b = .pointer t' ∧ t.same t' := by
  cases b <;> simp [same]

theorem set_same_iff {t b : Ty} : (set t).same b ↔ ∃ t', b = .set t' ∧ t.same t' := by
  cases b <;> simp [same]

theorem subrange_same_iff {t b : Ty} :
    (subrange t).same b ↔ ∃ t', b = .subrange t' ∧ t.same t' := by
  cases b <;> simp [same]

theorem record_same_iff {fs : Members Ty} {b : Ty} :
    (record fs).same b ↔ ∃ fs', b = .record fs' ∧ fs.Alike (·.same ·) fs' := by
  cases b <;> simp only [same, sameFields_iff_alike, record.injEq, exists_eq_left', reduceCtorEq,
    Bool.false_eq_true, false_and, exists_false]

theorem object_same_iff {o : ObjectInfo} {b : Ty} :
    (object o).same b ↔ ∃ o', b = .object o' ∧ o.same o' := by
  cases b <;> simp [same]

theorem procedure_same_iff {s : Signature} {b : Ty} :
    (procedure s).same b ↔ ∃ s', b = .procedure s' ∧ s.same s' := by
  cases b <;> simp [same]

theorem same_trans {a b c : Ty} (h₁ : a.same b) (h₂ : b.same c) : a.same c := by
  induction a using Ty.inductionOn generalizing b c with
  | builtin | named | enum | nil | void | unknown =>
    cases b <;> simp_all [same]
  | array d e ih =>
    obtain ⟨e', rfl, he⟩ := array_same_iff.1 h₁
    obtain ⟨e'', rfl, he'⟩ := array_same_iff.1 h₂
    exact array_same_iff.2 ⟨e'', rfl, ih he he'⟩
  | pointer t ih =>
    obtain ⟨t', rfl, ht⟩ := pointer_same_iff.1 h₁
    obtain ⟨t'', rfl, ht'⟩ := pointer_same_iff.1 h₂
    exact pointer_same_iff.2 ⟨t'', rfl, ih ht ht'⟩
  | set t ih =>
    obtain ⟨t', rfl, ht⟩ := set_same_iff.1 h₁
    obtain ⟨t'', rfl, ht'⟩ := set_same_iff.1 h₂
    exact set_same_iff.2 ⟨t'', rfl, ih ht ht'⟩
  | subrange t ih =>
    obtain ⟨t', rfl, ht⟩ := subrange_same_iff.1 h₁
    obtain ⟨t'', rfl, ht'⟩ := subrange_same_iff.1 h₂
    exact subrange_same_iff.2 ⟨t'', rfl, ih ht ht'⟩
  | record fs ih =>
    obtain ⟨fs', rfl, hfs⟩ := record_same_iff.1 h₁
    obtain ⟨fs'', rfl, hfs'⟩ := record_same_iff.1 h₂
    exact record_same_iff.2 ⟨fs'', rfl, hfs.trans hfs' fun e he _ _ => ih e he⟩
  | object o hbases hfields hmethods =>
    obtain ⟨o', rfl, ho⟩ := object_same_iff.1 h₁
    obtain ⟨o'', rfl, ho'⟩ := object_same_iff.1 h₂
    refine object_same_iff.2 ⟨o'', rfl, ?_⟩
    rw [ObjectInfo.same_iff] at ho ho' ⊢
    refine ⟨forall₂_trans ho.1 ho'.1 fun t ht _ _ => hbases t ht,
      ho.2.1.trans ho'.2.1 fun e he _ _ => hfields e he,
      ho.2.2.trans ho'.2.2 fun e he _ _ => ?_⟩
    exact MethodInfo.same_trans fun t ht _ _ => hmethods e he t ht
  | procedure s ih =>
    obtain ⟨s', rfl, hs⟩ := procedure_same_iff.1 h₁
    obtain ⟨s'', rfl, hs'⟩ := procedure_same_iff.1 h₂
    exact procedure_same_iff.2 ⟨s'', rfl, Signature.same_trans (fun t ht _ _ => ih t ht) hs hs'⟩

/-! ## The rules -/

/-- Where a value of the second type may go by what is written: into a place of an equal type,
NIL into a reference, whole numbers into each other and any number into a real one, a character
into a string, and objects and records into the places that take them all.  Subranges are as
their bases, and sets and pointers as what they are of. -/
inductive Fits : Ty → Ty → Prop
  | same {t s : Ty} : t.same s → Fits t s
  | nil {t : Ty} : t.isReference → Fits t .nil
  | integer {t s : Ty} : t.isInteger → s.isInteger → Fits t s
  | real {t s : Ty} : t.isReal → s.isNumeric → Fits t s
  | character : Fits .string .char
  | anyObject (o : ObjectInfo) : Fits .anyObj (.object o)
  | anyRecord (fs : Members Ty) : Fits .anyRec (.record fs)
  | subrange {base s : Ty} : s ≠ .nil → Fits base s → Fits (.subrange base) s
  | set {t s : Ty} : Fits t s → Fits (.set t) (.set s)
  | pointer {t s : Ty} : Fits t s → Fits (.pointer t) (.pointer s)

/-- A type that leaves nothing open itself: neither unknown nor a name, and if it is a subrange,
then of values that cannot be NIL. -/
def IsDefinite (t : Ty) : Prop :=
  t.isUnknown = false ∧ t.named? = none ∧ ∀ base, t = .subrange base → base.isReference = false

/-- A type that leaves nothing open at any depth. -/
def Known : Ty → Prop := Throughout IsDefinite

theorem known_iff {t : Ty} : t.Known ↔ t.IsDefinite ∧ ∀ u ∈ t.parts, u.Known := throughout_iff

@[simp] theorem known_builtin (b : Builtin) : (builtin b).Known := by
  rw [known_iff]
  simp [IsDefinite, isUnknown, named?, parts]

@[simp] theorem known_set {t : Ty} : (set t).Known ↔ t.Known := by
  rw [known_iff]
  simp [IsDefinite, isUnknown, named?, parts]

@[simp] theorem known_pointer {t : Ty} : (pointer t).Known ↔ t.Known := by
  rw [known_iff]
  simp [IsDefinite, isUnknown, named?, parts]

@[simp] theorem known_subrange {t : Ty} :
    (subrange t).Known ↔ t.isReference = false ∧ t.Known := by
  rw [known_iff]
  simp [IsDefinite, isUnknown, named?, parts]

/-! ## The rules and the check -/

theorem ne_nil_of_isInteger {t : Ty} (h : t.isInteger) : t ≠ .nil := by
  rintro rfl
  cases h

theorem Fits.accepts {t s : Ty} (h : Fits t s) : t.accepts s := by
  induction h with
  | same h => rw [accepts.eq_def]; simp [BEq.beq, h]
  | nil h => rw [accepts.eq_def]; simp [h]
  | @integer t s ht hs =>
    induction t using Ty.inductionOn with
    | subrange base ih =>
      exact subrange_accepts_iff.2 (.inr (.inr ⟨ne_nil_of_isInteger hs, .inl ⟨ht, hs⟩⟩))
    | builtin b => rw [accepts.eq_def]; cases s <;> simp_all [isInteger]
    | _ => cases ht
  | @real t s ht hs =>
    rw [accepts.eq_def]
    cases t with
    | builtin b => cases s <;> simp_all [isNumeric, isInteger, isReal]
    | _ => cases ht
  | character => cbv
  | anyObject o => rw [accepts.eq_def]; simp [anyObj]
  | anyRecord fs => rw [accepts.eq_def]; simp [anyRec]
  | subrange hs _ ih => exact subrange_accepts_iff.2 (.inr (.inr ⟨hs, .inr ih⟩))
  | set _ ih => rw [accepts.eq_def]; simp [ih]
  | pointer _ ih => rw [accepts.eq_def]; simp [ih]

theorem fits_of_accepts {t s : Ty} (ht : t.Known) (hs : s.Known) (h : t.accepts s) :
    Fits t s := by
  fun_induction accepts t s with
  | case1 t s heq =>
    simp only [ht.self.1, hs.self.1, Bool.false_or] at heq
    exact .same heq
  | case2 t => exact .nil h
  | case3 base s hnil _ ih =>
    rw [Bool.or_eq_true, Bool.and_eq_true] at h
    obtain hint | h := h
    · exact .integer hint.1 hint.2
    · exact .subrange hnil (ih (known_subrange.1 ht).2 hs h)
  | case4 t s _ ih => exact .set (ih (known_set.1 ht) (known_set.1 hs) h)
  | case5 t s _ ih => exact .pointer (ih (known_pointer.1 ht) (known_pointer.1 hs) h)
  | case6 t s =>
    rw [Bool.or_eq_true, Bool.or_eq_true, Bool.and_eq_true, Bool.and_eq_true] at h
    obtain (hint | hreal) | h := h
    · exact .integer hint.1 hint.2
    · exact .real hreal.1 hreal.2
    · split at h
      · exact .character
      · cases ht.self.2.1
      · cases hs.self.2.1
      · exact .anyObject _
      · exact .anyRecord _
      · cases h

/-- On known types the check says what the rules say. -/
theorem accepts_iff_fits {t s : Ty} (ht : t.Known) (hs : s.Known) : t.accepts s ↔ Fits t s :=
  ⟨fits_of_accepts ht hs, Fits.accepts⟩

/-! ## Equal types -/

section

variable {a b : Ty}

theorem isReference_of_same (h : a.same b) : a.isReference = b.isReference := by
  cases a <;> cases b <;> simp_all [same, isReference]

theorem isReal_of_same (h : a.same b) : a.isReal = b.isReal := by
  cases a <;> cases b <;> simp_all [same, isReal]

theorem isInteger_of_same (h : a.same b) : a.isInteger = b.isInteger := by
  induction a using Ty.inductionOn generalizing b with
  | subrange base ih =>
    obtain ⟨base', rfl, hbase⟩ := subrange_same_iff.1 h
    rw [isInteger, isInteger, ih hbase]
  | _ => cases b <;> simp_all [same, isInteger]

theorem same_subrange_iff {t : Ty} :
    a.same (.subrange t) ↔ ∃ t', a = .subrange t' ∧ t'.same t := by
  cases a <;> simp [same]

theorem same_set_iff {t : Ty} : a.same (.set t) ↔ ∃ t', a = .set t' ∧ t'.same t := by
  cases a <;> simp [same]

theorem same_pointer_iff {t : Ty} : a.same (.pointer t) ↔ ∃ t', a = .pointer t' ∧ t'.same t := by
  cases a <;> simp [same]

theorem not_isReference_of_isInteger (h : a.isInteger) : ¬ a.isReference := by
  cases a with
  | builtin b => cases b <;> simp_all [isInteger, isReference]
  | _ => simp_all [isInteger, isReference]

theorem not_isReal_of_isInteger (h : a.isInteger) : ¬ a.isReal := by
  cases a with
  | builtin b => cases b <;> simp_all [isInteger, isReal]
  | _ => simp_all [isInteger, isReal]

theorem eq_builtin_of_same {b : Builtin} (h : a.same (.builtin b)) : a = .builtin b := by
  cases a <;> simp_all [same]

theorem eq_of_builtin_same {b : Builtin} (h : (builtin b).same a) : a = .builtin b := by
  cases a <;> simp_all [same]

theorem eq_nil_of_same_nil (h : a.same .nil) : a = .nil := by
  cases a <;> simp_all [same]

theorem eq_nil_of_nil_same (h : nil.same a) : a = .nil := by
  cases a <;> simp_all [same]

theorem isNumeric_of_same (h : a.same b) : a.isNumeric = b.isNumeric := by
  rw [isNumeric, isNumeric, isInteger_of_same h, isReal_of_same h]

end

namespace Fits

variable {a b c : Ty}

/-- An equal type takes the same values. -/
theorem of_same (h : a.same b) (hbc : Fits b c) : Fits a c := by
  induction hbc generalizing a with
  | same h' => exact .same (same_trans h h')
  | nil hb => exact .nil (isReference_of_same h ▸ hb)
  | integer hb hc => exact .integer (isInteger_of_same h ▸ hb) hc
  | real hb hc => exact .real (isReal_of_same h ▸ hb) hc
  | character => exact eq_builtin_of_same h ▸ .character
  | anyObject o => exact eq_builtin_of_same h ▸ .anyObject o
  | anyRecord fs => exact eq_builtin_of_same h ▸ .anyRecord fs
  | subrange hc _ ih =>
    obtain ⟨base, rfl, h'⟩ := same_subrange_iff.1 h
    exact .subrange hc (ih h')
  | set _ ih =>
    obtain ⟨t, rfl, h'⟩ := same_set_iff.1 h
    exact .set (ih h')
  | pointer _ ih =>
    obtain ⟨t, rfl, h'⟩ := same_pointer_iff.1 h
    exact .pointer (ih h')

/-- What takes a value takes a value of an equal type. -/
theorem trans_same (hab : Fits a b) (h : b.same c) : Fits a c := by
  induction hab generalizing c with
  | same h' => exact .same (same_trans h' h)
  | nil ha => exact eq_nil_of_nil_same h ▸ .nil ha
  | integer ha hb => exact .integer ha (isInteger_of_same h ▸ hb)
  | real ha hb => exact .real ha (isNumeric_of_same h ▸ hb)
  | character => exact eq_of_builtin_same h ▸ .character
  | anyObject o =>
    obtain ⟨o', rfl, -⟩ := object_same_iff.1 h
    exact .anyObject o'
  | anyRecord fs =>
    obtain ⟨fs', rfl, -⟩ := record_same_iff.1 h
    exact .anyRecord fs'
  | subrange hb _ ih =>
    refine .subrange ?_ (ih h)
    rintro rfl
    exact hb (eq_nil_of_same_nil h)
  | set _ ih =>
    obtain ⟨c', rfl, h'⟩ := set_same_iff.1 h
    exact .set (ih h')
  | pointer _ ih =>
    obtain ⟨c', rfl, h'⟩ := pointer_same_iff.1 h
    exact .pointer (ih h')

/-! ## What fits a place of a given kind -/

/-- NIL fits references only. -/
theorem isReference_of_nil (h : Fits a .nil) : a.isReference := by
  cases h with
  | same h => exact eq_nil_of_same_nil h ▸ rfl
  | nil h => exact h
  | integer _ h => cases h
  | real _ h => cases h
  | subrange h _ => exact absurd rfl h

theorem eq_nil (h : Fits .nil c) : c = .nil := by
  cases h with
  | same h => exact eq_nil_of_nil_same h
  | nil => rfl
  | integer h _ => cases h
  | real h _ => cases h

/-- Only whole numbers fit where whole numbers go. -/
theorem isInteger (hbc : Fits b c) (hb : b.isInteger) : c.isInteger := by
  induction hbc with
  | same h => exact isInteger_of_same h ▸ hb
  | nil h => exact absurd h (not_isReference_of_isInteger hb)
  | integer _ hc => exact hc
  | real h _ => exact absurd h (not_isReal_of_isInteger hb)
  | subrange _ _ ih => exact ih hb
  | _ => cases hb

/-- Only numbers fit where numbers go. -/
theorem isNumeric (hbc : Fits b c) (hb : b.isNumeric) : c.isNumeric := by
  rw [Ty.isNumeric, Bool.or_eq_true] at hb
  obtain hint | hreal := hb
  · rw [Ty.isNumeric, hbc.isInteger hint, Bool.true_or]
  · cases b with
    | builtin b =>
      cases hbc with
      | same h => rw [eq_of_builtin_same h, Ty.isNumeric, hreal, Bool.or_true]
      | nil h => cases b <;> simp_all [isReference, isReal]
      | integer _ h => rw [Ty.isNumeric, h, Bool.true_or]
      | real _ h => exact h
      | _ => cases hreal
    | _ => cases hreal

/-- Assignments between known types compose.  By induction on the first one; only the type that
is assigned to has to be known. -/
theorem trans (ha : a.Known) (hab : Fits a b) (hbc : Fits b c) : Fits a c := by
  induction hab generalizing c with
  | same h => exact hbc.of_same h
  | nil h => exact hbc.eq_nil ▸ .nil h
  | integer h hb => exact .integer h (hbc.isInteger hb)
  | real h hb => exact .real h (hbc.isNumeric hb)
  | character =>
    cases hbc with
    | same h => exact eq_of_builtin_same h ▸ .character
    | nil h => cases h
    | integer h _ => cases h
    | real h _ => cases h
  | anyObject o =>
    cases hbc with
    | same h =>
      obtain ⟨o', rfl, -⟩ := object_same_iff.1 h
      exact .anyObject o'
    | nil => exact .nil rfl
    | integer h _ => cases h
    | real h _ => cases h
  | anyRecord fs =>
    cases hbc with
    | same h =>
      obtain ⟨fs', rfl, -⟩ := record_same_iff.1 h
      exact .anyRecord fs'
    | nil => exact .nil rfl
    | integer h _ => cases h
    | real h _ => cases h
  | @subrange base s _ _ ih =>
    obtain ⟨hbase, hknown⟩ := known_subrange.1 ha
    have hfits : Fits base c := ih hknown hbc
    refine .subrange ?_ hfits
    rintro rfl
    exact absurd hfits.isReference_of_nil (Bool.eq_false_iff.1 hbase)
  | @set t s hts ih =>
    cases hbc with
    | same h =>
      obtain ⟨c', rfl, h'⟩ := set_same_iff.1 h
      exact .set (hts.trans_same h')
    | nil h => cases h
    | integer h _ => cases h
    | real h _ => cases h
    | set h => exact .set (ih (known_set.1 ha) h)
  | @pointer t s hts ih =>
    cases hbc with
    | same h =>
      obtain ⟨c', rfl, h'⟩ := pointer_same_iff.1 h
      exact .pointer (hts.trans_same h')
    | nil => exact .nil rfl
    | integer h _ => cases h
    | real h _ => cases h
    | pointer h => exact .pointer (ih (known_pointer.1 ha) h)

end Fits

/-! ## Assignability is a preorder -/

/-- Known types fit themselves, and what fits a type that fits another one fits that one. -/
theorem accepts_preorder (a b c : Ty) (ha : a.Known) (hb : b.Known) (hc : c.Known) :
    a.accepts a ∧ (a.accepts b → b.accepts c → a.accepts c) := by
  rw [accepts_iff_fits ha ha, accepts_iff_fits ha hb, accepts_iff_fits hb hc,
    accepts_iff_fits ha hc]
  exact ⟨.same a.same_refl, fun hab hbc => hab.trans ha hbc⟩

theorem accepts_preorder_pointers :
    (pointer .real).Known ∧ (pointer (.subrange .integer)).Known ∧ (pointer .integer).Known ∧
      (pointer .real).accepts (.pointer .real) ∧
      ((pointer .real).accepts (.pointer (.subrange .integer)) →
        (pointer (.subrange .integer)).accepts (.pointer .integer) →
        (pointer .real).accepts (.pointer .integer)) := by
  have hreal : (pointer .real).Known := by simp [real]
  have hsubrange : (pointer (.subrange .integer)).Known := by simp [integer, isReference]
  have hinteger : (pointer .integer).Known := by simp [integer]
  exact ⟨hreal, hsubrange, hinteger, accepts_preorder _ _ _ hreal hsubrange hinteger⟩

/-- A subrange of pointers would take a pointer, which takes NIL, but not NIL itself. -/
example : (subrange (.pointer .integer)).accepts (.pointer .integer) = true ∧
    (pointer .integer).accepts .nil = true ∧
    (subrange (.pointer .integer)).accepts .nil = false := by
  cbv

end Ty

end SimFront
