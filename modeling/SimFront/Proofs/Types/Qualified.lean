import SimFront.Proofs.Types.Avoids
import SimFront.Types.Qualify

/-!
# A signature and the same signature seen from another module

Types are nested in the lists of members, parameters and bases that they are built from.
`Ty.inductionOn` packages the recursion once: what holds of a type as soon as it holds of the
types that stand directly in it, holds of every type.

A method that overrides an imported one repeats its signature, but what was imported has the
module's name in front of every bare type name.  `Signature.overrides` leaves these names out
of account where a type is a name, or has one under pointers, sets, subranges and arrays.
Records, objects and procedure types are compared as they are, and so a bare name inside one
of them keeps the two signatures apart (`overrides_qualify_iff`).
-/

namespace SimFront

/-- The types of the parameters and of the result. -/
def Signature.types (s : Signature) : List Ty := s.params.map (·.type) ++ s.result.toList

theorem Ty.inductionOn {P : Ty → Prop} (t : Ty)
    (builtin : ∀ b, P (.builtin b))
    (named : ∀ m n, P (.named m n))
    (array : ∀ d e, P e → P (.array d e))
    (record : ∀ fs : Members Ty, (∀ e ∈ fs, P e.2) → P (.record fs))
    (object : ∀ o : ObjectInfo, (∀ t ∈ o.bases, P t) → (∀ e ∈ o.fields, P e.2) →
      (∀ e ∈ o.methods, ∀ t ∈ e.2.signature.types, P t) → P (.object o))
    (pointer : ∀ t, P t → P (.pointer t))
    (set : ∀ t, P t → P (.set t))
    (subrange : ∀ t, P t → P (.subrange t))
    (enum : ∀ vs, P (.enum vs))
    (procedure : ∀ s : Signature, (∀ t ∈ s.types, P t) → P (.procedure s))
    (nil : P .nil) (void : P .void) (unknown : P .unknown) : P t := by
  have types : ∀ (ps : List ParamType) (r : Option Ty), (∀ p ∈ ps, P p.type) →
      (∀ t ∈ r, P t) → ∀ t ∈ (Signature.mk ps r).types, P t := by
    intro ps r hps hr t ht
    rcases List.mem_append.1 ht with ht | ht
    · obtain ⟨p, hp, rfl⟩ := List.mem_map.1 ht
      exact hps p hp
    · exact hr t (Option.mem_toList.1 ht)
  -- the motives stand for a type, a signature, a parameter, an object, a method, and their lists
  exact @Ty.rec P (fun s => ∀ t ∈ s.types, P t) (fun p => P p.type) (fun o => P (.object o))
    (fun m => ∀ t ∈ m.signature.types, P t) (fun fs => ∀ e ∈ fs, P e.2)
    (fun ps => ∀ p ∈ ps, P p.type) (fun r => ∀ t ∈ r, P t) (fun ts => ∀ t ∈ ts, P t)
    (fun ms => ∀ e ∈ ms, ∀ t ∈ e.2.signature.types, P t) (fun e => P e.2)
    (fun e => ∀ t ∈ e.2.signature.types, P t)
    builtin named array record (fun _ h => h) pointer set subrange enum procedure nil void unknown
    types (fun _ _ h => h) (fun bs fs ms => object ⟨bs, fs, ms⟩) (fun _ _ _ h => h)
    (fun _ h => nomatch h) (fun _ _ h hs => List.forall_mem_cons.2 ⟨h, hs⟩)
    (fun _ h => nomatch h) (fun _ _ h hs => List.forall_mem_cons.2 ⟨h, hs⟩)
    (fun _ h => nomatch h) (fun _ h _ ht => Option.mem_some.1 ht ▸ h)
    (fun _ h => nomatch h) (fun _ _ h hs => List.forall_mem_cons.2 ⟨h, hs⟩)
    (fun _ h => nomatch h) (fun _ _ h hs => List.forall_mem_cons.2 ⟨h, hs⟩)
    (fun _ _ h => h) (fun _ _ h => h) t

/-! ## Bare names -/

/-- A type that mentions another type by a bare name, at any depth. -/
inductive Ty.MentionsBare : Ty → Prop
  | name (n : String) : MentionsBare (.named none n)
  | element {d : Nat} {e : Ty} : e.MentionsBare → MentionsBare (.array d e)
  | recordField {fs : Members Ty} {n : String} {t : Ty} :
      Members.find? fs n = some t → t.MentionsBare → MentionsBare (.record fs)
  | base {o : ObjectInfo} {t : Ty} : t ∈ o.bases → t.MentionsBare → MentionsBare (.object o)
  | objectField {o : ObjectInfo} {n : String} {t : Ty} :
      Members.find? o.fields n = some t → t.MentionsBare → MentionsBare (.object o)
  | method {o : ObjectInfo} {n : String} {m : MethodInfo} {t : Ty} :
      Members.find? o.methods n = some m → t ∈ m.signature.types → t.MentionsBare →
      MentionsBare (.object o)
  | target {t : Ty} : t.MentionsBare → MentionsBare (.pointer t)
  | member {t : Ty} : t.MentionsBare → MentionsBare (.set t)
  | ordinal {t : Ty} : t.MentionsBare → MentionsBare (.subrange t)
  | signature {s : Signature} {t : Ty} : t ∈ s.types → t.MentionsBare →
      MentionsBare (.procedure s)

namespace Ty

/-! What a type mentions, by its form. -/

@[simp] theorem mentionsBare_named {m : Option String} {n : String} :
    (Ty.named m n).MentionsBare ↔ m = none :=
  ⟨fun | .name _ => rfl, fun h => h ▸ .name n⟩

@[simp] theorem mentionsBare_array {d : Nat} {e : Ty} :
    (Ty.array d e).MentionsBare ↔ e.MentionsBare := ⟨fun | .element h => h, .element⟩

@[simp] theorem mentionsBare_pointer {t : Ty} :
    (Ty.pointer t).MentionsBare ↔ t.MentionsBare := ⟨fun | .target h => h, .target⟩

@[simp] theorem mentionsBare_set {t : Ty} :
    (Ty.set t).MentionsBare ↔ t.MentionsBare := ⟨fun | .member h => h, .member⟩

@[simp] theorem mentionsBare_subrange {t : Ty} :
    (Ty.subrange t).MentionsBare ↔ t.MentionsBare := ⟨fun | .ordinal h => h, .ordinal⟩

theorem not_mentionsBare_record {fs : Members Ty} : ¬ (Ty.record fs).MentionsBare ↔
    ∀ n t, Members.find? fs n = some t → ¬ t.MentionsBare :=
  ⟨fun h _ _ hf ht => h (.recordField hf ht), fun h => fun | .recordField hf ht => h _ _ hf ht⟩

theorem not_mentionsBare_object {o : ObjectInfo} : ¬ (Ty.object o).MentionsBare ↔
    (∀ t ∈ o.bases, ¬ t.MentionsBare) ∧
      (∀ n t, Members.find? o.fields n = some t → ¬ t.MentionsBare) ∧
      ∀ n m, Members.find? o.methods n = some m →
        ∀ t ∈ m.signature.types, ¬ t.MentionsBare := by
  constructor
  · exact fun h => ⟨fun _ hb ht => h (.base hb ht), fun _ _ hf ht => h (.objectField hf ht),
      fun _ _ hm _ hs ht => h (.method hm hs ht)⟩
  · rintro ⟨hbases, hfields, hmethods⟩ (_ | _ | _ | ⟨hb, ht⟩ | ⟨hf, ht⟩ | ⟨hm, hs, ht⟩)
    · exact hbases _ hb ht
    · exact hfields _ _ hf ht
    · exact hmethods _ _ hm _ hs ht

theorem not_mentionsBare_procedure {s : Signature} : ¬ (Ty.procedure s).MentionsBare ↔
    ∀ t ∈ s.types, ¬ t.MentionsBare :=
  ⟨fun h _ hs ht => h (.signature hs ht), fun h => fun | .signature hs ht => h _ hs ht⟩

end Ty

/-- What is left of a type without the arrays, pointers, sets and subranges around it. -/
def Ty.core : Ty → Ty
  | .array _ e => e.core
  | .pointer t => t.core
  | .set t => t.core
  | .subrange t => t.core
  | t => t

/-! ## Members and what their names give -/

namespace Members

variable {α : Type}

theorem find?_cons (k : String) (a : α) (ms : Members α) (n : String) :
    find? ((k, a) :: ms) n = if n = k then some a else find? ms n := by
  by_cases h : n = k
  · simp [find?, h]
  · simp [find?, List.lookup_cons, h, beq_false_of_ne h]

theorem find?_isSome_of_mem {ms : Members α} {e : String × α} (h : e ∈ ms) :
    (find? ms e.1).isSome := by
  refine Option.isSome_iff_ne_none.2 fun hnone => ?_
  have := List.lookup_eq_none_iff.1 hnone e h
  simp at this

/-- What holds of all that the names of a list give, but for some names, holds of its first
entry and of what the other names give. -/
theorem forall_find?_cons {k : String} {a : α} {ms : Members α} {seen : List String}
    {Q : String → α → Prop} :
    (∀ n ∉ seen, ∀ b, find? ((k, a) :: ms) n = some b → Q n b) ↔
      (k ∉ seen → Q k a) ∧ ∀ n ∉ k :: seen, ∀ b, find? ms n = some b → Q n b := by
  simp only [find?_cons, List.mem_cons, not_or]
  constructor
  · intro h
    refine ⟨fun hk => h k hk a (if_pos rfl), fun n hn b hb => h n hn.2 b ?_⟩
    rw [if_neg hn.1, hb]
  · rintro ⟨hk, h⟩ n hn b hb
    by_cases hnk : n = k
    · rw [if_pos hnk, Option.some.injEq] at hb
      exact hnk ▸ hb ▸ hk (hnk ▸ hn)
    · rw [if_neg hnk] at hb
      exact h n ⟨hnk, hn⟩ b hb

end Members

theorem sameFields_iff {seen : List String} {fs other : Members Ty} :
    sameFields seen fs other ↔ ∀ n ∉ seen, ∀ t, Members.find? fs n = some t →
      ∃ t', Members.find? other n = some t' ∧ t.same t' := by
  induction fs generalizing seen with
  | nil => simp [sameFields, Members.find?]
  | cons e fs ih =>
    obtain ⟨k, t⟩ := e
    rw [sameFields, Bool.and_eq_true, ih, Members.forall_find?_cons]
    cases Members.find? other k <;> simp [Decidable.or_iff_not_imp_left]

theorem sameMethods_iff {seen : List String} {ms other : Members MethodInfo} :
    sameMethods seen ms other ↔ ∀ n ∉ seen, ∀ m, Members.find? ms n = some m →
      ∃ m', Members.find? other n = some m' ∧ m.same m' := by
  induction ms generalizing seen with
  | nil => simp [sameMethods, Members.find?]
  | cons e ms ih =>
    obtain ⟨k, m⟩ := e
    rw [sameMethods, Bool.and_eq_true, ih, Members.forall_find?_cons]
    cases Members.find? other k <;> simp [Decidable.or_iff_not_imp_left]

/-! ## Members seen from another module -/

section Qualify

variable (module : String)

theorem qualifyFields_eq (fs : Members Ty) :
    qualifyFields module fs = fs.map fun e => (e.1, e.2.qualify module) := by
  induction fs with
  | nil => rfl
  | cons e fs ih => rw [qualifyFields, ih, List.map_cons]

theorem qualifyMethods_eq (ms : Members MethodInfo) :
    qualifyMethods module ms = ms.map fun e => (e.1, e.2.qualify module) := by
  induction ms with
  | nil => rfl
  | cons e ms ih => rw [qualifyMethods, ih, List.map_cons]

end Qualify

namespace Members

variable {α : Type} (f : α → α)

theorem find?_map (ms : Members α) (n : String) :
    find? (ms.map fun e => (e.1, f e.2)) n = (find? ms n).map f := by
  induction ms with
  | nil => rfl
  | cons e ms ih =>
    obtain ⟨k, a⟩ := e
    rw [List.map_cons, find?_cons, find?_cons, ih]
    split <;> rfl

/-- Members that are changed one by one keep their names. -/
theorem hasNames_map (ms : Members α) : hasNames ms (ms.map fun e => (e.1, f e.2)) := by
  rw [hasNames, List.all_map, List.all_eq_true]
  intro e he
  exact find?_isSome_of_mem (e := e) he

end Members

/-! ## Comparing a type with itself seen from another module -/

section Same

variable (module : String)

theorem sameFields_qualify_iff (fs : Members Ty) :
    (sameFields [] fs (qualifyFields module fs) && hasNames fs (qualifyFields module fs)) ↔
      ∀ n t, Members.find? fs n = some t → t.same (t.qualify module) := by
  rw [qualifyFields_eq, Members.hasNames_map, Bool.and_true, sameFields_iff]
  simp only [List.not_mem_nil, not_false_eq_true, true_implies, Members.find?_map]
  refine forall_congr' fun n => forall_congr' fun t => imp_congr_right fun ht => ?_
  rw [ht, Option.map_some]
  simp only [Option.some.injEq, exists_eq_left']

theorem sameMethods_qualify_iff (ms : Members MethodInfo) :
    (sameMethods [] ms (qualifyMethods module ms) && hasNames ms (qualifyMethods module ms)) ↔
      ∀ n m, Members.find? ms n = some m → m.same (m.qualify module) := by
  rw [qualifyMethods_eq, Members.hasNames_map, Bool.and_true, sameMethods_iff]
  simp only [List.not_mem_nil, not_false_eq_true, true_implies, Members.find?_map]
  refine forall_congr' fun n => forall_congr' fun m => imp_congr_right fun hm => ?_
  rw [hm, Option.map_some]
  simp only [Option.some.injEq, exists_eq_left']

theorem sameTypes_qualify_iff (ts : List Ty) :
    sameTypes ts (qualifyAll module ts) ↔ ∀ t ∈ ts, t.same (t.qualify module) := by
  induction ts with
  | nil => simp [sameTypes, qualifyAll]
  | cons t ts ih => simp [sameTypes, qualifyAll, ih]

theorem sameParams_qualify_iff (ps : List ParamType) :
    sameParams ps (qualifyParams module ps) ↔ ∀ p ∈ ps, p.type.same (p.type.qualify module) := by
  induction ps with
  | nil => simp [sameParams, qualifyParams]
  | cons p ps ih =>
    obtain ⟨m, t⟩ := p
    simp [sameParams, qualifyParams, ih]

theorem Signature.same_qualify_iff_types (s : Signature) :
    s.same (s.qualify module) ↔ ∀ t ∈ s.types, t.same (t.qualify module) := by
  obtain ⟨ps, r⟩ := s
  rw [Signature.qualify, Signature.same, Bool.and_eq_true, sameParams_qualify_iff]
  simp only [Signature.types, List.forall_mem_append, List.forall_mem_map]
  cases r <;> simp [qualifyResult, sameResult]

theorem MethodInfo.same_qualify_iff (m : MethodInfo) :
    m.same (m.qualify module) ↔ ∀ t ∈ m.signature.types, t.same (t.qualify module) := by
  obtain ⟨d, s, o⟩ := m
  simp [MethodInfo.qualify, MethodInfo.same, Signature.same_qualify_iff_types]

theorem ObjectInfo.same_qualify_iff (o : ObjectInfo) :
    o.same (o.qualify module) ↔ (∀ t ∈ o.bases, t.same (t.qualify module)) ∧
      (∀ n t, Members.find? o.fields n = some t → t.same (t.qualify module)) ∧
      ∀ n m, Members.find? o.methods n = some m →
        ∀ t ∈ m.signature.types, t.same (t.qualify module) := by
  obtain ⟨bs, fs, ms⟩ := o
  rw [ObjectInfo.qualify, ObjectInfo.same, Bool.and_eq_true, Bool.and_eq_true,
    sameTypes_qualify_iff, sameFields_qualify_iff, sameMethods_qualify_iff, and_assoc]
  simp only [MethodInfo.same_qualify_iff]

/-- A type is equal to itself seen from another module exactly if it mentions no bare name. -/
theorem Ty.same_qualify_iff (t : Ty) : t.same (t.qualify module) ↔ ¬ t.MentionsBare := by
  induction t using Ty.inductionOn with
  | builtin | enum | nil | void | unknown =>
    exact ⟨fun _ h => (by cases h), fun _ => by simp [Ty.qualify, Ty.same]⟩
  | named m n => cases m <;> simp [Ty.qualify, Ty.same]
  | array d e ih => simpa [Ty.qualify, Ty.same] using ih
  | record fs ih =>
    rw [Ty.qualify, Ty.same, sameFields_qualify_iff, Ty.not_mentionsBare_record]
    exact forall_congr' fun n => forall_congr' fun t => imp_congr_right fun ht =>
      ih _ (Members.mem_of_find? ht)
  | object o hbases hfields hmethods =>
    rw [Ty.qualify, Ty.same, ObjectInfo.same_qualify_iff, Ty.not_mentionsBare_object]
    refine and_congr ?_ (and_congr ?_ ?_)
    · exact forall_congr' fun t => imp_congr_right fun ht => hbases t ht
    · exact forall_congr' fun n => forall_congr' fun t => imp_congr_right fun ht =>
        hfields _ (Members.mem_of_find? ht)
    · exact forall_congr' fun n => forall_congr' fun m => imp_congr_right fun hm =>
        forall_congr' fun t => imp_congr_right fun ht => hmethods _ (Members.mem_of_find? hm) t ht
  | pointer t ih | set t ih | subrange t ih => simpa [Ty.qualify, Ty.same] using ih
  | procedure s ih =>
    rw [Ty.qualify, Ty.same, Signature.same_qualify_iff_types, Ty.not_mentionsBare_procedure]
    exact forall_congr' fun t => imp_congr_right fun ht => ih t ht

end Same

/-! ## Comparing for overriding -/

/-- A type fits itself seen from another module exactly if it is a name behind arrays, pointers,
sets and subranges, or mentions no bare name. -/
theorem Ty.alike_qualify_iff (module : String) (t : Ty) : t.alike (t.qualify module) ↔
    (t.core.MentionsBare → ∃ n, t.core = .named none n) := by
  -- a type that is compared as it is
  have compared {t : Ty} (hne : ∀ n, t ≠ .named none n) :
      t == t.qualify module ↔ (t.MentionsBare → ∃ n, t = .named none n) :=
    (t.same_qualify_iff module).trans <|
      imp_congr_right fun _ => (iff_false_intro (not_exists.2 hne)).symm
  induction t using Ty.inductionOn with
  | named m n => cases m <;> simp [Ty.qualify, Ty.alike, Ty.core]
  | array d e ih => simpa [Ty.qualify, Ty.alike, Ty.core] using ih
  | pointer t ih | set t ih | subrange t ih => simpa [Ty.qualify, Ty.alike, Ty.core] using ih
  | builtin | record | object | enum | procedure | nil | void | unknown =>
    exact compared nofun

theorem alikeParams_qualify_iff (ps : List ParamType) (module : String) :
    alikeParams ps (qualifyParams module ps) ↔
      ∀ p ∈ ps, p.type.alike (p.type.qualify module) := by
  induction ps with
  | nil => simp [alikeParams, qualifyParams]
  | cons p ps ih =>
    obtain ⟨m, t⟩ := p
    simp [alikeParams, qualifyParams, ih]

/-- A method fits the same method of another module exactly if no record, object or procedure
type among its parameters and its result, behind arrays, pointers, sets and subranges too,
mentions a type by a bare name. -/
theorem Signature.overrides_qualify_iff (s : Signature) (module : String) :
    s.overrides (s.qualify module) ↔
      ∀ t ∈ s.types, t.core.MentionsBare → ∃ n, t.core = .named none n := by
  obtain ⟨ps, r⟩ := s
  rw [Signature.qualify, Signature.overrides, Bool.and_eq_true, alikeParams_qualify_iff]
  simp only [Signature.types, List.forall_mem_append, List.forall_mem_map,
    ← Ty.alike_qualify_iff module]
  cases r <;> simp [qualifyResult]

/-- A parameter that is a procedure over a type of the other module keeps them apart. -/
example (s : Signature) (h : s = ⟨[⟨.in_, .procedure ⟨[⟨.in_, .named none "T"⟩], none⟩⟩], none⟩) :
    s.overrides (s.qualify "V") = false := by
  subst h
  cbv

end SimFront
