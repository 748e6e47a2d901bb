import SimFront.Proofs.Types.Qualified

/-!
# Every depth of a type

The types that stand directly in a type are its parts, and a path of part numbers leads to a
type at any depth (`Ty.at?`).  What holds throughout a type is said along these paths, and
proved from part to part (`Ty.throughout_iff`).

Seen from another module, a type has the same paths: each leads to what stood there before,
with the module's name put in front of it if it is a bare name (`Ty.at?_qualify`).  So no path
leads to a bare name any more, and putting a second name in front changes nothing.
-/

namespace SimFront

namespace Ty

/-- The types that stand directly in a type, in the order in which they are written. -/
def parts : Ty → List Ty
  | .array _ e => [e]
  | .record fs => fs.map (·.2)
  | .object o => o.bases ++ o.fields.map (·.2) ++ o.methods.flatMap (·.2.signature.types)
  | .pointer t | .set t | .subrange t => [t]
  | .procedure s => s.types
  | .builtin _ | .named _ _ | .enum _ | .nil | .void | .unknown => []

/-- What stands in a type at the end of a path of part numbers. -/
def at? : Ty → List Nat → Option Ty
  | t, [] => some t
  | t, i :: path => t.parts[i]?.bind (·.at? path)

/-! ## What holds at every depth -/

/-- Whether something holds of a type and of all that stands in it, at any depth. -/
def Throughout (P : Ty → Prop) (t : Ty) : Prop := ∀ path u, t.at? path = some u → P u

theorem throughout_iff {P : Ty → Prop} {t : Ty} :
    t.Throughout P ↔ P t ∧ ∀ u ∈ t.parts, u.Throughout P := by
  constructor
  · refine fun h => ⟨h [] t rfl, fun u hu path v hv => ?_⟩
    obtain ⟨i, hi⟩ := List.mem_iff_getElem?.1 hu
    refine h (i :: path) v ?_
    rw [at?, hi]
    exact hv
  · rintro ⟨ht, hparts⟩ (_ | ⟨i, path⟩) u hu
    · cases hu
      exact ht
    · rw [at?, Option.bind_eq_some_iff] at hu
      obtain ⟨v, hv, hu⟩ := hu
      exact hparts v (List.mem_of_getElem? hv) path u hu

section

variable {P : Ty → Prop} {t : Ty}

theorem Throughout.self (h : t.Throughout P) : P t := (throughout_iff.1 h).1

theorem Throughout.part (h : t.Throughout P) {u : Ty} (hu : u ∈ t.parts) : u.Throughout P :=
  (throughout_iff.1 h).2 u hu

end

/-- A type in which no bare name stands, at any depth. -/
def IsQualified : Ty → Prop := Throughout fun u => ∀ n, u ≠ .named none n

theorem isQualified_unknown : Ty.unknown.IsQualified :=
  throughout_iff.2 ⟨nofun, List.forall_mem_nil _⟩

theorem isQualified_named (m n : String) : (named (some m) n).IsQualified :=
  throughout_iff.2 ⟨nofun, List.forall_mem_nil _⟩

end Ty

/-! ## Parts seen from another module -/

section Qualify

variable (module : String)

theorem qualifyAll_eq (ts : List Ty) : qualifyAll module ts = ts.map (·.qualify module) := by
  induction ts with
  | nil => rfl
  | cons t ts ih => rw [qualifyAll, ih, List.map_cons]

theorem qualifyParams_eq (ps : List ParamType) :
    qualifyParams module ps = ps.map fun p => ⟨p.mode, p.type.qualify module⟩ := by
  induction ps with
  | nil => rfl
  | cons p ps ih =>
    cases p
    rw [qualifyParams, ih, List.map_cons]

theorem qualifyResult_eq (r : Option Ty) : qualifyResult module r = r.map (·.qualify module) := by
  cases r <;> rfl

@[simp] theorem Signature.types_qualify (s : Signature) :
    (s.qualify module).types = s.types.map (·.qualify module) := by
  obtain ⟨ps, r⟩ := s
  rw [Signature.qualify, Signature.types, Signature.types, qualifyParams_eq, qualifyResult_eq,
    List.map_append, List.map_map, List.map_map]
  cases r <;> rfl

@[simp] theorem MethodInfo.signature_qualify (m : MethodInfo) :
    (m.qualify module).signature = m.signature.qualify module := by
  cases m
  rfl

namespace Ty

theorem parts_qualify (t : Ty) : (t.qualify module).parts = t.parts.map (·.qualify module) := by
  cases t with
  | builtin | enum | nil | void | unknown => rfl
  | named m n => cases m <;> rfl
  | array | pointer | set | subrange => rfl
  | record fs =>
    rw [qualify, qualifyFields_eq]
    simp only [parts, List.map_map, Function.comp_def]
  | object o =>
    obtain ⟨bs, fs, ms⟩ := o
    rw [qualify, ObjectInfo.qualify, qualifyAll_eq, qualifyFields_eq, qualifyMethods_eq]
    simp only [parts, List.map_append, List.map_map, List.map_flatMap, List.flatMap_map,
      Function.comp_def, MethodInfo.signature_qualify, Signature.types_qualify]
  | procedure s => exact s.types_qualify module

/-- A path leads to what it led to before, seen from the other module. -/
theorem at?_qualify (t : Ty) (path : List Nat) :
    (t.qualify module).at? path = (t.at? path).map (·.qualify module) := by
  induction path generalizing t with
  | nil => rfl
  | cons i path ih =>
    rw [at?, at?, parts_qualify, List.getElem?_map]
    cases t.parts[i]? with
    | none => rfl
    | some u => exact ih u

theorem qualify_ne_bare (t : Ty) (n : String) : t.qualify module ≠ .named none n := by
  cases t with
  | named m _ => cases m <;> simp [qualify]
  | _ => simp [qualify]

/-- What is seen from another module holds no bare name. -/
theorem isQualified_qualify (t : Ty) : (t.qualify module).IsQualified := by
  intro path u hu
  rw [at?_qualify, Option.map_eq_some_iff] at hu
  obtain ⟨v, -, rfl⟩ := hu
  exact v.qualify_ne_bare module

end Ty

end Qualify

/-! ## Qualified types seen from another module -/

theorem map_eq_self {α : Type} {f : α → α} {l : List α} (h : ∀ a ∈ l, f a = a) : l.map f = l :=
  (List.map_congr_left h).trans (List.map_id l)

variable {module : String}

theorem qualifyFields_eq_self {fs : Members Ty} (h : ∀ e ∈ fs, e.2.qualify module = e.2) :
    qualifyFields module fs = fs := by
  rw [qualifyFields_eq]
  exact map_eq_self fun e he => congrArg (e.1, ·) (h e he)

theorem Signature.qualify_eq_self {s : Signature} (h : ∀ t ∈ s.types, t.qualify module = t) :
    s.qualify module = s := by
  obtain ⟨ps, r⟩ := s
  rw [Signature.types, List.forall_mem_append, List.forall_mem_map] at h
  have hparams : qualifyParams module ps = ps := by
    rw [qualifyParams_eq]
    refine map_eq_self fun p hp => ?_
    have htype := h.1 p hp
    cases p
    exact congrArg (ParamType.mk _) htype
  have hresult : qualifyResult module r = r := by
    cases r with
    | none => rfl
    | some t => exact congrArg some (h.2 t (List.mem_singleton.2 rfl))
  rw [Signature.qualify, hparams, hresult]

theorem qualifyMethods_eq_self {ms : Members MethodInfo}
    (h : ∀ e ∈ ms, ∀ t ∈ e.2.signature.types, t.qualify module = t) :
    qualifyMethods module ms = ms := by
  rw [qualifyMethods_eq]
  refine map_eq_self fun e he => ?_
  obtain ⟨n, d, s, o⟩ := e
  have hsignature : s.qualify module = s := Signature.qualify_eq_self (h _ he)
  rw [MethodInfo.qualify, hsignature]

namespace Ty

/-- A type keeps all its names from another module if it holds no bare name. -/
theorem qualify_of_isQualified {t : Ty} (h : t.IsQualified) : t.qualify module = t := by
  induction t using Ty.inductionOn with
  | builtin | enum | nil | void | unknown => rfl
  | named m n =>
    cases m with
    | none => exact absurd rfl (h.self n)
    | some m => rfl
  | array d e ih => exact congrArg (array d) (ih (h.part (List.mem_singleton.2 rfl)))
  | pointer t ih => exact congrArg pointer (ih (h.part (List.mem_singleton.2 rfl)))
  | set t ih => exact congrArg set (ih (h.part (List.mem_singleton.2 rfl)))
  | subrange t ih => exact congrArg subrange (ih (h.part (List.mem_singleton.2 rfl)))
  | record fs ih =>
    exact congrArg record (qualifyFields_eq_self fun e he =>
      ih e he (h.part (List.mem_map_of_mem he)))
  | object o hbases hfields hmethods =>
    obtain ⟨bs, fs, ms⟩ := o
    have hparts : ∀ u ∈ (Ty.object ⟨bs, fs, ms⟩).parts, u.IsQualified := fun u hu => h.part hu
    simp only [parts, List.forall_mem_append, List.forall_mem_map] at hparts
    obtain ⟨⟨hb, hf⟩, hm⟩ := hparts
    have hall : qualifyAll module bs = bs := by
      rw [qualifyAll_eq]
      exact map_eq_self fun t ht => hbases t ht (hb t ht)
    rw [qualify, ObjectInfo.qualify, hall,
      qualifyFields_eq_self fun e he => hfields e he (hf e he),
      qualifyMethods_eq_self fun e he t ht =>
        hmethods e he t ht (hm t (List.mem_flatMap.2 ⟨e, he, ht⟩))]
  | procedure s ih =>
    exact congrArg procedure (Signature.qualify_eq_self fun t ht => ih t ht (h.part ht))

/-- Exactly the types that hold no bare name look the same from another module. -/
theorem qualify_eq_self_iff {t : Ty} : t.qualify module = t ↔ t.IsQualified :=
  ⟨fun h => h ▸ t.isQualified_qualify module, qualify_of_isQualified⟩

/-- A type seen from one module looks the same from every other. -/
@[simp] theorem qualify_qualify (t : Ty) (m n : String) :
    (t.qualify m).qualify n = t.qualify m :=
  qualify_of_isQualified (t.isQualified_qualify m)

end Ty

end SimFront
