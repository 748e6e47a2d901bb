import SimFront.Check.Inheritance
import SimFront.Proofs.Types.Parts

/-!
# Modules that are named in types

A type names another module where it has a qualified name in it, at any depth.  `NamesOnly qs a`
says of a type, or of anything that is built from types, that it names no modules but `qs`.
-/

namespace SimFront

/-- Values in which modules are named. -/
class Naming (α : Type) where
  /-- No modules are named but some. -/
  NamesOnly (qs : List String) (a : α) : Prop

open Naming (NamesOnly)

variable {qs : List String}

/-! ## Types -/

instance : Naming String := ⟨fun qs m => m ∈ qs⟩

instance {α : Type} [Naming α] : Naming (Option α) :=
  ⟨fun qs a? => ∀ a, a? = some a → NamesOnly qs a⟩

instance {α : Type} [Naming α] : Naming (List α) := ⟨fun qs as => ∀ a ∈ as, NamesOnly qs a⟩

/-- Something under a name of its own. -/
instance {α : Type} [Naming α] : Naming (String × α) := ⟨fun qs e => NamesOnly qs e.2⟩

instance : Naming Ty := ⟨fun qs => Ty.Throughout fun t => ∀ m n, t = .named (some m) n → m ∈ qs⟩

instance : Naming Signature := ⟨fun qs s => NamesOnly qs s.types⟩

instance : Naming ParamType := ⟨fun qs p => NamesOnly qs p.type⟩

instance : Naming MethodInfo := ⟨fun qs m => NamesOnly qs m.signature⟩

instance : Naming ObjectInfo := ⟨fun qs o => NamesOnly qs (Ty.object o)⟩

section Values

variable {α : Type} [Naming α]

@[simp] theorem namesOnly_none : NamesOnly qs (none : Option α) := nofun

@[simp] theorem namesOnly_some {a : α} : NamesOnly qs (some a) ↔ NamesOnly qs a :=
  ⟨fun h => h a rfl, fun h _ ha => Option.some.inj ha ▸ h⟩

@[simp] theorem namesOnly_nil : NamesOnly qs ([] : List α) := nofun

@[simp] theorem namesOnly_cons {a : α} {as : List α} :
    NamesOnly qs (a :: as) ↔ NamesOnly qs a ∧ NamesOnly qs as := List.forall_mem_cons

@[simp] theorem namesOnly_append {as bs : List α} :
    NamesOnly qs (as ++ bs) ↔ NamesOnly qs as ∧ NamesOnly qs bs := List.forall_mem_append

@[simp] theorem namesOnly_entry {name : String} {a : α} :
    NamesOnly qs (name, a) ↔ NamesOnly qs a := .rfl

theorem namesOnly_getD {a? : Option α} {a : α} (h : NamesOnly qs a?) (ha : NamesOnly qs a) :
    NamesOnly qs (a?.getD a) := by
  cases a? with
  | none => exact ha
  | some b => exact namesOnly_some.1 h

theorem namesOnly_find? {ms : Members α} (h : NamesOnly qs ms) {name : String} {a : α}
    (hfind : Members.find? ms name = some a) : NamesOnly qs a := h _ (Members.mem_of_find? hfind)

theorem namesOnly_ofList {es : List (String × α)} (h : NamesOnly qs es) :
    NamesOnly qs (Members.ofList es) :=
  fun e he => h e (Members.mem_ofList he)

end Values

/-- A type names no other modules than its name and its parts. -/
theorem namesOnly_iff_parts {t : Ty} : NamesOnly qs t ↔
    (∀ m n, t = .named (some m) n → m ∈ qs) ∧ NamesOnly qs t.parts := Ty.throughout_iff

namespace Ty

@[simp] theorem namesOnly_builtin {b : Builtin} : NamesOnly qs (Ty.builtin b) :=
  namesOnly_iff_parts.2 ⟨nofun, namesOnly_nil⟩

@[simp] theorem namesOnly_named {module? : Option String} {name : String} :
    NamesOnly qs (Ty.named module? name) ↔ NamesOnly qs module? := by
  refine ⟨fun h m hm => (namesOnly_iff_parts.1 h).1 m name (by rw [hm]), fun h => ?_⟩
  refine namesOnly_iff_parts.2 ⟨fun m n hmn => ?_, namesOnly_nil⟩
  exact h m (Ty.named.inj hmn).1

@[simp] theorem namesOnly_array {d : Nat} {e : Ty} :
    NamesOnly qs (Ty.array d e) ↔ NamesOnly qs e := by
  simp [namesOnly_iff_parts (t := .array d e), parts]

@[simp] theorem namesOnly_pointer {t : Ty} : NamesOnly qs (Ty.pointer t) ↔ NamesOnly qs t := by
  simp [namesOnly_iff_parts (t := .pointer t), parts]

@[simp] theorem namesOnly_set {t : Ty} : NamesOnly qs (Ty.set t) ↔ NamesOnly qs t := by
  simp [namesOnly_iff_parts (t := .set t), parts]

@[simp] theorem namesOnly_subrange {t : Ty} : NamesOnly qs (Ty.subrange t) ↔ NamesOnly qs t := by
  simp [namesOnly_iff_parts (t := .subrange t), parts]

@[simp] theorem namesOnly_enum {values : List String} : NamesOnly qs (Ty.enum values) :=
  namesOnly_iff_parts.2 ⟨nofun, namesOnly_nil⟩

@[simp] theorem namesOnly_nil : NamesOnly qs Ty.nil :=
  namesOnly_iff_parts.2 ⟨nofun, SimFront.namesOnly_nil⟩

@[simp] theorem namesOnly_void : NamesOnly qs Ty.void :=
  namesOnly_iff_parts.2 ⟨nofun, SimFront.namesOnly_nil⟩

@[simp] theorem namesOnly_unknown : NamesOnly qs Ty.unknown :=
  namesOnly_iff_parts.2 ⟨nofun, SimFront.namesOnly_nil⟩

@[simp] theorem namesOnly_procedure {s : Signature} :
    NamesOnly qs (Ty.procedure s) ↔ NamesOnly qs s := by
  rw [namesOnly_iff_parts]
  exact and_iff_right nofun

@[simp] theorem namesOnly_record {fields : Members Ty} :
    NamesOnly qs (Ty.record fields) ↔ NamesOnly qs fields := by
  rw [namesOnly_iff_parts]
  exact (and_iff_right nofun).trans List.forall_mem_map

theorem namesOnly_object {o : ObjectInfo} : NamesOnly qs (Ty.object o) ↔
    NamesOnly qs o.bases ∧ NamesOnly qs o.fields ∧ NamesOnly qs o.methods := by
  rw [namesOnly_iff_parts, parts, namesOnly_append, namesOnly_append, and_assoc]
  have unnamed (m n : String) (h : Ty.object o = .named (some m) n) : m ∈ qs := by cases h
  refine (and_iff_right unnamed).trans (and_congr .rfl (and_congr List.forall_mem_map ?_))
  exact ⟨fun h e he t ht => h t (List.mem_flatMap.2 ⟨e, he, ht⟩), fun h t ht => by
    obtain ⟨e, he, ht⟩ := List.mem_flatMap.1 ht
    exact h e he t ht⟩

end Ty

@[simp] theorem Signature.namesOnly_iff {s : Signature} :
    NamesOnly qs s ↔ NamesOnly qs s.params ∧ NamesOnly qs s.result := by
  refine namesOnly_append.trans (and_congr List.forall_mem_map ?_)
  exact ⟨fun h t ht => h t (Option.mem_toList.2 ht), fun h t ht => h t (Option.mem_toList.1 ht)⟩

/-! ## Symbols, objects and bindings -/

instance : Naming Symbol := ⟨fun qs s => NamesOnly qs s.type ∧ NamesOnly qs s.origin?⟩

instance : Naming ResolvedObject := ⟨fun qs o => NamesOnly qs o.info ∧ NamesOnly qs o.origin?⟩

instance : Naming Member := ⟨fun qs m => NamesOnly qs m.type ∧ NamesOnly qs m.origin?⟩

instance : Naming Binding := ⟨fun qs b => ∀ s, b = .external s → NamesOnly qs s⟩

instance : Naming Lookup := ⟨fun qs found => ∀ b, found = .found b → NamesOnly qs b⟩

theorem namesOnly_declared (id : Nat) : NamesOnly qs (Binding.declared id) := fun _ h => nomatch h

theorem namesOnly_external {s : Symbol} : NamesOnly qs (Binding.external s) ↔ NamesOnly qs s :=
  ⟨fun h => h s rfl, fun h _ hs => Binding.external.inj hs ▸ h⟩

theorem namesOnly_unknowable : NamesOnly qs Lookup.unknowable := fun _ h => nomatch h

theorem namesOnly_missing : NamesOnly qs Lookup.missing := fun _ h => nomatch h

theorem namesOnly_found {b : Binding} (h : NamesOnly qs b) : NamesOnly qs (Lookup.found b) :=
  fun _ hb => Lookup.found.inj hb ▸ h

/-- A member of an object names what the object names. -/
theorem namesOnly_member? {o : ResolvedObject} (h : NamesOnly qs o) (name : String) :
    NamesOnly qs (o.member? name) := by
  obtain ⟨hinfo, horigin⟩ := h
  obtain ⟨-, hfields, hmethods⟩ := Ty.namesOnly_object.1 hinfo
  unfold ResolvedObject.member?
  intro m hm
  split at hm
  · next type hfind =>
    cases hm
    exact ⟨namesOnly_find? hfields hfind, horigin⟩
  · obtain ⟨method, hfind, rfl⟩ := Option.map_eq_some_iff.1 hm
    exact ⟨Ty.namesOnly_procedure.2 (namesOnly_find? hmethods hfind), horigin⟩

end SimFront
