import SimFront.Types.Qualify

/-!
# Types that do not mention some names

`Ty.Avoids names` says of a type that it mentions none of the names without a module in
front.  What is seen from another module mentions no name so (`Ty.avoids_qualify`), and
what a type is built from avoids the names if the type does.
-/

namespace SimFront

mutual

def Ty.Avoids (names : List String) : Ty → Prop
  | .named none n => n ∉ names
  | .array _ e => e.Avoids names
  | .record fs => FieldsAvoid names fs
  | .object o => o.Avoids names
  | .pointer t => t.Avoids names
  | .set t => t.Avoids names
  | .subrange t => t.Avoids names
  | .procedure s => s.Avoids names
  | _ => True

def Signature.Avoids (names : List String) : Signature → Prop
  | ⟨ps, r⟩ => ParamsAvoid names ps ∧ ResultAvoids names r

def ResultAvoids (names : List String) : Option Ty → Prop
  | some t => t.Avoids names
  | none => True

def ParamsAvoid (names : List String) : List ParamType → Prop
  | [] => True
  | ⟨_, t⟩ :: ps => t.Avoids names ∧ ParamsAvoid names ps

def ObjectInfo.Avoids (names : List String) : ObjectInfo → Prop
  | ⟨bs, fs, ms⟩ => TypesAvoid names bs ∧ FieldsAvoid names fs ∧ MethodsAvoid names ms

def TypesAvoid (names : List String) : List Ty → Prop
  | [] => True
  | t :: ts => t.Avoids names ∧ TypesAvoid names ts

def FieldsAvoid (names : List String) : List (String × Ty) → Prop
  | [] => True
  | (_, t) :: fs => t.Avoids names ∧ FieldsAvoid names fs

def MethodsAvoid (names : List String) : List (String × MethodInfo) → Prop
  | [] => True
  | (_, ⟨_, s, _⟩) :: ms => s.Avoids names ∧ MethodsAvoid names ms

end

variable {names : List String}

/-! ## Types of other modules -/

mutual

/-- What is seen from another module mentions no type without its module. -/
theorem Ty.avoids_qualify (module : String) : ∀ t : Ty, (t.qualify module).Avoids names
  | .named none n | .named (some m) n => by simp only [Ty.qualify, Ty.Avoids]
  | .array d e => by
    rw [Ty.qualify, Ty.Avoids]
    exact e.avoids_qualify module
  | .record fs => by
    rw [Ty.qualify, Ty.Avoids]
    exact fieldsAvoid_qualify module fs
  | .object o => by
    rw [Ty.qualify, Ty.Avoids]
    exact o.avoids_qualify module
  | .pointer t | .set t | .subrange t => by
    rw [Ty.qualify, Ty.Avoids]
    exact t.avoids_qualify module
  | .procedure s => by
    rw [Ty.qualify, Ty.Avoids]
    exact s.avoids_qualify module
  | .builtin _ | .enum _ | .nil | .void | .unknown => by simp only [Ty.qualify, Ty.Avoids]

theorem Signature.avoids_qualify (module : String) :
    ∀ s : Signature, (s.qualify module).Avoids names
  | ⟨ps, r⟩ => by
    rw [Signature.qualify, Signature.Avoids]
    exact ⟨paramsAvoid_qualify module ps, resultAvoids_qualify module r⟩

theorem resultAvoids_qualify (module : String) :
    ∀ r : Option Ty, ResultAvoids names (qualifyResult module r)
  | some t => by
    rw [qualifyResult, ResultAvoids]
    exact t.avoids_qualify module
  | none => by simp only [qualifyResult, ResultAvoids]

theorem paramsAvoid_qualify (module : String) :
    ∀ ps : List ParamType, ParamsAvoid names (qualifyParams module ps)
  | [] => by simp only [qualifyParams, ParamsAvoid]
  | ⟨m, t⟩ :: ps => by
    rw [qualifyParams, ParamsAvoid]
    exact ⟨t.avoids_qualify module, paramsAvoid_qualify module ps⟩

theorem ObjectInfo.avoids_qualify (module : String) :
    ∀ o : ObjectInfo, (o.qualify module).Avoids names
  | ⟨bs, fs, ms⟩ => by
    rw [ObjectInfo.qualify, ObjectInfo.Avoids]
    exact ⟨typesAvoid_qualify module bs, fieldsAvoid_qualify module fs,
      methodsAvoid_qualify module ms⟩

theorem typesAvoid_qualify (module : String) :
    ∀ ts : List Ty, TypesAvoid names (qualifyAll module ts)
  | [] => by simp only [qualifyAll, TypesAvoid]
  | t :: ts => by
    rw [qualifyAll, TypesAvoid]
    exact ⟨t.avoids_qualify module, typesAvoid_qualify module ts⟩

theorem fieldsAvoid_qualify (module : String) :
    ∀ fs : List (String × Ty), FieldsAvoid names (qualifyFields module fs)
  | [] => by simp only [qualifyFields, FieldsAvoid]
  | (n, t) :: fs => by
    rw [qualifyFields, FieldsAvoid]
    exact ⟨t.avoids_qualify module, fieldsAvoid_qualify module fs⟩

theorem methodsAvoid_qualify (module : String) :
    ∀ ms : List (String × MethodInfo), MethodsAvoid names (qualifyMethods module ms)
  | [] => by simp only [qualifyMethods, MethodsAvoid]
  | (n, ⟨d, s, o⟩) :: ms => by
    rw [qualifyMethods, MethodInfo.qualify, MethodsAvoid]
    exact ⟨s.avoids_qualify module, methodsAvoid_qualify module ms⟩

end

/-! ## Lists -/

theorem fieldsAvoid_iff {fs : List (String × Ty)} :
    FieldsAvoid names fs ↔ ∀ e ∈ fs, e.2.Avoids names := by
  induction fs with
  | nil => simp [FieldsAvoid]
  | cons e fs ih => simp [FieldsAvoid, ih]

theorem methodsAvoid_iff {ms : List (String × MethodInfo)} :
    MethodsAvoid names ms ↔ ∀ e ∈ ms, e.2.signature.Avoids names := by
  induction ms with
  | nil => simp [MethodsAvoid]
  | cons e ms ih =>
    obtain ⟨n, d, s, o⟩ := e
    rw [MethodsAvoid, ih, List.forall_mem_cons]

theorem typesAvoid_iff {ts : List Ty} : TypesAvoid names ts ↔ ∀ t ∈ ts, t.Avoids names := by
  induction ts with
  | nil => simp [TypesAvoid]
  | cons t ts ih => simp [TypesAvoid, ih]

theorem paramsAvoid_iff {ps : List ParamType} :
    ParamsAvoid names ps ↔ ∀ p ∈ ps, p.type.Avoids names := by
  induction ps with
  | nil => simp [ParamsAvoid]
  | cons p ps ih =>
    obtain ⟨m, t⟩ := p
    rw [ParamsAvoid, ih, List.forall_mem_cons]

namespace Members

variable {α : Type}

theorem mem_of_find? {ms : Members α} {name : String} {a : α} (h : find? ms name = some a) :
    (name, a) ∈ ms := by
  obtain ⟨l, r, hms, -⟩ := List.lookup_eq_some_iff.1 h
  rw [hms]
  exact List.mem_append_right l List.mem_cons_self

theorem mem_insert {ms : Members α} {name : String} {a : α} {e : String × α}
    (h : e ∈ insert ms name a) : e = (name, a) ∨ e ∈ ms := by
  induction ms with
  | nil => exact .inl (List.mem_singleton.1 h)
  | cons m ms ih =>
    unfold insert at h
    split at h
    · next heq =>
      rcases List.mem_cons.1 h with rfl | h
      · exact .inl (by rw [heq])
      · exact .inr (List.mem_cons_of_mem _ h)
    · rcases List.mem_cons.1 h with rfl | h
      · exact .inr List.mem_cons_self
      · exact (ih h).imp_right (List.mem_cons_of_mem _)

/-- The members of a list are entries of it. -/
theorem mem_ofList {entries : List (String × α)} {e : String × α} (h : e ∈ ofList entries) :
    e ∈ entries := by
  have fold : ∀ (entries : List (String × α)) (ms : Members α),
      e ∈ entries.foldl (fun ms e => insert ms e.1 e.2) ms → e ∈ ms ∨ e ∈ entries := by
    intro entries
    induction entries with
    | nil => exact fun ms h => .inl h
    | cons x xs ih =>
      intro ms h
      obtain h | h := ih (insert ms x.1 x.2) h
      · rcases mem_insert h with rfl | h
        · exact .inr List.mem_cons_self
        · exact .inl h
      · exact .inr (List.mem_cons_of_mem x h)
  exact (fold entries [] h).resolve_left fun h => nomatch h

end Members

/-! ## What an object or a signature is built from -/

namespace ObjectInfo

variable {o : ObjectInfo}

theorem Avoids.base (h : o.Avoids names) : ∀ t ∈ o.bases, t.Avoids names := by
  obtain ⟨bs, fs, ms⟩ := o
  rw [ObjectInfo.Avoids] at h
  exact typesAvoid_iff.1 h.1

theorem Avoids.field (h : o.Avoids names) {name : String} {t : Ty}
    (hfind : Members.find? o.fields name = some t) : t.Avoids names := by
  obtain ⟨bs, fs, ms⟩ := o
  rw [ObjectInfo.Avoids] at h
  exact fieldsAvoid_iff.1 h.2.1 _ (Members.mem_of_find? hfind)

theorem Avoids.method (h : o.Avoids names) : ∀ e ∈ o.methods, e.2.signature.Avoids names := by
  obtain ⟨bs, fs, ms⟩ := o
  rw [ObjectInfo.Avoids] at h
  exact methodsAvoid_iff.1 h.2.2

end ObjectInfo

namespace Signature

variable {s : Signature}

theorem Avoids.param (h : s.Avoids names) : ∀ p ∈ s.params, p.type.Avoids names := by
  obtain ⟨ps, r⟩ := s
  rw [Signature.Avoids] at h
  exact paramsAvoid_iff.1 h.1

theorem Avoids.result (h : s.Avoids names) {t : Ty} (ht : s.result = some t) : t.Avoids names := by
  obtain ⟨ps, r⟩ := s
  rw [Signature.Avoids] at h
  cases ht
  exact h.2

end Signature

end SimFront
