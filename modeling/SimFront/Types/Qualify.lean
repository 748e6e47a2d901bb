import SimFront.Types.Equal

/-!
# Types seen from another module

A type that leaves its module takes the module's name along wherever it mentions
a type by a bare name (`Ty.qualify`).  Methods that override each other are
compared without regard to such qualification (`Signature.overrides`).
-/

namespace SimFront

/-! ## Qualification -/

mutual

/-- Puts the module in front of every bare type name. -/
def Ty.qualify (module : String) : Ty → Ty
  | .named none n => .named (some module) n
  | .array d e => .array d (e.qualify module)
  | .record fs => .record (qualifyFields module fs)
  | .object o => .object (o.qualify module)
  | .pointer t => .pointer (t.qualify module)
  | .set t => .set (t.qualify module)
  | .subrange t => .subrange (t.qualify module)
  | .procedure s => .procedure (s.qualify module)
  | t => t

def Signature.qualify (module : String) : Signature → Signature
  | ⟨ps, r⟩ => ⟨qualifyParams module ps, qualifyResult module r⟩

def qualifyResult (module : String) : Option Ty → Option Ty
  | some t => some (t.qualify module)
  | none => none

def qualifyParams (module : String) : List ParamType → List ParamType
  | [] => []
  | ⟨m, t⟩ :: ps => ⟨m, t.qualify module⟩ :: qualifyParams module ps

def ObjectInfo.qualify (module : String) : ObjectInfo → ObjectInfo
  | ⟨bs, fs, ms⟩ => ⟨qualifyAll module bs, qualifyFields module fs, qualifyMethods module ms⟩

def qualifyAll (module : String) : List Ty → List Ty
  | [] => []
  | t :: ts => t.qualify module :: qualifyAll module ts

def qualifyFields (module : String) : List (String × Ty) → List (String × Ty)
  | [] => []
  | (n, t) :: fs => (n, t.qualify module) :: qualifyFields module fs

def qualifyMethods (module : String) : List (String × MethodInfo) → List (String × MethodInfo)
  | [] => []
  | (n, m) :: ms => (n, m.qualify module) :: qualifyMethods module ms

def MethodInfo.qualify (module : String) : MethodInfo → MethodInfo
  | ⟨d, s, o⟩ => ⟨d, s.qualify module, o⟩

end

/-! ## Comparison for overriding -/

/-- Whether two types are equal when type names are compared without their modules.  Only
names under pointers, sets, subranges and arrays are compared in this way. -/
def Ty.alike : Ty → Ty → Bool
  | .named _ n, .named _ n' => n = n'
  | .pointer t, .pointer t' => t.alike t'
  | .set t, .set t' => t.alike t'
  | .subrange t, .subrange t' => t.alike t'
  | .array d e, .array d' e' => d = d' && e.alike e'
  | a, b => a == b

def alikeParams : List ParamType → List ParamType → Bool
  | [], [] => true
  | p :: ps, p' :: ps' => p.mode = p'.mode && p.type.alike p'.type && alikeParams ps ps'
  | _, _ => false

/-- Whether a method with signature `s` may override one with signature `base`. -/
def Signature.overrides (s base : Signature) : Bool :=
  alikeParams s.params base.params &&
    match s.result, base.result with
    | some r, some r' => r.alike r'
    | none, none => true
    | _, _ => false

end SimFront
