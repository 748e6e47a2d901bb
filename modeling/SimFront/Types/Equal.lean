import SimFront.Types.Basic

/-!
# Equality of types

Two types are equal when they are built alike.  Records and objects compare by
what looking up a name gives, so the order of their members plays no part.
-/

namespace SimFront

mutual

def Ty.same : Ty → Ty → Bool
  | .builtin a, .builtin b => a = b
  | .named m n, .named m' n' => m = m' && n = n'
  | .array d e, .array d' e' => d = d' && e.same e'
  | .record fs, .record fs' => sameFields [] fs fs' && hasNames fs fs'
  | .object o, .object o' => o.same o'
  | .pointer t, .pointer t' => t.same t'
  | .set t, .set t' => t.same t'
  | .subrange t, .subrange t' => t.same t'
  | .enum vs, .enum vs' => vs = vs'
  | .procedure s, .procedure s' => s.same s'
  | .nil, .nil => true
  | .void, .void => true
  | .unknown, .unknown => true
  | _, _ => false

def Signature.same : Signature → Signature → Bool
  | ⟨ps, r⟩, ⟨ps', r'⟩ => sameParams ps ps' && sameResult r r'

def sameResult : Option Ty → Option Ty → Bool
  | none, none => true
  | some t, some t' => t.same t'
  | _, _ => false

def sameParams : List ParamType → List ParamType → Bool
  | [], [] => true
  | ⟨m, t⟩ :: ps, p' :: ps' => m = p'.mode && t.same p'.type && sameParams ps ps'
  | _, _ => false

def ObjectInfo.same : ObjectInfo → ObjectInfo → Bool
  | ⟨bs, fs, ms⟩, ⟨bs', fs', ms'⟩ =>
    sameTypes bs bs' && (sameFields [] fs fs' && hasNames fs fs')
      && (sameMethods [] ms ms' && hasNames ms ms')

def sameTypes : List Ty → List Ty → Bool
  | [], [] => true
  | t :: ts, t' :: ts' => t.same t' && sameTypes ts ts'
  | _, _ => false

/-- Whether the other record gives each name the same type, names already seen apart. -/
def sameFields (seen : List String) : List (String × Ty) → List (String × Ty) → Bool
  | [], _ => true
  | (n, t) :: rest, other =>
    (seen.contains n ||
        match Members.find? other n with
        | some t' => t.same t'
        | none => false)
      && sameFields (n :: seen) rest other

def sameMethods (seen : List String) :
    List (String × MethodInfo) → List (String × MethodInfo) → Bool
  | [], _ => true
  | (n, m) :: rest, other =>
    (seen.contains n ||
        match Members.find? other n with
        | some m' => m.same m'
        | none => false)
      && sameMethods (n :: seen) rest other

def MethodInfo.same : MethodInfo → MethodInfo → Bool
  | ⟨d, s, o⟩, ⟨d', s', o'⟩ => d = d' && s.same s' && o = o'

/-- Whether all names of the second list are names of the first. -/
def hasNames {α : Type} (ms other : List (String × α)) : Bool :=
  other.all fun e => (Members.find? ms e.1).isSome

end

instance : BEq Ty := ⟨Ty.same⟩

instance : BEq Signature := ⟨Signature.same⟩

end SimFront
