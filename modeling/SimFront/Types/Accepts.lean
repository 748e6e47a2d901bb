import SimFront.Types.Equal

/-!
# Which values a place of some type can hold

`Ty.accepts` decides whether a value of one type can be stored in a place of
another.  Whole numbers mix freely and widen to reals, NIL fits every type of
reference, and a subrange is as its base.  An unknown type fits everywhere, and
so does a name, which only the analysis can look up.
-/

namespace SimFront.Ty

/-- Whether a place of type `target` can hold a value of type `source`. -/
def accepts (target source : Ty) : Bool :=
  if target.isUnknown || source.isUnknown || target == source then true
  else match target, source with
    | target, .nil => target.isReference
    | .subrange base, source =>
      (base.isInteger && source.isInteger) || base.accepts source
    | .set a, .set b => a.accepts b
    | .pointer a, .pointer b => a.accepts b
    | target, source =>
      (target.isInteger && source.isInteger) || (target.isReal && source.isNumeric)
        || match target, source with
          | .builtin .string, .builtin .char => true
          | .named _ _, _ | _, .named _ _ => true
          | .builtin .anyObj, .object _ => true
          | .builtin .anyRec, .record _ => true
          | _, _ => false

/-- A value of which nothing is known fits everywhere. -/
theorem accepts_unknown (target : Ty) : target.accepts .unknown = true := by
  rw [accepts.eq_def]
  simp [isUnknown]

end SimFront.Ty

namespace SimFront.Signature

/-- Whether two signatures have the same parameters, modes and types, and the same result. -/
def agrees (a b : Signature) : Bool := a == b

end SimFront.Signature
