import SimFront.Types.Builtin
import SimFront.Tree.TypeSpec

/-!
# Types as the analysis sees them

A name of a type stays a name, so that recursive types and types declared later
need no special treatment; it is looked up when it matters.  The members of a
record or an object are kept in the order of declaration (`Members`), but what
they mean is given by looking up names alone.
-/

namespace SimFront

/-! ## Named members -/

/-- Members by name, in the order in which their names first came up. -/
abbrev Members (α : Type) : Type := List (String × α)

namespace Members

variable {α : Type}

/-- Gives a name a value.  A name that is there already keeps its place. -/
def insert (ms : Members α) (name : String) (a : α) : Members α :=
  match ms with
  | [] => [(name, a)]
  | (n, b) :: rest => if n = name then (n, a) :: rest else (n, b) :: insert rest name a

def find? (ms : Members α) (name : String) : Option α := List.lookup name ms

def ofList (entries : List (String × α)) : Members α :=
  entries.foldl (fun ms e => insert ms e.1 e.2) []

/-- Giving a name a value changes what that name gives, and nothing else. -/
theorem find?_insert (ms : Members α) (name : String) (a : α) (other : String) :
    find? (insert ms name a) other = if other = name then some a else find? ms other := by
  unfold find?
  induction ms with
  | nil =>
    by_cases h : other = name
    · simp [insert, h]
    · simp only [insert, List.lookup_cons, List.lookup_nil, beq_false_of_ne h, if_neg h]
  | cons e rest ih =>
    obtain ⟨n, b⟩ := e
    by_cases hn : n = name
    · subst hn
      by_cases h : other = n
      · simp [insert, h]
      · simp only [insert, if_pos, List.lookup_cons, beq_false_of_ne h, if_neg h]
    · by_cases h : other = n
      · subst h
        simp [insert, hn]
      · simp only [insert, if_neg hn, List.lookup_cons, beq_false_of_ne h]
        exact ih

end Members

/-! ## Types -/

mutual

inductive Ty where
  | builtin (b : Builtin)
  /-- A declared type, by its name and the module it is declared in if it is another one. -/
  | named (module? : Option String) (name : String)
  | array (dimensions : Nat) (element : Ty)
  | record (fields : List (String × Ty))
  | object (info : ObjectInfo)
  | pointer (target : Ty)
  | set (element : Ty)
  | subrange (base : Ty)
  | enum (values : List String)
  | procedure (signature : Signature)
  /-- The type of NIL. -/
  | nil
  /-- No value at all. -/
  | void
  | unknown

/-- Parameters and result of a procedure or method. -/
structure Signature where
  params : List ParamType
  result : Option Ty

structure ParamType where
  mode : ParamMode
  type : Ty

/-- The members of an object type.  Bases are kept by name. -/
structure ObjectInfo where
  bases : List Ty
  fields : List (String × Ty)
  methods : List (String × MethodInfo)

structure MethodInfo where
  dispatch : Dispatch
  signature : Signature
  isOverride : Bool

end

instance : Inhabited Ty := ⟨.unknown⟩

instance : Inhabited Signature := ⟨⟨[], none⟩⟩

instance : Inhabited ObjectInfo := ⟨⟨[], [], []⟩⟩

namespace Ty

def integer : Ty := .builtin .integer
def real : Ty := .builtin .real
def boolean : Ty := .builtin .boolean
def char : Ty := .builtin .char
def string : Ty := .builtin .string
def anyObj : Ty := .builtin .anyObj
def anyRec : Ty := .builtin .anyRec

def ofBuiltinName? (name : String) : Option Ty := (Builtin.ofName? name).map .builtin

/-! ## Classes of types -/

def isUnknown : Ty → Bool
  | .unknown => true
  | _ => false

def isInteger : Ty → Bool
  | .builtin .integer | .builtin .longInt | .builtin .cardinal => true
  | .subrange base => base.isInteger
  | _ => false

def isReal : Ty → Bool
  | .builtin .real | .builtin .longReal => true
  | _ => false

def isNumeric (t : Ty) : Bool := t.isInteger || t.isReal

/-- Whether the values of a type can be NIL. -/
def isReference : Ty → Bool
  | .pointer _ | .object _ | .builtin .anyObj | .builtin .anyRec | .record _ | .array _ _
  | .procedure _ | .named _ _ | .nil => true
  | _ => false

/-- Module and name of a type that is just a name. -/
def named? : Ty → Option (Option String × String)
  | .named m n => some (m, n)
  | _ => none

/-! ## How messages show types -/

def display : Ty → String
  | .builtin b => b.text
  | .named (some m) n => s!"{m}.{n}"
  | .named none n => n
  | .array _ element => s!"ARRAY OF {element.display}"
  | .record _ => "RECORD"
  | .object _ => "OBJECT"
  | .pointer target => s!"POINTER TO {target.display}"
  | .set element => s!"SET OF {element.display}"
  | .subrange base => s!"subrange of {base.display}"
  | .enum values => "(" ++ ", ".intercalate values ++ ")"
  | .procedure _ => "PROCEDURE"
  | .nil => "NIL"
  | .void => "no value"
  | .unknown => "unknown"

end Ty

namespace ParamType

def display (p : ParamType) : String := s!"{p.mode.text} {p.type.display}"

end ParamType

namespace Signature

/-- Parameters in parentheses, and the result after a colon if there is one. -/
def display (s : Signature) : String :=
  let params := "(" ++ ", ".intercalate (s.params.map (·.display)) ++ ")"
  match s.result with
  | some r => s!"{params} : {r.display}"
  | none => params

end Signature

end SimFront
