/-!
# Paths

A path keeps the text it was written as, but it is its components that tell paths
apart and put them in order: doubled slashes, a slash at the end and single dots in
the middle play no part, and a dot at the start does.  `PathSet` is a set of paths
in their order.
-/

namespace SimFront

/-- A part of a path.  The order of the constructors is the order of components. -/
inductive Component where
  /-- The slash that an absolute path starts with. -/
  | root
  /-- A dot at the start. -/
  | current
  | parent
  | name (text : String)
deriving DecidableEq, Repr, Ord

/-- A path as it was written. -/
structure Path where
  text : String
deriving Repr, Inhabited

namespace Path

/-- The stretches of some characters between the places of one of them. -/
def stretches (at_ : Char) : List Char → List (List Char)
  | [] => [[]]
  | c :: cs =>
    if c = at_ then [] :: stretches at_ cs
    else match stretches at_ cs with
      | [] => [[c]]
      | s :: rest => (c :: s) :: rest

/-- The parts of a text between the places of a character. -/
def parts (at_ : Char) (text : String) : List String :=
  (stretches at_ text.toList).map String.ofList

/-- The parts between the slashes. -/
def pieces (p : Path) : List String := parts '/' p.text

def isAbsolute (p : Path) : Bool := p.text.startsWith "/"

/-- The component that a part stands for; empty parts and dots stand for none. -/
def componentOf? (piece : String) : Option Component :=
  if piece = "" ∨ piece = "." then none
  else if piece = ".." then some .parent
  else some (.name piece)

/-- What a path starts with beside its names. -/
def lead (p : Path) : List Component :=
  if p.isAbsolute then [.root]
  else if p.pieces.head? = some "." then [.current]
  else []

def components (p : Path) : List Component := p.lead ++ p.pieces.filterMap componentOf?

/-- Paths are equal when their components are. -/
instance : BEq Path := ⟨fun p q => p.components = q.components⟩

/-- Component by component, and a path before what lies below it. -/
instance : Ord Path := ⟨fun p q => compareOn components p q⟩

def le (p q : Path) : Bool := (compare p q).isLE

/-- The path of an entry of a directory. -/
def join (p : Path) (name : String) : Path :=
  if p.text.isEmpty || p.text.endsWith "/" then ⟨p.text ++ name⟩ else ⟨p.text ++ "/" ++ name⟩

/-- The last component, when it is a name. -/
def fileName? (p : Path) : Option String :=
  match p.components.getLast? with
  | some (.name n) => some n
  | _ => none

/-- What follows the last dot of a file name.  A dot at the start of the name does not
count. -/
def extension? (p : Path) : Option String :=
  match p.fileName?.map (parts '.') with
  | none | some [] | some [_] | some ["", _] => none
  | some parts => parts.getLast?

def hasExtension (p : Path) (extension : String) : Bool := p.extension? = some extension

/-- Puts paths in order.  Of equal ones only the first stays. -/
def sortUnique (ps : List Path) : List Path :=
  (ps.mergeSort le).foldr
    (fun p kept => p :: kept.filter fun q => !(q == p)) []

end Path

/-! ## Sets -/

/-- A set of paths, listed in order. -/
structure PathSet where
  toList : List Path := []
deriving Inhabited

namespace PathSet

def contains (s : PathSet) (p : Path) : Bool := s.toList.any (· == p)

def insertIn (p : Path) : List Path → List Path
  | [] => [p]
  | q :: rest =>
    match compare p q with
    | .lt => p :: q :: rest
    | .eq => q :: rest
    | .gt => q :: insertIn p rest

/-- Adds a path.  One that is there already stays as it was written. -/
def insert (s : PathSet) (p : Path) : PathSet := ⟨insertIn p s.toList⟩

def erase (s : PathSet) (p : Path) : PathSet := ⟨s.toList.filter fun q => !(q == p)⟩

def ofList (ps : List Path) : PathSet := ps.foldl insert {}

/-- The paths of the first set that are not in the second, in order. -/
def diff (s t : PathSet) : List Path := s.toList.filter fun p => !t.contains p

def size (s : PathSet) : Nat := s.toList.length

end PathSet

end SimFront
