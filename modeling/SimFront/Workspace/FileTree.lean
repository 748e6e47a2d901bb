import SimFront.Workspace.Path

/-!
# Trees of files

The files and directories that a workspace reads.  A path leads from the top of the
tree through its parts; all parts but the last have to be directories.
-/

namespace SimFront

inductive FileTree where
  | file (content : ByteArray)
  | directory (entries : List (String × FileTree))

namespace FileTree

def empty : FileTree := .directory []

instance : Inhabited FileTree := ⟨empty⟩

def isDirectory : FileTree → Bool
  | .directory _ => true
  | .file _ => false

def entries : FileTree → List (String × FileTree)
  | .directory es => es
  | .file _ => []

/-! ## Following paths -/

/-- The entry below a tree along some names. -/
def below? : FileTree → List String → Option FileTree
  | t, [] => some t
  | t, n :: ns => (List.lookup n t.entries).bind (·.below? ns)
termination_by structural _ ns => ns

/-- The names that lead to the entry at the end of some parts of a path, which are followed
from the directory that `at_` leads to. -/
def follow (t : FileTree) : (at_ : List String) → List String → Option (List String)
  | at_, [] => some at_
  | at_, piece :: rest =>
    if (t.below? at_).any isDirectory then
      if piece = "" ∨ piece = "." then follow t at_ rest
      else if piece = ".." then
        if at_.isEmpty then none else follow t at_.dropLast rest
      else if (t.below? (at_ ++ [piece])).isSome then follow t (at_ ++ [piece]) rest
      else none
    else none

/-- The names on the way to what a path leads to.  Absolute paths lead out of the tree. -/
def locate? (t : FileTree) (p : Path) : Option (List String) :=
  if p.text.isEmpty || p.isAbsolute then none else t.follow [] p.pieces

def find? (t : FileTree) (p : Path) : Option FileTree := (t.locate? p).bind t.below?

/-! ## Reading -/

/-- Why a file has no text. -/
inductive ReadError where
  | missing
  | notUtf8
deriving DecidableEq, Repr

namespace ReadError

def reason : ReadError → String
  | missing => "no such file"
  | notUtf8 => "stream did not contain valid UTF-8"

end ReadError

/-- The text of a file. -/
def read (t : FileTree) (p : Path) : Except ReadError String :=
  match t.find? p with
  | some (.file content) =>
    match String.fromUTF8? content with
    | some text => .ok text
    | none => .error .notUtf8
  | _ => .error .missing

/-- Whether directories of a name are left out of searches: hidden ones, and those listed. -/
def isSkipped (skipped : List String) (name : String) : Bool :=
  name.startsWith "." || skipped.contains name

mutual

/-- The files with an extension in a tree whose path is `at_`. -/
def sourcesAt (extension : String) (skipped : List String) (at_ : Path) : FileTree → List Path
  | .file _ => if at_.hasExtension extension then [at_] else []
  | .directory entries => sourcesIn extension skipped at_ entries

def sourcesIn (extension : String) (skipped : List String) (at_ : Path) :
    List (String × FileTree) → List Path
  | [] => []
  | (name, t) :: rest =>
    (if t.isDirectory && isSkipped skipped name then []
      else sourcesAt extension skipped (at_.join name) t)
      ++ sourcesIn extension skipped at_ rest

end

/-- All files with an extension below a path, in order.  The path itself is never left out,
whatever its name is. -/
def sources (t : FileTree) (extension : String) (skipped : List String) (root : Path) :
    List Path :=
  match t.find? root with
  | some found => (sourcesAt extension skipped root found).mergeSort Path.le
  | none => []

/-! ## Changing -/

/-- Replaces the entry of a name, or adds one at the end. -/
def setEntry (name : String) (t : FileTree) : List (String × FileTree) → List (String × FileTree)
  | [] => [(name, t)]
  | (n, old) :: rest => if n = name then (n, t) :: rest else (n, old) :: setEntry name t rest

/-- Puts a file or a directory at the end of some names, and makes the directories on the
way.  Nothing changes where a file is in the way, or where a directory is there already. -/
def put (new : FileTree) : List String → FileTree → FileTree
  | _, .file content => .file content
  | [], .directory entries => .directory entries
  | [n], .directory entries =>
    match List.lookup n entries with
    | none => .directory (setEntry n new entries)
    | some (.directory _) => .directory entries
    | some (.file _) =>
      if new.isDirectory then .directory entries else .directory (setEntry n new entries)
  | n :: ns, .directory entries =>
    .directory (setEntry n (put new ns ((List.lookup n entries).getD empty)) entries)

/-- The names of a path made up of names, with single dots left out. -/
def plainNames? (p : Path) : Option (List String) :=
  p.components.foldr (fun c names =>
    match c with
    | .current => names
    | .name n => names.map (n :: ·)
    | .root | .parent => none) (some [])

/-- Whether a path says that it leads to a directory, by what its last part is. -/
def namesDirectory (p : Path) : Bool :=
  p.pieces.getLast?.any fun piece => piece = "" ∨ piece = "."

/-- Writes a file or a directory at a path made up of names; other paths are not written. -/
def write (t : FileTree) (p : Path) (new : FileTree) : FileTree :=
  match plainNames? p with
  | some names => if namesDirectory p && !new.isDirectory then t else put new names t
  | none => t

/-- Takes away what lies at the end of some names. -/
def removeAt : List String → FileTree → FileTree
  | _, .file content => .file content
  | [], .directory _ => empty
  | [n], .directory entries => .directory (entries.filter fun e => e.1 ≠ n)
  | n :: ns, .directory entries =>
    .directory (entries.map fun e => if e.1 = n then (e.1, removeAt ns e.2) else e)

/-- Deletes a file, or a directory with all that is in it. -/
def delete (t : FileTree) (p : Path) : FileTree :=
  match t.locate? p with
  | some names => removeAt names t
  | none => t

end FileTree

end SimFront
