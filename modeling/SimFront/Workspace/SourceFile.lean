import SimFront.Source
import SimFront.Workspace.FileTree

/-!
# Source files

Reads the text of a source file, which is known by its extension.
-/

namespace SimFront

/-- Why the text of a source file cannot be had. -/
inductive LoadError where
  | unreadable (path : Path)
  | unsupportedExtension (path : Path) (expected : String)

namespace LoadError

def message : LoadError → String
  | unreadable p => s!"failed to read {p.text}"
  | unsupportedExtension p expected =>
    s!"unsupported file extension for {p.text}, expected .{expected}"

end LoadError

namespace FileTree

/-- The text of a file that has to have an extension. -/
def readSource (files : FileTree) (p : Path) (extension : String) : Except LoadError String :=
  if p.hasExtension extension then
    match files.read p with
    | .ok text => .ok text
    | .error _ => .error (.unreadable p)
  else .error (.unsupportedExtension p extension)

/-- Reads and parses a file that has to have an extension. -/
def parseSource (files : FileTree) (p : Path) (extension : String) (mode : Mode) :
    Except LoadError Source := do
  pure (.ofText (← files.readSource p extension) mode)

end FileTree

end SimFront
