import SimFront.Grammar.Parser
import SimFront.Workspace.Path

/-!
# Configuration of a workspace
-/

namespace SimFront

/-- Where the sources of a workspace are, and how they are processed. -/
structure Config where
  roots : List Path := []
  /-- The extension of source files, without the dot. -/
  extension : String := "mod"
  /-- Names of directories that are never searched. -/
  skippedDirs : List String := ["node_modules", "target", "build"]
  mode : Mode := .recovery
  /-- Whether files may be analysed at the same time, which changes no result. -/
  parallel : Bool := true
deriving BEq

namespace Config

/-- The same configuration for one root alone. -/
def withRoot (c : Config) (root : Path) : Config := { c with roots := [root] }

end Config

end SimFront
