import SimFront.Check.Basic
import SimFront.Check.Body
import SimFront.Check.Decl
import SimFront.Check.Expr
import SimFront.Check.Import
import SimFront.Check.Inheritance
import SimFront.Check.Module
import SimFront.Check.Name
import SimFront.Check.Override
import SimFront.Check.Resolve
import SimFront.Check.Stmt
import SimFront.Check.TypeSpec
import SimFront.Grammar.Context
import SimFront.Grammar.Decl
import SimFront.Grammar.Expr
import SimFront.Grammar.Module
import SimFront.Grammar.Parser
import SimFront.Grammar.Stmt
import SimFront.Grammar.TypeSpec
import SimFront.Numeral.Binary64
import SimFront.Proofs.Check.ByName
import SimFront.Proofs.Check.Declarations
import SimFront.Proofs.Check.Lookup
import SimFront.Proofs.Check.Search
import SimFront.Proofs.Check.Steps
import SimFront.Proofs.Grammar.Module
import SimFront.Proofs.Grammar.Expr
import SimFront.Proofs.Grammar.ErrorOrder
import SimFront.Proofs.Grammar.Reading
import SimFront.Proofs.Grammar.Run
import SimFront.Proofs.Grammar.Stmt
import SimFront.Proofs.Grammar.TypeSpec
import SimFront.Proofs.Text.LineIndex
import SimFront.Proofs.Text.Position
import SimFront.Proofs.Workspace.Consistent
import SimFront.Proofs.Workspace.Contents
import SimFront.Proofs.Workspace.Cycles
import SimFront.Proofs.Workspace.Documents
import SimFront.Proofs.Workspace.EditingOrder
import SimFront.Proofs.Workspace.Edges
import SimFront.Proofs.Workspace.Findings
import SimFront.Proofs.Workspace.Names
import SimFront.Proofs.Workspace.Path
import SimFront.Proofs.Workspace.Run
import SimFront.Proofs.Workspace.Search
import SimFront.Proofs.Workspace.SecondPass
import SimFront.Proofs.Workspace.Texts
import SimFront.Report.Diagnostic
import SimFront.Report.Severity
import SimFront.Report.SyntaxCode
import SimFront.Report.SyntaxError
import SimFront.Source
import SimFront.Symbol.Basic
import SimFront.Symbol.Lookup
import SimFront.Symbol.Table
import SimFront.Text.LineIndex
import SimFront.Text.Position
import SimFront.Token.Basic
import SimFront.Token.Comment
import SimFront.Token.Keyword
import SimFront.Token.Kind
import SimFront.Token.Literal
import SimFront.Token.Scan
import SimFront.Tree.Decl
import SimFront.Tree.Expr
import SimFront.Tree.Ident
import SimFront.Tree.Label
import SimFront.Tree.Module
import SimFront.Tree.Node
import SimFront.Tree.Stmt
import SimFront.Tree.TypeSpec
import SimFront.Tree.Walk
import SimFront.Types.Accepts
import SimFront.Types.Basic
import SimFront.Types.Builtin
import SimFront.Types.Equal
import SimFront.Types.Qualify
import SimFront.Workspace.Basic
import SimFront.Workspace.Config
import SimFront.Workspace.Cycles
import SimFront.Workspace.Document
import SimFront.Workspace.Edit
import SimFront.Workspace.FileTree
import SimFront.Workspace.Global
import SimFront.Workspace.Graph
import SimFront.Workspace.Index
import SimFront.Workspace.Path
import SimFront.Workspace.Replace
import SimFront.Workspace.SourceFile
import SimFront.Proofs.Token.Lexeme
import SimFront.Proofs.Token.Coverage
import SimFront.Proofs.Token.Literal
import SimFront.Proofs.Token.Nesting
import SimFront.Proofs.Token.Extent
import SimFront.Proofs.Token.Layout
import SimFront.Proofs.Token.Quoted
import SimFront.Proofs.Tree.Nested
import SimFront.Proofs.Grammar.Gathered
import SimFront.Proofs.Grammar.Gathering
import SimFront.Proofs.Grammar.ExprNodes
import SimFront.Proofs.Grammar.StmtNodes
import SimFront.Proofs.Grammar.TypeNodes
import SimFront.Proofs.Grammar.ModuleNodes
import SimFront.Proofs.Symbol.Named
import SimFront.Proofs.Check.Recorded
import SimFront.Proofs.Check.Found
import SimFront.Proofs.Check.Uses
import SimFront.Proofs.Check.Sites
import SimFront.Proofs.Check.ModuleSites
import SimFront.Proofs.Symbol.Declared
import SimFront.Proofs.Check.References
import SimFront.Proofs.Workspace.Merge
import SimFront.Proofs.Workspace.Globals
import SimFront.Proofs.Workspace.Refusals
import SimFront.Proofs.Symbol.Placed
import SimFront.Proofs.Check.Placed
import SimFront.Proofs.Symbol.Arenas
import SimFront.Tree.Shape
import SimFront.Grammar.Written
import SimFront.Proofs.Grammar.Takes
import SimFront.Proofs.Grammar.ExprTakes
import SimFront.Proofs.Grammar.StmtTakes
import SimFront.Proofs.Grammar.Writable
import SimFront.Proofs.Grammar.Printed
import SimFront.Proofs.Grammar.Tally
import SimFront.Proofs.Grammar.Lookahead
import SimFront.Proofs.Symbol.Renames
import SimFront.Tree.Gain
import SimFront.Proofs.Types.Avoids
import SimFront.Proofs.Symbol.Grafted
import SimFront.Proofs.Symbol.Grafting
import SimFront.Proofs.Symbol.Gained
import SimFront.Proofs.Check.Alike
import SimFront.Proofs.Check.AlikeLookup
import SimFront.Proofs.Check.AlikeExpr
import SimFront.Proofs.Check.AlikeDecl
import SimFront.Proofs.Check.AlikeBody
import SimFront.Proofs.Check.Touches
import SimFront.Tree.Beside
import SimFront.Proofs.Check.TouchesExpr
import SimFront.Proofs.Check.TouchesStmt
import SimFront.Proofs.Check.AlikeModule
import SimFront.Proofs.Check.NewType
import SimFront.Proofs.Check.Gains
import SimFront.Proofs.Check.LocalType
import SimFront.Proofs.Symbol.StandIn
import SimFront.Proofs.Check.StandIn
import SimFront.Proofs.Check.StandInDecl
import SimFront.Proofs.Check.StandInModule
import SimFront.Proofs.Check.StandInImport
import SimFront.Proofs.Check.Importing
import SimFront.Proofs.Check.OwnNames
import SimFront.Proofs.Check.Recast
import SimFront.Proofs.Check.RecastLookup
import SimFront.Proofs.Check.RecastExpr
import SimFront.Proofs.Check.RecastStmt
import SimFront.Proofs.Symbol.Reachable
import SimFront.Proofs.Symbol.BreadthFirst
import SimFront.Proofs.Symbol.Layout
import SimFront.Proofs.Tree.Scopes
import SimFront.Proofs.Check.ModuleScopes
import SimFront.Proofs.Check.Inherited
import SimFront.Proofs.Types.Qualified
import SimFront.Proofs.Check.Composed
import SimFront.Proofs.Check.ComposedDecl
import SimFront.Proofs.Check.Noted
import SimFront.Proofs.Check.Views
import SimFront.Proofs.Check.Rules
import SimFront.Proofs.Check.Circles
import SimFront.Proofs.Check.BaseMethods
import SimFront.Proofs.Check.Brought
import SimFront.Proofs.Check.ObjectMethods
import SimFront.Proofs.Check.LocalObjects
import SimFront.Proofs.Types.Subranges
import SimFront.Proofs.Check.Calls
import SimFront.Proofs.Check.Accesses
import SimFront.Proofs.Check.Performs
import SimFront.Proofs.Check.PerformsStmt
import SimFront.Proofs.Check.PerformsDecl
import SimFront.Proofs.Check.Visits
import SimFront.Proofs.Check.OutParams
import SimFront.Proofs.Check.Idle
import SimFront.Proofs.Check.Unused
import SimFront.Proofs.Check.UnusedDecl
import SimFront.Proofs.Check.UnusedReports
import SimFront.Proofs.Types.Parts
import SimFront.Proofs.Types.Assignable
import SimFront.Proofs.Text.Counting
import SimFront.Proofs.Check.Copies
import SimFront.Proofs.Tree.Listing
import SimFront.Proofs.Grammar.Course
import SimFront.Proofs.Grammar.Contexts
import SimFront.Proofs.Types.Naming
import SimFront.Proofs.Check.Confined
import SimFront.Proofs.Check.ConfinedExpr
import SimFront.Proofs.Check.ConfinedModule
