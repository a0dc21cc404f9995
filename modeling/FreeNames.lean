import FreeNames.Analysis
import FreeNames.Edit
import FreeNames.Fault
import FreeNames.Global
import FreeNames.Grammar.Binding
import FreeNames.Grammar.Callable
import FreeNames.Grammar.Class
import FreeNames.Grammar.Collection
import FreeNames.Grammar.Draft
import FreeNames.Grammar.Key
import FreeNames.Grammar.ModuleItem
import FreeNames.Grammar.Operand
import FreeNames.Grammar.Operator
import FreeNames.Grammar.Parse
import FreeNames.Grammar.Production
import FreeNames.Grammar.Statement
import FreeNames.Json
import FreeNames.Kind
import FreeNames.Options
import FreeNames.Options.Document
import FreeNames.Path
import FreeNames.Problem
import FreeNames.Proofs.Built
import FreeNames.Proofs.Bytes
import FreeNames.Proofs.Covering
import FreeNames.Proofs.Drafting
import FreeNames.Proofs.Expressions
import FreeNames.Proofs.Flow
import FreeNames.Proofs.FreeOccurrences
import FreeNames.Proofs.FreshName
import FreeNames.Proofs.Lossless
import FreeNames.Proofs.Moving
import FreeNames.Proofs.Neighbours
import FreeNames.Proofs.Places
import FreeNames.Proofs.Progress
import FreeNames.Proofs.Regrouping
import FreeNames.Proofs.Relexing
import FreeNames.Proofs.Renaming
import FreeNames.Proofs.Reparsing
import FreeNames.Proofs.Replacing
import FreeNames.Proofs.Reporting
import FreeNames.Proofs.Rescanning
import FreeNames.Proofs.Respelling
import FreeNames.Proofs.Running
import FreeNames.Proofs.Scanning
import FreeNames.Proofs.Script
import FreeNames.Proofs.Sites
import FreeNames.Proofs.Sorting
import FreeNames.Proofs.Splicing
import FreeNames.Proofs.Statements
import FreeNames.Proofs.Substitution
import FreeNames.Proofs.Tokens
import FreeNames.Proofs.Twins
import FreeNames.Proofs.Undotted
import FreeNames.Proofs.Units
import FreeNames.Rename
import FreeNames.Scope
import FreeNames.Sort
import FreeNames.Text
import FreeNames.Text.Position
import FreeNames.Text.Utf8
import FreeNames.Text.Xid
import FreeNames.Token
import FreeNames.Token.Delimited
import FreeNames.Token.Keyword
import FreeNames.Token.Name
import FreeNames.Token.Number
import FreeNames.Token.Punct
import FreeNames.Token.Tokenize
import FreeNames.Tree
import FreeNames.Tree.Builder
import FreeNames.Tree.Node
import FreeNames.Tree.NodeKind
import FreeNames.Tree.View
import FreeNames.Proofs.SourceTypes
import FreeNames.Proofs.Trivia
import FreeNames.Proofs.Commuting
import FreeNames.Proofs.Sequences
import FreeNames.Proofs.Aliases
import FreeNames.Proofs.Foresight
import FreeNames.Proofs.ReservedProperties
import FreeNames.Proofs.Growth
import FreeNames.Proofs.Templates
import FreeNames.Proofs.Backticks
import FreeNames.Proofs.Reading
import FreeNames.Proofs.Margins
import FreeNames.Proofs.Shapes
import FreeNames.Proofs.Preorder
import FreeNames.Proofs.Grouping
import FreeNames.Proofs.Following
import FreeNames.Proofs.Entry
import FreeNames.Proofs.Tally
import FreeNames.Proofs.Spelling
import FreeNames.Proofs.Brackets
import FreeNames.Proofs.Layouts
import FreeNames.Proofs.Precedence
import FreeNames.Proofs.Patterns
import FreeNames.Proofs.Declarations
import FreeNames.Proofs.Roles
import FreeNames.Proofs.Nesting
import FreeNames.Proofs.Slashes
import FreeNames.Proofs.SourceOrder
import FreeNames.Proofs.LineBreaks
import FreeNames.Proofs.Punctuation
import FreeNames.Proofs.Footing
import FreeNames.Proofs.Semicolons
import FreeNames.Proofs.Paths
import FreeNames.Proofs.Documents
import FreeNames.Proofs.Positions
import FreeNames.Proofs.Targets
