import TemplateAnalysis.Json.Printer
import TemplateAnalysis.Main
import TemplateAnalysis.Server.Session
import TemplateAnalysis.Proofs.Position
import TemplateAnalysis.Proofs.Template.Order
import TemplateAnalysis.Proofs.Scope.Tree
import TemplateAnalysis.Proofs.Scope.Laminar
import TemplateAnalysis.Proofs.Scope.Nesting
import TemplateAnalysis.Proofs.Template.Nesting
import TemplateAnalysis.Proofs.Host.Index
import TemplateAnalysis.Proofs.Identifier
import TemplateAnalysis.Proofs.Template.Reading
import TemplateAnalysis.Proofs.Template.References
import TemplateAnalysis.Proofs.Template.Declarations
import TemplateAnalysis.Proofs.Analysis
import TemplateAnalysis.Proofs.Corpus.Coherence
import TemplateAnalysis.Proofs.Corpus.Lookup
import TemplateAnalysis.Proofs.Workspace.History
import TemplateAnalysis.Proofs.Workspace.Agreement
import TemplateAnalysis.Proofs.Corpus.Bare
import TemplateAnalysis.Proofs.Corpus.Arrangement
import TemplateAnalysis.Proofs.Workspace.Alike
import TemplateAnalysis.Proofs.Workspace.Answers
import TemplateAnalysis.Proofs.Workspace.Independence
import TemplateAnalysis.Proofs.Syntax.Expression
import TemplateAnalysis.Proofs.Syntax.Lexing
import TemplateAnalysis.Proofs.Syntax.Scanning
import TemplateAnalysis.Proofs.Syntax.Phrase
import TemplateAnalysis.Proofs.Scope.Environment
import TemplateAnalysis.Proofs.Scope.Resolution
import TemplateAnalysis.Proofs.Syntax.Blocks
import TemplateAnalysis.Proofs.Syntax.Refinement
import TemplateAnalysis.Proofs.Template.Layout
import TemplateAnalysis.Proofs.Server.Shelf
import TemplateAnalysis.Proofs.Server.Following
import TemplateAnalysis.Proofs.Server.Session
import TemplateAnalysis.Proofs.Server.Diagnostics
import TemplateAnalysis.Proofs.Source
import TemplateAnalysis.Proofs.Scope.Visible
import TemplateAnalysis.Proofs.Scope.Agreement
import TemplateAnalysis.Proofs.Scope.Extension
import TemplateAnalysis.Proofs.Template.Usage
import TemplateAnalysis.Proofs.Template.Placement
import TemplateAnalysis.Proofs.Template.Naming
import TemplateAnalysis.Proofs.Template.Effects
import TemplateAnalysis.Proofs.Template.Growth
import TemplateAnalysis.Proofs.Template.Evaluation
import TemplateAnalysis.Proofs.Template.Classification
import TemplateAnalysis.Proofs.Template.Visibility
import TemplateAnalysis.Proofs.Cursor.Completion
import TemplateAnalysis.Proofs.Cursor.TemplateNames
import TemplateAnalysis.Proofs.Cursor.Targets
import TemplateAnalysis.Proofs.Source.Offsets
import TemplateAnalysis.Proofs.Shift
import TemplateAnalysis.Proofs.Template.Lookahead
import TemplateAnalysis.Proofs.Template.Moved
import TemplateAnalysis.Proofs.Scope.Embedding
import TemplateAnalysis.Proofs.Template.Embedding
import TemplateAnalysis.Proofs.Template.Concatenation
import TemplateAnalysis.Proofs.Template.RawPart
import TemplateAnalysis.Proofs.Checker.Loading
import TemplateAnalysis.Proofs.Checker.Contents
import TemplateAnalysis.Proofs.Checker.Runs
import TemplateAnalysis.Proofs.Syntax.Printing
import TemplateAnalysis.Proofs.Template.BlockScopes
import TemplateAnalysis.Proofs.Template.Comments
import TemplateAnalysis.Proofs.Scope.Keeping
import TemplateAnalysis.Proofs.Template.Header
import TemplateAnalysis.Proofs.Template.Keeping
import TemplateAnalysis.Proofs.Template.Parameters
import TemplateAnalysis.Proofs.Source.Spelling
import TemplateAnalysis.Proofs.Template.Spelling
import TemplateAnalysis.Proofs.Host.Spelling
import TemplateAnalysis.Proofs.Corpus.Spelling
import TemplateAnalysis.Proofs.Analysis.Conservation
import TemplateAnalysis.Proofs.Analysis.Reasons
import TemplateAnalysis.Proofs.Analysis.Keeping
import TemplateAnalysis.Proofs.Text
import TemplateAnalysis.Proofs.Host.Comments
import TemplateAnalysis.Proofs.Host.Covering
import TemplateAnalysis.Proofs.Host.Lexemes
import TemplateAnalysis.Proofs.Host.Literals
import TemplateAnalysis.Proofs.Template.Strings
import TemplateAnalysis.Proofs.Cursor.Edits
import TemplateAnalysis.Proofs.Template.NamedTemplates
import TemplateAnalysis.Proofs.Cursor.NamedStrings
import TemplateAnalysis.Proofs.Host.LiteralContent
import TemplateAnalysis.Proofs.Host.ContextItems
import TemplateAnalysis.Proofs.Host.KeywordArguments
import TemplateAnalysis.Proofs.Checker.Pointing
import TemplateAnalysis.Proofs.LinkHint
import TemplateAnalysis.Proofs.Server.Responses
import TemplateAnalysis.Proofs.Path.Order
import TemplateAnalysis.Proofs.FileTree.Location
import TemplateAnalysis.Proofs.Discovery
import TemplateAnalysis.Proofs.Server.Address
import TemplateAnalysis.Proofs.Server.Preload
import TemplateAnalysis.Proofs.Identifier.Normalization
