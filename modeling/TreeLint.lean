import TreeLint.Analysis
import TreeLint.Command.Arguments
import TreeLint.Command.Inputs
import TreeLint.Command.Run
import TreeLint.Config.Format
import TreeLint.Config.Load
import TreeLint.Files.Path
import TreeLint.Findings.Format
import TreeLint.Fixture.Basic
import TreeLint.Fixture.Set
import TreeLint.Json.Printer
import TreeLint.Main
import TreeLint.Marker
import TreeLint.Proofs.Catalog
import TreeLint.Proofs.Dispatch
import TreeLint.Proofs.Documents
import TreeLint.Proofs.Findings
import TreeLint.Proofs.Navigation
import TreeLint.Proofs.Streaming
import TreeLint.Report.Pretty
import TreeLint.Report.Sarif
import TreeLint.Semantic.Format
import TreeLint.Semantic.Navigate
import TreeLint.Source.Resolve
import TreeLint.Proofs.Builtin
import TreeLint.Proofs.BuiltinRules
import TreeLint.Proofs.Configuration
import TreeLint.Proofs.Directives
import TreeLint.Proofs.Exemption
import TreeLint.Proofs.FaultIsolation
import TreeLint.Proofs.Outlines
import TreeLint.Proofs.Receivers
import TreeLint.Proofs.Registration
import TreeLint.Proofs.Reports
import TreeLint.Proofs.Exchange
import TreeLint.Proofs.Boundaries
import TreeLint.Proofs.Places
import TreeLint.Proofs.Matches
import TreeLint.Proofs.Pieces
import TreeLint.Proofs.Sites
import TreeLint.Proofs.Shape
import TreeLint.Proofs.Brackets
import TreeLint.Proofs.Candidates
import TreeLint.Proofs.CallTrees
import TreeLint.Proofs.GuardedScan
import TreeLint.Proofs.GuardedRoutines
import TreeLint.Proofs.GuardedResolve
import TreeLint.Proofs.References
import TreeLint.Proofs.Totality
import TreeLint.Proofs.LargeDocuments
import TreeLint.Proofs.Abandonment
import TreeLint.Proofs.MissingTargets
import TreeLint.Proofs.Masking
import TreeLint.Proofs.Words
import TreeLint.Proofs.Programs
import TreeLint.Proofs.ProgramScan
import TreeLint.Proofs.ProgramRoutines
import TreeLint.Proofs.ProgramCalls
import TreeLint.Proofs.ProgramNodes
import TreeLint.Proofs.ProgramTrees
import TreeLint.Proofs.ProgramReports
import TreeLint.Proofs.Defects
import TreeLint.Proofs.DirectiveLines
import TreeLint.Proofs.Regions
import TreeLint.Proofs.Keywords
import TreeLint.Proofs.DirectiveTexts
import TreeLint.Proofs.Marks
import TreeLint.Proofs.MarkedTexts
import TreeLint.Proofs.Fixtures
import TreeLint.Proofs.LineNumbers
import TreeLint.Proofs.Templates
import TreeLint.Proofs.Symbols
import TreeLint.Proofs.Targets
import TreeLint.Proofs.Bodies
import TreeLint.Proofs.Scoping
import TreeLint.Proofs.QualifiedCalls
import TreeLint.Proofs.DeclarationTexts
import TreeLint.Proofs.DeclarationParts
import TreeLint.Proofs.Declarations
import TreeLint.Proofs.WordSearch
import TreeLint.Proofs.TypeTexts
import TreeLint.Proofs.HeaderSearch
import TreeLint.Proofs.Homes
import TreeLint.Proofs.RoutineLines
import TreeLint.Proofs.SignatureTexts
import TreeLint.Proofs.Signatures
import TreeLint.Proofs.CommentLines
import TreeLint.Proofs.ClosingBrackets
import TreeLint.Proofs.Unquoting
