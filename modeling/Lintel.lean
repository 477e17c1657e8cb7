import Lintel.Config.Layer
import Lintel.Config.Load
import Lintel.Config.Schema
import Lintel.Config.Settings
import Lintel.Diff.Compact
import Lintel.Diff.Operation
import Lintel.Diff.Script
import Lintel.Diff.Unified
import Lintel.Dispatch
import Lintel.Document.Json
import Lintel.Document.Toml
import Lintel.Document.Value
import Lintel.Edit.Basic
import Lintel.Edit.Batch
import Lintel.Edit.Fold
import Lintel.Edit.OffsetMap
import Lintel.Edit.Resolve
import Lintel.Failure
import Lintel.Finding
import Lintel.Fix.Consistency
import Lintel.Fix.Engine
import Lintel.Grammar.Action
import Lintel.Grammar.Declarations
import Lintel.Grammar.Expressions
import Lintel.Grammar.Fault
import Lintel.Grammar.Input
import Lintel.Grammar.Lookahead
import Lintel.Grammar.Outline
import Lintel.Grammar.Statements
import Lintel.Grammar.Symbol
import Lintel.Grammar.Types
import Lintel.Markup.Event
import Lintel.Markup.Summary
import Lintel.Message
import Lintel.Pattern.Basic
import Lintel.Pattern.CharSet
import Lintel.Pattern.Parse
import Lintel.Proofs.Placement
import Lintel.Proofs.TextCuts
import Lintel.Registry
import Lintel.Rule
import Lintel.Source
import Lintel.Style.AccessorLines
import Lintel.Style.Builtin
import Lintel.Style.Casing
import Lintel.Style.KeywordSpacing
import Lintel.Style.Parentheses
import Lintel.Style.SummaryText
import Lintel.Syntax.Declaration
import Lintel.Syntax.Kind
import Lintel.Syntax.Lexer
import Lintel.Syntax.Literal
import Lintel.Syntax.Parse
import Lintel.Syntax.Search
import Lintel.Syntax.Spelling
import Lintel.Syntax.Token
import Lintel.Syntax.Tree
import Lintel.Syntax.Trivia
import Lintel.Syntax.Zipper
import Lintel.Text.Basic
import Lintel.Text.Letters
import Lintel.Text.Lines
import Lintel.Text.Position
import Lintel.Workspace
import Lintel.Proofs.BatchTriage
import Lintel.Proofs.Surgery
import Lintel.Proofs.LosslessRewrite
import Lintel.Proofs.TokenAccounting
import Lintel.Proofs.Weaving
import Lintel.Proofs.BuilderDiscipline
import Lintel.Proofs.TriviaErasure
import Lintel.Proofs.CallDepth
import Lintel.Proofs.NodeContents
import Lintel.Proofs.Followers
import Lintel.Proofs.KeywordFollowers
import Lintel.Proofs.Leaves
import Lintel.Proofs.Cells
import Lintel.Proofs.KeywordGaps
import Lintel.Proofs.CellEdits
import Lintel.Proofs.Respacing
import Lintel.Proofs.SpacingFixes
import Lintel.Proofs.OrderedBatch
import Lintel.Proofs.SpacingBatch
import Lintel.Proofs.LexemeLocality
import Lintel.Proofs.LexemeSteps
import Lintel.Proofs.TriviaIndependence
import Lintel.Proofs.SiblingRuns
import Lintel.Proofs.BuiltinFindings
import Lintel.Proofs.Drafts
import Lintel.Proofs.ExpressionShape
import Lintel.Proofs.FaultlessText
import Lintel.Proofs.FoldTotality
import Lintel.Proofs.KeywordRespacing
import Lintel.Proofs.LeadingTrivia
import Lintel.Proofs.LeafRemoval
import Lintel.Proofs.ParenthesisRemoval
import Lintel.Proofs.BatchPermutation
import Lintel.Proofs.SettledRuns
import Lintel.Proofs.RefoundParentheses
import Lintel.Proofs.ParenthesisBatch
import Lintel.Proofs.KindTables
import Lintel.Proofs.LayeredSettings
import Lintel.Proofs.OverlapCheck
import Lintel.Proofs.DispatchOrder
import Lintel.Proofs.Derivations
import Lintel.Proofs.RunsEnd
import Lintel.Proofs.LookaheadScans
import Lintel.Proofs.ParsingEnds
import Lintel.Proofs.Exchanges
import Lintel.Proofs.ReadingBack
import Lintel.Proofs.NodeBoundaries
import Lintel.Proofs.OperatorNesting
import Lintel.Proofs.DelimiterBalance
import Lintel.Proofs.FindingAccounts
import Lintel.Proofs.OffsetMaps
import Lintel.Proofs.CarriedOffsets
import Lintel.Proofs.RereadTokens
import Lintel.Proofs.TokenRemoval
import Lintel.Proofs.LeftoverReasons
import Lintel.Proofs.OwnedTrivia
import Lintel.Proofs.TypeReading
import Lintel.Proofs.TextTiling
import Lintel.Proofs.LinePositions
import Lintel.Proofs.MessagePlaces
import Lintel.Proofs.DocumentationSections
import Lintel.Proofs.RuleSubsets
import Lintel.Proofs.SpacedTokens
