import ClassScript.Bindings
import ClassScript.Builtin
import ClassScript.ClassTable
import ClassScript.ClassTable.Graph
import ClassScript.CommandLine
import ClassScript.CommandLine.Arguments
import ClassScript.Context
import ClassScript.Data
import ClassScript.Data.Format
import ClassScript.Data.Json.Reader
import ClassScript.Data.Json.Writer
import ClassScript.Data.Yaml.Reader
import ClassScript.Data.Yaml.Scalar
import ClassScript.Data.Yaml.Writer
import ClassScript.Decimal.Binary
import ClassScript.Decimal.Notation
import ClassScript.Decimal.Reading
import ClassScript.Decimal.Remainder
import ClassScript.Decimal.Shortest
import ClassScript.Eval
import ClassScript.Eval.Call
import ClassScript.Eval.Evaluators
import ClassScript.Eval.Expr
import ClassScript.Eval.Import
import ClassScript.Eval.Object
import ClassScript.Eval.Stmt
import ClassScript.Excerpt
import ClassScript.Fault
import ClassScript.Files
import ClassScript.Grammar
import ClassScript.Grammar.Basic
import ClassScript.Grammar.Expr
import ClassScript.Grammar.Stmt
import ClassScript.Main
import ClassScript.Operator
import ClassScript.Proofs.AgreeingRules
import ClassScript.Proofs.AgreeingRuns
import ClassScript.Proofs.AgreeingSessions
import ClassScript.Proofs.Blur
import ClassScript.Proofs.BoundNames
import ClassScript.Proofs.CircularImports
import ClassScript.Proofs.ClassDeclarations
import ClassScript.Proofs.ClassGraph
import ClassScript.Proofs.ClassHistory
import ClassScript.Proofs.CleanPrefix
import ClassScript.Proofs.CodeDiscipline
import ClassScript.Proofs.Completion
import ClassScript.Proofs.Derivation
import ClassScript.Proofs.DisciplineRules
import ClassScript.Proofs.Dispatch
import ClassScript.Proofs.EarliestError
import ClassScript.Proofs.ErrorExcerpt
import ClassScript.Proofs.ExpressionInversion
import ClassScript.Proofs.FaultLines
import ClassScript.Proofs.ForLoops
import ClassScript.Proofs.ForgottenLines
import ClassScript.Proofs.FrameRestoration
import ClassScript.Proofs.HandedDownLines
import ClassScript.Proofs.HeadTokens
import ClassScript.Proofs.History
import ClassScript.Proofs.ImportInlining
import ClassScript.Proofs.ImportStack
import ClassScript.Proofs.Instantiation
import ClassScript.Proofs.InterfaceCheck
import ClassScript.Proofs.Inversion
import ClassScript.Proofs.JsonRoundTrip
import ClassScript.Proofs.LargerBudgets
import ClassScript.Proofs.LayoutIndependence
import ClassScript.Proofs.Lexemes
import ClassScript.Proofs.ListText
import ClassScript.Proofs.Lookahead
import ClassScript.Proofs.LoopControl
import ClassScript.Proofs.MaximalMunch
import ClassScript.Proofs.MemberCalls
import ClassScript.Proofs.Misreading
import ClassScript.Proofs.ModifierIndependence
import ClassScript.Proofs.NodeLines
import ClassScript.Proofs.NodeSpans
import ClassScript.Proofs.NumberLexemes
import ClassScript.Proofs.ObjectModel
import ClassScript.Proofs.ObjectSoundness
import ClassScript.Proofs.OnlyThrowRaises
import ClassScript.Proofs.OrdinaryCauses
import ClassScript.Proofs.OutputPrefix
import ClassScript.Proofs.ParsedSources
import ClassScript.Proofs.ParserProgress
import ClassScript.Proofs.ParserSoundness
import ClassScript.Proofs.Places
import ClassScript.Proofs.PlainData
import ClassScript.Proofs.QuotedText
import ClassScript.Proofs.Reading
import ClassScript.Proofs.RelatedRuns
import ClassScript.Proofs.Rendering
import ClassScript.Proofs.Retokenizing
import ClassScript.Proofs.RoundTrip
import ClassScript.Proofs.SafeRules
import ClassScript.Proofs.SafeRuns
import ClassScript.Proofs.SelfCoherence
import ClassScript.Proofs.SessionSafety
import ClassScript.Proofs.SessionSequence
import ClassScript.Proofs.SourceLines
import ClassScript.Proofs.SpanningParsers
import ClassScript.Proofs.StackTraces
import ClassScript.Proofs.StatementInversion
import ClassScript.Proofs.SymmetricEquality
import ClassScript.Proofs.ThrownTraces
import ClassScript.Proofs.TokenOffsets
import ClassScript.Proofs.TokenSpans
import ClassScript.Proofs.UncaughtRuns
import ClassScript.Proofs.UntouchedBindings
import ClassScript.Proofs.YamlRoundTrip
import ClassScript.Proofs.YamlScalars
import ClassScript.Report
import ClassScript.Run
import ClassScript.Session
import ClassScript.Syntax
import ClassScript.Syntax.SameTree
import ClassScript.Text.Blank
import ClassScript.Text.Digit
import ClassScript.Text.Letter
import ClassScript.Text.Lines
import ClassScript.Text.Literal
import ClassScript.Text.Numeral
import ClassScript.Text.Quoted
import ClassScript.Text.Ranges
import ClassScript.Text.Unprintable
import ClassScript.Token
import ClassScript.Token.Lexer
import ClassScript.Token.Position
import ClassScript.Token.Rule
import ClassScript.Value
import ClassScript.Value.Number
import ClassScript.Value.Text
