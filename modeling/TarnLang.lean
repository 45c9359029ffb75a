import TarnLang.Span
import TarnLang.LineMap
import TarnLang.Token
import TarnLang.Lexeme
import TarnLang.Lexer
import TarnLang.Failure
import TarnLang.Parser.Basic
import TarnLang.Parser.Choice
import TarnLang.Parser.Repetition
import TarnLang.Node.Basic
import TarnLang.Node.Leaves
import TarnLang.Node.Outline
import TarnLang.Node.Dump
import TarnLang.Grammar.Rules
import TarnLang.Grammar.Expression
import TarnLang.Grammar.Statement
import TarnLang.Grammar.Program
import TarnLang.Scope
import TarnLang.Symbol
import TarnLang.Resolution.SemanticError
import TarnLang.Resolution.Walk
import TarnLang.Resolution.Basic
import TarnLang.Text.Hidden
import TarnLang.Text.Quoted
import TarnLang.Text.Style
import TarnLang.Text.Json
import TarnLang.Text.Dump
import TarnLang.Diagnostic.Basic
import TarnLang.Diagnostic.Code
import TarnLang.Diagnostic.Suggestion
import TarnLang.Diagnostic.OfError
import TarnLang.Diagnostic.Layout
import TarnLang.Diagnostic.Report
import TarnLang.FrontEnd
import TarnLang.Command.Basic
import TarnLang.Command.Listing
import TarnLang.Command.Run
import TarnLang.Main
import TarnLang.Proofs.Grammar.Ebnf
import TarnLang.Proofs.Parser.Success
import TarnLang.Proofs.Grammar.Phrase
import TarnLang.Proofs.Grammar.Derivation
import TarnLang.Proofs.Parser.Progress
import TarnLang.Proofs.Grammar.Progress
import TarnLang.Proofs.Grammar.Soundness
import TarnLang.Proofs.Parser.Acceptance
import TarnLang.Proofs.Grammar.Acceptance
import TarnLang.Proofs.Grammar.Shape
import TarnLang.Proofs.Grammar.Leaves
import TarnLang.Proofs.Grammar.Nesting
import TarnLang.Proofs.Grammar.Expectation
import TarnLang.Proofs.Parser.Failure
import TarnLang.Proofs.Grammar.Failure
import TarnLang.Proofs.Text.LineMap
import TarnLang.Proofs.Text.Lexer
import TarnLang.Proofs.Text.Coverage
import TarnLang.Proofs.Text.LineBreak
import TarnLang.Proofs.Text.Pattern
import TarnLang.Proofs.Text.Spaced
import TarnLang.Proofs.Text.ErrorLimit
import TarnLang.Proofs.Text.Line
import TarnLang.Proofs.Resolution.Name
import TarnLang.Proofs.Resolution.ScopeTree
import TarnLang.Proofs.Resolution.Scoping
import TarnLang.Proofs.Resolution.Agreement
import TarnLang.Proofs.Resolution.Traversal
import TarnLang.Proofs.Resolution.Origin
import TarnLang.Proofs.Resolution.Errors
import TarnLang.Proofs.Resolution.Order
import TarnLang.Proofs.Resolution.Record
import TarnLang.Proofs.Resolution.Arena
import TarnLang.Proofs.Resolution.Script
import TarnLang.Proofs.Resolution.Correspondence
import TarnLang.Proofs.Resolution.Region
import TarnLang.Proofs.Resolution.Balance
import TarnLang.Proofs.Resolution.Mirror
import TarnLang.Proofs.Layout.Relocation
import TarnLang.Proofs.Layout.Parser
import TarnLang.Proofs.Layout.Grammar
import TarnLang.Proofs.Layout.Events
import TarnLang.Proofs.Layout.Outline
import TarnLang.Proofs.Layout.Verdict
import TarnLang.Proofs.Parser.Locality
import TarnLang.Proofs.Grammar.Recursion
import TarnLang.Proofs.Grammar.Termination
import TarnLang.Proofs.Grammar.ExprTree
import TarnLang.Proofs.Grammar.Reach
import TarnLang.Proofs.Grammar.Longest
import TarnLang.Proofs.Command.FirstFailure
import TarnLang.Proofs.Diagnostic.Site
import TarnLang.Proofs.Parser.Composition
import TarnLang.Proofs.Parser.Rounds
import TarnLang.Proofs.Parser.Repetition
import TarnLang.Proofs.Parser.Choice
import TarnLang.Proofs.Text.Boundary
import TarnLang.Proofs.Text.LineText
import TarnLang.Proofs.Command.LineFilter
import TarnLang.Proofs.Diagnostic.Distance
import TarnLang.Proofs.Diagnostic.Suggestion
import TarnLang.Proofs.Diagnostic.Rows
import TarnLang.Proofs.Command.SymbolOrder
import TarnLang.Proofs.Diagnostic.TwoRows
import TarnLang.Proofs.Grammar.Parentheses
import TarnLang.Proofs.Parser.Context
import TarnLang.Proofs.Text.Comment
import TarnLang.Proofs.Grammar.Advice
