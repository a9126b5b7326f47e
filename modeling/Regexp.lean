import Regexp.Span
import Regexp.Text.Bytes
import Regexp.Text.Numeral
import Regexp.Text.Width
import Regexp.MetaChar
import Regexp.Letter
import Regexp.CharClass
import Regexp.Symbol
import Regexp.Quantifier
import Regexp.Error
import Regexp.Palette
import Regexp.Token.Basic
import Regexp.Token.Piece
import Regexp.Token.Lexer
import Regexp.Token.Nesting
import Regexp.Expr.Basic
import Regexp.Expr.Render
import Regexp.Expr.Numbering
import Regexp.Expr.Parser
import Regexp.Expr.Normalize
import Regexp.Expr.Builder
import Regexp.Expr.Language
import Regexp.Expr.Normal
import Regexp.Automaton.Basic
import Regexp.Automaton.Table
import Regexp.Automaton.Construction
import Regexp.Automaton.Search
import Regexp.Automaton.Trace
import Regexp.Automaton.Path
import Regexp.Pattern
import Regexp.Json.Basic
import Regexp.Json.Pattern
import Regexp.Diagnostic.Source
import Regexp.Diagnostic.Paint
import Regexp.Diagnostic.Snippet
import Regexp.Diagnostic.Report
import Regexp.CommandLine.Arguments
import Regexp.CommandLine.Commands
import Regexp.Main
import Regexp.Proofs.Reading
import Regexp.Proofs.Trail
import Regexp.Proofs.Guards
import Regexp.Proofs.Part
import Regexp.Proofs.Construction
import Regexp.Proofs.Verdict
import Regexp.Proofs.Bracketing
import Regexp.Proofs.Grammar
import Regexp.Proofs.Parsing
import Regexp.Proofs.Balance
import Regexp.Proofs.Canonical
import Regexp.Proofs.Scanning
import Regexp.Proofs.Numerals
import Regexp.Proofs.Lexing
import Regexp.Proofs.Lexeme
import Regexp.Proofs.SetRendering
import Regexp.Proofs.QuantifierRendering
import Regexp.Proofs.RoundTrip
import Regexp.Proofs.Passes
import Regexp.Proofs.Matching
import Regexp.Proofs.Phrase
import Regexp.Proofs.UniqueReading
import Regexp.Proofs.Spelling
import Regexp.Proofs.Tiling
import Regexp.Proofs.LexicalGrammar
import Regexp.Proofs.FaultPlaces
import Regexp.Proofs.Relocation
import Regexp.Proofs.Embedding
import Regexp.Proofs.Concatenation
import Regexp.Proofs.Meaning
import Regexp.Proofs.NormalAutomaton
import Regexp.Proofs.NormalForm
import Regexp.Proofs.Malformed
import Regexp.Proofs.NormalRendering
import Regexp.Proofs.CaptureOrder
import Regexp.Proofs.Composition
import Regexp.Proofs.Quoting
import Regexp.Proofs.Unsupported
import Regexp.Proofs.Greed
import Regexp.Proofs.Connection
import Regexp.Proofs.Isolation
import Regexp.Proofs.QuestionMarks
import Regexp.Proofs.Stack
import Regexp.Proofs.FirstRoute
import Regexp.Proofs.CommandAgreement
