import Regexp.Token.Lexer
import Regexp.Expr.Parser
import Regexp.Expr.Normalize
import Regexp.Automaton.Construction
import Regexp.Automaton.Search

/-!
# Patterns

A pattern is a text. Four passes lead from it to an automaton, and each
of the functions here runs them up to one of them: `Pattern.lex`,
`Pattern.parse`, `Pattern.normalize` and `Pattern.compile`. The first
pass that fails decides the error. `Pattern.test` compiles a pattern and
matches a whole text with it.
-/

namespace Regexp.Pattern

/-- The outcome of passes over a pattern. -/
abbrev Result (α : Type) := Except PatternError α

/-- The tokens of a pattern. -/
def lex (pattern : String) : Result (List Token) :=
  (Token.lex pattern.toList).mapError .lex

/-- The tree of a pattern, or nothing if the pattern is empty. -/
def parse (pattern : String) : Result (Option Expr) := do
  let tokens ← lex pattern
  (Expr.parse tokens).mapError .parse

/-- The normalized tree of a pattern, or nothing if the pattern is
empty. -/
def normalize (pattern : String) : Result (Option Expr) := do
  match ← parse pattern with
  | none => return none
  | some e => (e.normalize.map some).mapError .normalize

/-- The automaton of a pattern. -/
def compile (pattern : String) : Result Automaton := do
  let e? ← normalize pattern
  (Automaton.ofExpr? e?).mapError .compile

/-- Whether a pattern matches a text as a whole. -/
def test (pattern text : String) : Result Bool := do
  let a ← compile pattern
  return a.accepts text.toList

end Regexp.Pattern
