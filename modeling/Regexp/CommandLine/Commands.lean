import Regexp.Pattern
import Regexp.Automaton.Trace
import Regexp.Json.Pattern
import Regexp.Diagnostic.Report
import Regexp.CommandLine.Arguments

/-!
# Running commands

`Invocation.run` gives what a command writes and its exit status, as a
value: status `0` for success, `1` for a text that does not match, and `2`
for a pattern that has no meaning. In the last case nothing but a report
of the error is written, to the error stream.
-/

namespace Regexp.CommandLine

/-- What a command does. -/
structure Outcome where
  /-- The exit status. -/
  status : Nat
  /-- What it writes to the output stream. -/
  output : String
  /-- What it writes to the error stream. -/
  errors : String
deriving DecidableEq, Repr

namespace Outcome

/-- The outcome of a command that succeeds and writes lines. -/
def ofLines (lines : List String) : Outcome :=
  ⟨0, String.join (lines.map (· ++ "\n")), ""⟩

/-- The outcome for a pattern that is rejected. -/
def ofError (pattern : String) (colored : Bool) (e : PatternError) : Outcome :=
  ⟨2, "", { e.report pattern with colored := colored }.render ++ "\n"⟩

/-- The outcome of a match, where `lines` are written before. -/
def ofVerdict (p : Palette) (lines : List String) (matched : Bool) : Outcome :=
  let verdict := if matched then p.green ++ "true" ++ p.reset else p.red ++ "false" ++ p.reset
  { ofLines (lines ++ [verdict]) with status := if matched then 0 else 1 }

end Outcome

/-- The line that separates parts of the output. -/
def separatorLine (p : Palette) : String :=
  p.dim ++ "---" ++ p.reset

/-- The layout of documents. -/
def layout (compact : Bool) : Json.Layout :=
  if compact then .compact else .pretty

namespace Command

/-- The pattern that the command is about. -/
def pattern : Command → String
  | lex pattern _ => pattern
  | ast pattern _ _ => pattern
  | states pattern => pattern
  | test pattern _ => pattern
  | trace pattern _ => pattern

/-- What the command does if its pattern is not rejected. -/
def perform (p : Palette) : Command → Pattern.Result Outcome
  | lex pattern compact => do
    let tokens ← Pattern.lex pattern
    return .ofLines [(Json.array (Json.ofTokens tokens)).toText (layout compact)]
  | ast pattern normalized compact => do
    let e? ← if normalized then Pattern.normalize pattern else Pattern.parse pattern
    return .ofLines
      [(Json.ofOption Json.ofExpr e?).toText (layout compact), separatorLine p,
        (e?.map toString).getD ""]
  | states pattern => do
    let a ← Pattern.compile pattern
    return .ofLines [a.table p]
  | test pattern text => do
    let a ← Pattern.compile pattern
    return .ofVerdict p [] (a.accepts text.toList)
  | trace pattern text => do
    let a ← Pattern.compile pattern
    let (matched, lines) := a.traceLines p text.toList
    return .ofVerdict p (lines ++ [separatorLine p]) matched

/-- What the command does. -/
def run (colored : Bool) (c : Command) : Outcome :=
  match c.perform (.ofBool colored) with
  | .ok outcome => outcome
  | .error e => .ofError c.pattern colored e

end Command

/-- What an invocation does, where `terminal` says whether all output
goes to a terminal. -/
def Invocation.run (terminal : Bool) (i : Invocation) : Outcome :=
  i.command.run (i.color.resolve terminal)

end Regexp.CommandLine
