import Regexp.CommandLine.Commands

/-!
# The command line

Reads the arguments, runs the command and writes what it gives.
-/

namespace Regexp.CommandLine

/-- What a command line that is not run is answered with. -/
def UsageFault.message : UsageFault → String
  | help | nothingGiven =>
    "usage: regexp COMMAND [OPTIONS] PATTERN [TEXT]\n\n"
      ++ "commands:\n"
      ++ "  lex     show the tokens of a pattern (--compact)\n"
      ++ "  ast     show the tree of a pattern (--normalized, --compact)\n"
      ++ "  states  show the automaton of a pattern\n"
      ++ "  match   test whether TEXT matches PATTERN as a whole\n"
      ++ "  trace   show the search, then the result\n\n"
      ++ "options of all commands: --color auto|always|never, --help"
  | version => "regexp 0.1.0"
  | unknownCommand => "error: unknown command"
  | unknownArgument => "error: unknown argument"
  | missingArgument => "error: missing argument"
  | invalidValue => "error: invalid value"
  | repeatedOption => "error: option given twice"
  | unwantedValue => "error: option takes no value"

/-- The exit status of a command line that is not run. -/
def UsageFault.status : UsageFault → UInt32
  | help | version => 0
  | _ => 2

end Regexp.CommandLine

open Regexp.CommandLine in
/-- Runs the command that the arguments name. -/
def main (args : List String) : IO UInt32 := do
  match read args with
  | .error fault =>
    if fault.status == 0 then IO.println fault.message else IO.eprintln fault.message
    return fault.status
  | .ok invocation =>
    let output ← IO.getStdout
    let errors ← IO.getStderr
    let terminal := (← output.isTty) && (← errors.isTty)
    let outcome := invocation.run terminal
    output.putStr outcome.output
    errors.putStr outcome.errors
    return outcome.status.toUInt32
