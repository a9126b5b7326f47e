import Regexp.Automaton.Search
import Regexp.Automaton.Table

/-!
# Written traces

A trace shows a search as one line for each event. Each line starts with
the number of characters consumed so far.
-/

namespace Regexp

/-- The line of an event. -/
def Event.line (p : Palette) : Event → String
  | enter pos state => at_ pos ++ "enter " ++ number state
  | symbol pos source s _ target =>
    at_ pos ++ number source ++ ": " ++ p.green ++ "\"" ++ toString s ++ "\"" ++ p.reset ++ " -> "
      ++ number target
  | epsilon pos source target => at_ pos ++ number source ++ ": ε -> " ++ number target
  | cycle pos source target =>
    at_ pos ++ number source ++ ": ε -> " ++ number target ++ " " ++ p.dim ++ "(cycle)" ++ p.reset
  | backtrack pos state => at_ pos ++ p.red ++ "backtrack" ++ p.reset ++ " " ++ number state
  | accept pos state => at_ pos ++ p.green ++ "accept" ++ p.reset ++ " " ++ number state
where
  /-- The number of characters consumed. -/
  at_ (pos : Nat) : String := p.dim ++ "@" ++ toString pos ++ p.reset ++ " "
  /-- The number of a state. -/
  number (state : Nat) : String := p.blue ++ toString state ++ p.reset

/-- The lines of the search for a path that consumes `text`, and whether
there is one. -/
def Automaton.traceLines (p : Palette) (a : Automaton) (text : List Char) : Bool × List String :=
  let (accepted, events) := a.trace text
  (accepted, events.map (·.line p))

end Regexp
