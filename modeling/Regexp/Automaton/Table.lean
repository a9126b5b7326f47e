import Regexp.Automaton.Basic
import Regexp.Expr.Render
import Regexp.Palette

/-!
# Tables of states

The written form of an automaton: one line for each state with its number
and its transitions, then the entry and the exit.
-/

namespace Regexp

/-- How a transition is shown. -/
def Transition.describe : Transition → String
  | epsilon t => "ε -> " ++ toString t
  | symbol s t => "\"" ++ toString s ++ "\" -> " ++ toString t

namespace State

/-- The number of the state, with a star behind it if the state is an
accepting one. -/
def heading (s : State) : String :=
  toString s.id ++ if s.accept then "*" else ""

/-- The transitions with commas between them, or a pair of brackets if
there are none. -/
def describeTransitions (s : State) : String :=
  match s.transitions with
  | [] => "[]"
  | ts => ", ".intercalate (ts.map (·.describe))

/-- How a state is shown. -/
def describe (s : State) : String :=
  s.heading ++ ": " ++ s.describeTransitions

/-- The line of the state in a table. Headings end in the fourth
column. -/
def tableLine (p : Palette) (s : State) : String :=
  let heading := s.heading
  let blanks := String.ofList (List.replicate (4 - heading.length) ' ')
  p.blue ++ blanks ++ heading ++ p.reset ++ ": " ++ s.describeTransitions

end State

/-- The table of an automaton. -/
def Automaton.table (p : Palette) (a : Automaton) : String :=
  "\n".intercalate
    (a.states.toList.map (·.tableLine p)
      ++ [p.dim ++ "in state:" ++ p.reset ++ " " ++ toString a.entry,
        p.dim ++ "out state:" ++ p.reset ++ " " ++ toString a.exit])

end Regexp
