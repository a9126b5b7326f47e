import Regexp.Automaton.Basic

/-!
# Paths through automata

`a.Path i w j` says that some path of transitions leads from the state at
`i` to the state at `j` and consumes just the characters of `w`. It says
nothing about the order in which transitions are tried, and a path may
run in circles. What an automaton recognizes is said in terms of paths,
independently of how a search finds them.
-/

namespace Regexp.Automaton

/-- A path of transitions that consumes a text. -/
inductive Path (a : Automaton) : Nat → List Char → Nat → Prop where
  /-- The path without transitions. -/
  | nil (i : Nat) : a.Path i [] i
  /-- A path that starts with a transition that consumes nothing. -/
  | epsilon {i j k : Nat} {w : List Char} (h : .epsilon j ∈ a.transitionsAt i)
      (p : a.Path j w k) : a.Path i w k
  /-- A path that starts with a transition that consumes a character. -/
  | symbol {i j k : Nat} {s : Symbol} {c : Char} {w : List Char}
      (h : .symbol s j ∈ a.transitionsAt i) (hc : s.includes c = true) (p : a.Path j w k) :
      a.Path i (c :: w) k

/-- Some path from the entry to an accepting state consumes the text. -/
def Recognizes (a : Automaton) (w : List Char) : Prop :=
  ∃ i, a.Path a.entry w i ∧ a.acceptsAt i = true

namespace Path

variable {a : Automaton} {i j k : Nat} {u v : List Char}

/-- **Paths compose**, and their texts with them. -/
theorem append (p : a.Path i u j) (q : a.Path j v k) : a.Path i (u ++ v) k := by
  induction p with
  | nil => exact q
  | epsilon h _ ih => exact .epsilon h (ih q)
  | symbol h hc _ ih => exact .symbol h hc (ih q)

end Path

end Regexp.Automaton
