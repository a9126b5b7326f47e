import Regexp.Symbol

/-!
# Automata

A nondeterministic automaton is a table of states that refer to each
other by their position in it. A transition consumes a character that its
symbol includes, or, as an epsilon transition, nothing. The transitions
of a state are ordered: a search tries them in turn, and this order is
all that tells a greedy quantifier from a lazy one.

Positions are natural numbers. Kept in words of 32 bits they are the same
as long as a table has fewer than `2 ^ 32` states; from there on words
would wrap around, and these numbers do not.

`Automaton.WellFormed` says that every position mentioned exists.
-/

namespace Regexp

/-- A transition to the state at the position `target`. -/
inductive Transition where
  /-- Consumes nothing. -/
  | epsilon (target : Nat)
  /-- Consumes one character that the symbol includes. -/
  | symbol (s : Symbol) (target : Nat)
deriving DecidableEq, Repr

namespace Transition

/-- The position of the state that the transition leads to, the same as in
a word of 32 bits below `2 ^ 32` states. -/
def target : Transition → Nat
  | epsilon t => t
  | symbol _ t => t

/-- Whether the transition consumes nothing. -/
def isEpsilon : Transition → Bool
  | epsilon _ => true
  | symbol _ _ => false

@[simp] theorem target_epsilon (t : Nat) : (epsilon t).target = t := rfl

@[simp] theorem target_symbol (s : Symbol) (t : Nat) : (symbol s t).target = t := rfl

end Transition

/-- A state of an automaton. -/
structure State where
  /-- The number by which the state is shown, of any size: a word of 32
  bits holds it as long as there are fewer than `2 ^ 32` states. -/
  id : Nat
  /-- Whether a text that ends in this state is accepted. -/
  accept : Bool
  /-- The transitions that leave the state, in the order in which they
  are tried. -/
  transitions : List Transition
deriving DecidableEq, Repr

namespace State

/-- A state without transitions. -/
def new (id : Nat) (accept : Bool) : State :=
  ⟨id, accept, []⟩

/-- The state with a further transition, tried last. -/
def add (s : State) (t : Transition) : State :=
  { s with transitions := s.transitions ++ [t] }

/-- The state, made an accepting one or not. -/
def setAccept (s : State) (accept : Bool) : State :=
  { s with accept := accept }

@[simp] theorem transitions_add (s : State) (t : Transition) :
    (s.add t).transitions = s.transitions ++ [t] := rfl

@[simp] theorem accept_add (s : State) (t : Transition) : (s.add t).accept = s.accept := rfl

@[simp] theorem id_add (s : State) (t : Transition) : (s.add t).id = s.id := rfl

end State

/-- A nondeterministic automaton. -/
structure Automaton where
  /-- The states; transitions refer to positions in this table. -/
  states : Array State
  /-- The position of the state in which every search starts. -/
  entry : Nat
  /-- The position of the state that the construction leaves through. -/
  exit : Nat
deriving DecidableEq, Repr

namespace Automaton

/-- The transitions that leave the state at a position, in order. -/
def transitionsAt (a : Automaton) (i : Nat) : List Transition :=
  match a.states[i]? with
  | some s => s.transitions
  | none => []

/-- Whether the state at a position is an accepting one. -/
def acceptsAt (a : Automaton) (i : Nat) : Bool :=
  match a.states[i]? with
  | some s => s.accept
  | none => false

/-- **Well-formedness**: the entry, the exit and every target are
positions in the table of states. -/
structure WellFormed (a : Automaton) : Prop where
  /-- The entry exists. -/
  entry_lt : a.entry < a.states.size
  /-- The exit exists. -/
  exit_lt : a.exit < a.states.size
  /-- Every transition leads to an existing state. -/
  target_lt : ∀ i, ∀ t ∈ a.transitionsAt i, t.target < a.states.size

end Automaton

end Regexp
