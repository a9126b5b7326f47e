import Regexp.Automaton.Basic

/-!
# Backtracking search

A text is accepted when some path of transitions from the entry consumes
the whole of it and ends in an accepting state. The search tries the
transitions of each state in order and goes back to the latest choice
when a state has no more of them.

The states on the path under trial form a stack of frames, the latest
first. A frame remembers which states the path has been through since it
last consumed a character; an epsilon transition back into one of them
would run in a circle and is not followed.

`Automaton.step` is one round of the search, and `Automaton.search`
repeats it until the text is accepted or no frame is left. Every round
reports what it does as a list of events; the search hands them to an
observer, which has no influence on it. That the rounds come to an end is
shown by a weight (`Automaton.weight`) which every one of them lowers.
-/

namespace Regexp

/-- What happens in a search. Positions count the characters consumed. -/
inductive Event where
  /-- The path reaches a state. -/
  | enter (pos state : Nat)
  /-- A transition consumes a character. -/
  | symbol (pos source : Nat) (s : Symbol) (c : Char) (target : Nat)
  /-- A transition is followed that consumes nothing. -/
  | epsilon (pos source target : Nat)
  /-- A transition is not followed because it would run in a circle. -/
  | cycle (pos source target : Nat)
  /-- The path goes back because all transitions of its last state have
  been tried. -/
  | backtrack (pos state : Nat)
  /-- The text ends in an accepting state. -/
  | accept (pos state : Nat)
deriving DecidableEq, Repr

/-- A state on the path under trial. -/
structure Frame where
  /-- The position of the state. -/
  state : Nat
  /-- The number of characters consumed before. -/
  pos : Nat
  /-- The text still to be consumed. -/
  rest : List Char
  /-- The transitions that have not been tried. -/
  pending : List Transition
  /-- The states before this one since a character was last consumed, the
  latest first. -/
  earlier : List Nat
deriving DecidableEq, Repr

/-- The states since a character was last consumed, this one included. -/
def Frame.run (f : Frame) : List Nat :=
  f.state :: f.earlier

/-- How a round of the search ends. -/
inductive Round where
  /-- The text is accepted. -/
  | accepted
  /-- No path is left. -/
  | exhausted
  /-- The search goes on with these frames. -/
  | running (stack : List Frame)
deriving DecidableEq, Repr

namespace Automaton

/-- The frame of a state that the path reaches. -/
def frameAt (a : Automaton) (state pos : Nat) (rest : List Char) (earlier : List Nat) : Frame :=
  ⟨state, pos, rest, a.transitionsAt state, earlier⟩

/-- The path reaches the state of the frame `f`, with `stack` behind it.
It is accepted if the text ends here and the state is an accepting
one. -/
def enter (a : Automaton) (f : Frame) (stack : List Frame) : List Event × Round :=
  if f.rest.isEmpty && a.acceptsAt f.state then
    ([.enter f.pos f.state, .accept f.pos f.state], .accepted)
  else ([.enter f.pos f.state], .running (f :: stack))

/-- One round of the search: the latest state tries its next transition,
or is left if it has none. -/
def step (a : Automaton) : List Frame → List Event × Round
  | [] => ([], .exhausted)
  | f :: stack =>
    match f.pending with
    | [] => ([.backtrack f.pos f.state], .running stack)
    | .symbol s target :: ts =>
      let stack := { f with pending := ts } :: stack
      match f.rest with
      | [] => ([], .running stack)
      | c :: rest =>
        if s.includes c && target < a.states.size then
          let (events, round) := a.enter (a.frameAt target (f.pos + 1) rest []) stack
          (.symbol f.pos f.state s c target :: events, round)
        else ([], .running stack)
    | .epsilon target :: ts =>
      let stack := { f with pending := ts } :: stack
      if f.run.contains target then ([.cycle f.pos f.state target], .running stack)
      else if target < a.states.size then
        let (events, round) := a.enter (a.frameAt target f.pos f.rest f.run) stack
        (.epsilon f.pos f.state target :: events, round)
      else ([], .running stack)

/-! What a round does, by the transition that it tries. -/

section Rounds

variable (a : Automaton) {f : Frame} {stack : List Frame} {ts : List Transition} {s : Symbol}
variable {target : Nat} {c : Char} {rest : List Char}

theorem step_of_pending_nil (h : f.pending = []) :
    a.step (f :: stack) = ([.backtrack f.pos f.state], .running stack) := by
  simp only [step, h]

theorem step_of_rest_nil (h : f.pending = .symbol s target :: ts) (hrest : f.rest = []) :
    a.step (f :: stack) = ([], .running ({ f with pending := ts } :: stack)) := by
  simp only [step, h, hrest]

theorem step_of_pending_symbol (h : f.pending = .symbol s target :: ts)
    (hrest : f.rest = c :: rest) :
    a.step (f :: stack) =
      let r := a.enter (a.frameAt target (f.pos + 1) rest []) ({ f with pending := ts } :: stack)
      if s.includes c && target < a.states.size then
        (.symbol f.pos f.state s c target :: r.1, r.2)
      else ([], .running ({ f with pending := ts } :: stack)) := by
  simp only [step, h, hrest]

theorem step_of_pending_epsilon (h : f.pending = .epsilon target :: ts) :
    a.step (f :: stack) =
      let r := a.enter (a.frameAt target f.pos f.rest f.run) ({ f with pending := ts } :: stack)
      if f.run.contains target then
        ([.cycle f.pos f.state target], .running ({ f with pending := ts } :: stack))
      else if target < a.states.size then (.epsilon f.pos f.state target :: r.1, r.2)
      else ([], .running ({ f with pending := ts } :: stack)) := by
  simp only [step, h]

end Rounds

/-! ## The search comes to an end -/

/-- The number of states that a run has not been through. -/
def unvisited (a : Automaton) (run : List Nat) : Nat :=
  ((List.range a.states.size).filter (!run.contains ·)).length

/-- How far a path that ends in the frame can still grow: each character
allows for one more visit to every state. -/
def height (a : Automaton) (f : Frame) : Nat :=
  f.rest.length * (a.states.size + 1) + a.unvisited f.run

/-- A number larger than that of the transitions that leave any one
state. -/
def branching (a : Automaton) : Nat :=
  a.states.toList.foldr (fun s n => s.transitions.length + n) 2

/-- The weight of one transition of a frame: it exceeds all that can be
tried behind the transition. -/
def share (a : Automaton) (f : Frame) : Nat :=
  Nat.pow a.branching (a.height f)

/-- The weight of a frame: what is left to try, counted the more the
further the path can still grow. -/
def frameWeight (a : Automaton) (f : Frame) : Nat :=
  (f.pending.length + 1) * a.share f

/-- The weight of a stack of frames. -/
def weight (a : Automaton) : List Frame → Nat
  | [] => 0
  | f :: stack => a.frameWeight f + a.weight stack

theorem length_transitionsAt_lt (a : Automaton) (i : Nat) :
    (a.transitionsAt i).length + 1 < a.branching := by
  have two_le : ∀ l : List State, 2 ≤ l.foldr (fun s n => s.transitions.length + n) 2 := by
    intro l
    induction l with
    | nil => exact Nat.le_refl _
    | cons s l ih =>
      rw [List.foldr_cons]
      omega
  have lt_of_mem : ∀ (l : List State) (s : State), s ∈ l →
      s.transitions.length + 1 < l.foldr (fun s n => s.transitions.length + n) 2 := by
    intro l s hs
    induction l with
    | nil => cases hs
    | cons t l ih =>
      rw [List.foldr_cons]
      rcases List.mem_cons.1 hs with rfl | hs
      · have := two_le l
        omega
      · have := ih hs
        omega
  unfold transitionsAt branching
  split
  next s hs =>
    obtain ⟨hi, rfl⟩ := Array.getElem?_eq_some_iff.1 hs
    exact lt_of_mem _ _ (Array.getElem_mem_toList hi)
  next => exact two_le _

theorem branching_pos (a : Automaton) : 0 < a.branching :=
  Nat.lt_of_le_of_lt (Nat.zero_le _) (a.length_transitionsAt_lt 0)

theorem unvisited_le (a : Automaton) (run : List Nat) : a.unvisited run ≤ a.states.size := by
  have := List.length_filter_le (fun i => !run.contains i) (List.range a.states.size)
  rw [List.length_range] at this
  exact this

/-- A run that reaches a new state leaves fewer states unvisited. -/
theorem unvisited_cons_lt {a : Automaton} {run : List Nat} {i : Nat} (hi : i < a.states.size)
    (hrun : i ∉ run) : a.unvisited (i :: run) < a.unvisited run := by
  have split_off : (List.range a.states.size).filter (!(i :: run).contains ·)
      = ((List.range a.states.size).filter (!run.contains ·)).filter (· != i) := by
    rw [List.filter_filter]
    congr 1
    funext j
    by_cases h : j = i <;> simp [h]
  rw [unvisited, split_off, unvisited, List.length_filter_lt_length_iff_exists]
  refine ⟨i, ?_, by simp⟩
  rw [List.mem_filter]
  exact ⟨List.mem_range.2 hi, by simpa using hrun⟩

theorem share_pos (a : Automaton) (f : Frame) : 0 < a.share f :=
  Nat.pow_pos a.branching_pos

theorem frameWeight_pos (a : Automaton) (f : Frame) : 0 < a.frameWeight f :=
  Nat.mul_pos (Nat.succ_pos _) (a.share_pos f)

/-- A frame from which the path can grow less than from `f` weighs less
than one transition of `f`. -/
theorem frameWeight_frameAt_lt {a : Automaton} {f : Frame} {state pos : Nat} {rest : List Char}
    {earlier : List Nat} (h : a.height (a.frameAt state pos rest earlier) < a.height f) :
    a.frameWeight (a.frameAt state pos rest earlier) < a.share f := by
  have hpow : a.branching * a.share (a.frameAt state pos rest earlier) ≤ a.share f := by
    rw [Nat.mul_comm]
    exact Nat.pow_le_pow_right a.branching_pos h
  have hmul : a.frameWeight (a.frameAt state pos rest earlier)
      < a.branching * a.share (a.frameAt state pos rest earlier) :=
    Nat.mul_lt_mul_of_pos_right (a.length_transitionsAt_lt state) (a.share_pos _)
  exact Nat.lt_of_lt_of_le hmul hpow

/-- Trying a transition takes its share off the weight of a frame. -/
theorem frameWeight_tail {a : Automaton} {f : Frame} {t : Transition} {ts : List Transition}
    (h : f.pending = t :: ts) :
    a.frameWeight { f with pending := ts } + a.share f = a.frameWeight f := by
  have hshare : a.share { f with pending := ts } = a.share f := rfl
  rw [frameWeight, frameWeight, hshare, h, List.length_cons, Nat.add_mul (ts.length + 1) 1,
    Nat.one_mul]

theorem enter_running {a : Automaton} {f : Frame} {stack next : List Frame}
    (h : (a.enter f stack).2 = .running next) : next = f :: stack := by
  unfold enter at h
  split at h <;> cases h
  rfl

/-- **Every round lowers the weight** of the stack. -/
theorem weight_lt_of_step {a : Automaton} {stack next : List Frame}
    (h : (a.step stack).2 = .running next) : a.weight next < a.weight stack := by
  unfold step at h
  split at h
  · cases h
  next f stack =>
    have hshare := a.share_pos f
    split at h
    next =>
      cases h
      have := a.frameWeight_pos f
      simp only [weight]
      omega
    next s target ts hp =>
      have hf := frameWeight_tail (a := a) hp
      dsimp only at h
      split at h
      · cases h
        simp only [weight]
        omega
      next c rest hrest =>
        split at h
        · rw [enter_running h]
          have hlt : a.height (a.frameAt target (f.pos + 1) rest []) < a.height f := by
            have := a.unvisited_le (a.frameAt target (f.pos + 1) rest []).run
            simp only [height, frameAt, hrest, List.length_cons, Nat.add_mul] at this ⊢
            omega
          have := frameWeight_frameAt_lt hlt
          simp only [weight]
          omega
        · cases h
          simp only [weight]
          omega
    next target ts hp =>
      have hf := frameWeight_tail (a := a) hp
      dsimp only at h
      split at h
      · cases h
        simp only [weight]
        omega
      next hrun =>
        split at h
        next htarget =>
          rw [enter_running h]
          have hnew : target ∉ f.run := by simpa using hrun
          have hlt : a.height (a.frameAt target f.pos f.rest f.run) < a.height f := by
            have := unvisited_cons_lt htarget hnew
            simp only [height, frameAt, Frame.run] at this ⊢
            omega
          have := frameWeight_frameAt_lt hlt
          simp only [weight]
          omega
        · cases h
          simp only [weight]
          omega

/-! ## The search -/

/-- Searches on from a stack of frames and hands each event to `observe`.
The result is whether the text is accepted, and what was observed. -/
@[specialize] def search {σ : Type} (a : Automaton) (observe : σ → Event → σ) (seen : σ)
    (stack : List Frame) : Bool × σ :=
  match _h : a.step stack with
  | (events, .accepted) => (true, events.foldl observe seen)
  | (events, .exhausted) => (false, events.foldl observe seen)
  | (events, .running next) => a.search observe (events.foldl observe seen) next
termination_by a.weight stack
decreasing_by exact weight_lt_of_step (by rw [_h])

/-- **One round of the search**: it ends as the round says, or goes on
from the frames that the round leaves. -/
theorem search_eq {σ : Type} (a : Automaton) (observe : σ → Event → σ) (seen : σ)
    (stack : List Frame) :
    a.search observe seen stack =
      match a.step stack with
      | (events, .accepted) => (true, events.foldl observe seen)
      | (events, .exhausted) => (false, events.foldl observe seen)
      | (events, .running next) => a.search observe (events.foldl observe seen) next := by
  rw [search]
  split <;> simp [*]

/-- Searches for a path that consumes `text`, and hands each event to
`observe`. -/
@[specialize] def run {σ : Type} (a : Automaton) (observe : σ → Event → σ) (seen : σ)
    (text : List Char) : Bool × σ :=
  match a.enter (a.frameAt a.entry 0 text []) [] with
  | (events, .running stack) => a.search observe (events.foldl observe seen) stack
  | (events, round) => (round == .accepted, events.foldl observe seen)

/-- Whether the automaton accepts the text. -/
def accepts (a : Automaton) (text : List Char) : Bool :=
  (a.run (fun _ _ => ()) () text).1

/-- Whether the automaton accepts the text, and all events of the search
in order. -/
def trace (a : Automaton) (text : List Char) : Bool × List Event :=
  let (accepted, events) := a.run (fun seen e => e :: seen) [] text
  (accepted, events.reverse)

end Automaton

end Regexp
