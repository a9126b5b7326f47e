import Regexp.Automaton.Path
import Regexp.Automaton.Search

/-!
# What the search finds

The search gives up every path that comes back to a state without having
consumed a character in between. `Automaton.Trail` describes the paths
that are left: from a state and the states before it in the current run
of epsilon transitions, a trail leads to an accepting state, consumes the
rest of the text and meets no state twice within a run.

Two facts make the search right. Nothing is lost by keeping to trails,
since a circle of epsilon transitions can be cut out of a path
(`Automaton.Path.trail`). And no round of the search gains or loses a
trail: whether some transition still to be tried starts one
(`Automaton.Hopeful`) is the same before and after (`Automaton.hopeful_step`).
Neither needs the positions in the automaton to exist, since one that
does not exist has no transitions and accepts nothing.
-/

namespace Regexp.Automaton

variable {a : Automaton} {i j k : Nat} {run : List Nat} {s : Symbol} {c : Char} {w : List Char}

/-! ## Trails -/

/-- **A trail**: a path from the state at `i` to an accepting state that
consumes `w`, where no state is met twice between two characters. The
states of `run` have been met since the last character. -/
inductive Trail (a : Automaton) : List Nat → Nat → List Char → Prop where
  /-- The text ends in an accepting state. -/
  | stop {run : List Nat} {i : Nat} (h : a.acceptsAt i = true) : a.Trail run i []
  /-- The trail goes on to a new state and consumes nothing. -/
  | epsilon {run : List Nat} {i j : Nat} {w : List Char} (h : .epsilon j ∈ a.transitionsAt i)
      (hj : j ∉ i :: run) (p : a.Trail (i :: run) j w) : a.Trail run i w
  /-- The trail consumes a character; from then on every state is new. -/
  | symbol {run : List Nat} {i j : Nat} {s : Symbol} {c : Char} {w : List Char}
      (h : .symbol s j ∈ a.transitionsAt i) (hc : s.includes c = true) (p : a.Trail [] j w) :
      a.Trail run i (c :: w)

/-- A trail is a path to an accepting state. -/
theorem Trail.path (p : a.Trail run i w) : ∃ k, a.Path i w k ∧ a.acceptsAt k = true := by
  induction p with
  | stop h => exact ⟨_, .nil _, h⟩
  | epsilon h _ _ ih =>
    obtain ⟨k, p, hk⟩ := ih
    exact ⟨k, .epsilon h p, hk⟩
  | symbol h hc _ ih =>
    obtain ⟨k, p, hk⟩ := ih
    exact ⟨k, .symbol h hc p, hk⟩

/-- A position that does not exist has no transitions. -/
theorem transitionsAt_of_size_le (hi : a.states.size ≤ i) : a.transitionsAt i = [] := by
  rw [transitionsAt, Array.getElem?_eq_none hi]

/-- A position that does not exist accepts nothing. -/
theorem acceptsAt_of_size_le (hi : a.states.size ≤ i) : a.acceptsAt i = false := by
  rw [acceptsAt, Array.getElem?_eq_none hi]

/-- Trails start in states that exist. -/
theorem Trail.lt_size (p : a.Trail run i w) : i < a.states.size := by
  refine Nat.lt_of_not_le fun hi => ?_
  cases p with
  | stop h => rw [acceptsAt_of_size_le hi] at h; cases h
  | epsilon h _ _ => rw [transitionsAt_of_size_le hi] at h; cases h
  | symbol h _ _ => rw [transitionsAt_of_size_le hi] at h; cases h

/-! ## Cutting circles out of a path

A `Course` lists the states that a path to an accepting state meets
before it first consumes a character. Circles later on are cut out
already, so only those of the list remain, and of two visits to one state
the later one can take the place of the earlier one. -/

/-- A path from `i` to an accepting state that consumes `w`. Up to its
first character it meets just the states `vs`, in this order, after `i`;
behind that it meets no state twice between two characters. -/
inductive Course (a : Automaton) : Nat → List Nat → List Char → Prop where
  /-- The text ends in an accepting state. -/
  | stop {i : Nat} (h : a.acceptsAt i = true) : a.Course i [] []
  /-- The path goes on and consumes nothing. -/
  | epsilon {i j : Nat} {vs : List Nat} {w : List Char} (h : .epsilon j ∈ a.transitionsAt i)
      (p : a.Course j vs w) : a.Course i (j :: vs) w
  /-- The path consumes a character. -/
  | symbol {i j : Nat} {vs : List Nat} {s : Symbol} {c : Char} {w : List Char}
      (h : .symbol s j ∈ a.transitionsAt i) (hc : s.includes c = true) (hvs : (j :: vs).Nodup)
      (p : a.Course j vs w) : a.Course i [] (c :: w)

/-- A course can be entered at any state that it meets. -/
theorem Course.suffix {us vs : List Nat} (p : a.Course i (us ++ j :: vs) w) : a.Course j vs w := by
  induction us generalizing i with
  | nil =>
    cases p with
    | epsilon _ p => exact p
  | cons u us ih =>
    cases p with
    | epsilon _ p => exact ih p

/-- **Circles can be cut out**: along with a path to an accepting state
there is one that meets no state twice before its first character. -/
theorem Path.course (p : a.Path i w k) (hk : a.acceptsAt k = true) :
    ∃ vs, (i :: vs).Nodup ∧ a.Course i vs w := by
  induction p with
  | nil i => exact ⟨[], List.pairwise_singleton _ i, .stop hk⟩
  | @epsilon i j k w h _ ih =>
    obtain ⟨vs, hvs, p⟩ := ih hk
    by_cases hi : i ∈ j :: vs
    · -- the path comes back to `i`: go on from its last visit there
      have q : a.Course i (j :: vs) w := .epsilon h p
      obtain ⟨us, vs', hus⟩ := List.append_of_mem hi
      rw [hus] at hvs q
      exact ⟨vs', hvs.sublist (List.sublist_append_right us _), q.suffix⟩
    · exact ⟨j :: vs, List.nodup_cons.2 ⟨hi, hvs⟩, .epsilon h p⟩
  | symbol h hc _ ih =>
    obtain ⟨vs, hvs, p⟩ := ih hk
    exact ⟨[], List.pairwise_singleton _ _, .symbol h hc hvs p⟩

/-- A course without circles is a trail, also after other states. -/
theorem Course.trail {vs : List Nat} (p : a.Course i vs w) (hvs : (i :: vs).Nodup)
    (hrun : ∀ v ∈ vs, v ∉ run) : a.Trail run i w := by
  induction p generalizing run with
  | stop h => exact .stop h
  | @epsilon i j vs w h _ ih =>
    obtain ⟨hi, hvs⟩ := List.nodup_cons.1 hvs
    have hnew : ∀ v ∈ j :: vs, v ∉ i :: run := by
      intro v hv hmem
      rcases List.mem_cons.1 hmem with rfl | hmem
      · exact hi hv
      · exact hrun v hv hmem
    exact .epsilon h (hnew j List.mem_cons_self)
      (ih hvs fun v hv => hnew v (List.mem_cons_of_mem j hv))
  | symbol h hc hvs' _ ih => exact .symbol h hc (ih hvs' fun _ _ => List.not_mem_nil)

/-- **Nothing is lost by keeping to trails**: along with a path to an
accepting state there is a trail. -/
theorem Path.trail (p : a.Path i w k) (hk : a.acceptsAt k = true) : a.Trail [] i w := by
  obtain ⟨vs, hvs, p⟩ := p.course hk
  exact p.trail hvs fun _ _ => List.not_mem_nil

/-! ## What is left to try -/

/-- The transition, taken from the frame, starts a trail for the text
that is left. -/
def Starts (a : Automaton) (f : Frame) : Transition → Prop
  | .epsilon j => j ∉ f.run ∧ a.Trail f.run j f.rest
  | .symbol s j => ∃ c rest, f.rest = c :: rest ∧ s.includes c = true ∧ a.Trail [] j rest

/-- **The stack is hopeful**: some transition that is still to be tried
starts a trail. -/
def Hopeful (a : Automaton) (stack : List Frame) : Prop :=
  ∃ f ∈ stack, ∃ t ∈ f.pending, a.Starts f t

theorem not_hopeful_nil : ¬ a.Hopeful [] := by
  rintro ⟨f, hf, _⟩
  cases hf

theorem hopeful_cons {f : Frame} {stack : List Frame} :
    a.Hopeful (f :: stack) ↔ (∃ t ∈ f.pending, a.Starts f t) ∨ a.Hopeful stack := by
  simp only [Hopeful, List.mem_cons, exists_eq_or_imp]

/-- A frame with a transition to try is hopeful by that one or by those
behind it. -/
theorem hopeful_cons_of_pending {f : Frame} {stack : List Frame} {t : Transition}
    {ts : List Transition} (h : f.pending = t :: ts) :
    a.Hopeful (f :: stack) ↔ a.Starts f t ∨ a.Hopeful ({ f with pending := ts } :: stack) := by
  rw [hopeful_cons, hopeful_cons, h, ← or_assoc]
  simp only [List.mem_cons, exists_eq_or_imp]
  exact Iff.rfl

/-- A trail either ends where it starts or goes on with one of the
transitions there. -/
theorem trail_iff (a : Automaton) (run : List Nat) (i pos : Nat) (w : List Char) :
    a.Trail run i w
      ↔ (w = [] ∧ a.acceptsAt i = true)
        ∨ ∃ t ∈ a.transitionsAt i, a.Starts (a.frameAt i pos w run) t := by
  constructor
  · intro p
    cases p with
    | stop h => exact .inl ⟨rfl, h⟩
    | epsilon h hj p => exact .inr ⟨_, h, hj, p⟩
    | symbol h hc p => exact .inr ⟨_, h, _, _, rfl, hc, p⟩
  · rintro (⟨rfl, h⟩ | ⟨t, ht, hs⟩)
    · exact .stop h
    · cases t with
      | epsilon j => exact .epsilon ht hs.1 hs.2
      | symbol s j =>
        obtain ⟨c, rest, hrest, hc, p⟩ := hs
        have hw : w = c :: rest := hrest
        rw [hw]
        exact .symbol ht hc p

/-! ## One round -/

/-- What a round tells about the stack it started from: it was hopeful if
the round accepts, it was not if nothing is left to try, and it is as
hopeful as before if the search goes on. -/
def Faithful (a : Automaton) (hopeful : Prop) : Round → Prop
  | .accepted => hopeful
  | .exhausted => ¬ hopeful
  | .running next => a.Hopeful next ↔ hopeful

/-- Entering a state settles whether a trail starts there. -/
theorem faithful_enter (a : Automaton) (run : List Nat) (i pos : Nat) (w : List Char)
    (stack : List Frame) :
    a.Faithful (a.Trail run i w ∨ a.Hopeful stack) (a.enter (a.frameAt i pos w run) stack).2 := by
  unfold enter
  split
  next h =>
    rw [Bool.and_eq_true, List.isEmpty_iff] at h
    exact .inl ((trail_iff a run i pos w).2 (.inl h))
  next h =>
    rw [Bool.and_eq_true, List.isEmpty_iff] at h
    show a.Hopeful (a.frameAt i pos w run :: stack) ↔ _
    rw [hopeful_cons, trail_iff a run i pos w]
    exact or_congr_left (or_iff_right h).symm

/-- **No round gains or loses a trail.** -/
theorem hopeful_step (stack : List Frame) : a.Faithful (a.Hopeful stack) (a.step stack).2 := by
  unfold step
  split
  next => exact not_hopeful_nil
  next f stack =>
    split
    next hp =>
      -- the frame has nothing left to try
      show a.Hopeful stack ↔ a.Hopeful (f :: stack)
      rw [hopeful_cons, hp]
      simp
    next s j ts hp =>
      rw [hopeful_cons_of_pending hp]
      dsimp only
      split
      next hrest =>
        -- no character is left for the symbol
        refine (or_iff_right ?_).symm
        rintro ⟨c, rest, h, _⟩
        rw [hrest] at h
        cases h
      next c rest hrest =>
        have starts_iff : a.Starts f (.symbol s j) ↔ s.includes c = true ∧ a.Trail [] j rest := by
          constructor
          · rintro ⟨d, rest', h, hd, p⟩
            obtain ⟨rfl, rfl⟩ := List.cons.inj (hrest.symm.trans h)
            exact ⟨hd, p⟩
          · rintro ⟨hc, p⟩
            exact ⟨c, rest, hrest, hc, p⟩
        rw [starts_iff]
        split
        next h =>
          rw [Bool.and_eq_true] at h
          rw [and_iff_right h.1]
          exact faithful_enter a _ _ _ _ _
        next h =>
          refine (or_iff_right ?_).symm
          rintro ⟨hc, p⟩
          exact h (by rw [hc, decide_eq_true p.lt_size]; rfl)
    next j ts hp =>
      rw [hopeful_cons_of_pending hp]
      dsimp only
      split
      next h =>
        -- the guard: the target has been met since the last character
        rw [List.contains_iff_mem] at h
        exact (or_iff_right fun hs => hs.1 h).symm
      next h =>
        rw [List.contains_iff_mem] at h
        have starts_iff : a.Starts f (.epsilon j) ↔ a.Trail f.run j f.rest := and_iff_right h
        rw [starts_iff]
        split
        next => exact faithful_enter a _ _ _ _ _
        next hj => exact (or_iff_right fun p : a.Trail _ _ _ => hj p.lt_size).symm

/-! ## The whole search -/

/-- **The search accepts just the hopeful stacks.** -/
theorem search_iff_hopeful {σ : Type} (observe : σ → Event → σ) (seen : σ) (stack : List Frame) :
    (a.search observe seen stack).1 = true ↔ a.Hopeful stack := by
  -- every round makes the stack lighter
  induction h : a.weight stack using Nat.strongRecOn generalizing seen stack with
  | ind n ih =>
    subst h
    have hstep := a.hopeful_step stack
    rw [search_eq]
    split
    next h => rw [h] at hstep; exact iff_of_true rfl hstep
    next h => rw [h] at hstep; exact iff_of_false Bool.false_ne_true hstep
    next events next h =>
      rw [h] at hstep
      have hlt : a.weight next < a.weight stack := weight_lt_of_step (by rw [h])
      exact (ih _ hlt _ _ rfl).trans hstep

/-- The search accepts a text just if a trail for it starts in the entry. -/
theorem run_iff_trail {σ : Type} (observe : σ → Event → σ) (seen : σ) :
    (a.run observe seen w).1 = true ↔ a.Trail [] a.entry w := by
  have hentry := faithful_enter a [] a.entry 0 w []
  rw [or_iff_left not_hopeful_nil] at hentry
  unfold run
  split
  next events stack h =>
    rw [h] at hentry
    exact (search_iff_hopeful _ _ _).trans hentry
  next events round hne h =>
    rw [h] at hentry
    cases round with
    | accepted => exact iff_of_true rfl hentry
    | exhausted => exact iff_of_false Bool.false_ne_true hentry
    | running stack => exact (hne _ rfl).elim

/-- Keeping to trails, an automaton recognizes the same texts. -/
theorem trail_iff_recognizes : a.Trail [] a.entry w ↔ a.Recognizes w := by
  constructor
  · exact Trail.path
  · rintro ⟨k, p, hk⟩
    exact p.trail hk

/-- **The matcher is sound and complete**: it accepts a text just if some
path from the entry to an accepting state consumes it, whatever circles
the automaton has. -/
theorem accepts_iff_recognizes (a : Automaton) (w : List Char) :
    a.accepts w = true ↔ a.Recognizes w := by
  unfold accepts
  rw [run_iff_trail, trail_iff_recognizes]

end Regexp.Automaton
