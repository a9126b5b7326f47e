import Mathlib.Data.List.Forall2
import Regexp.Automaton.Trace

/-!
# Replacing guards

The guard of a transition is the symbol that says which characters it
consumes. A search asks a guard for nothing else. So if every guard of an
automaton is replaced by one that includes the same characters, the search
goes through the same rounds: it accepts the same texts, and its trace is
the same event by event, apart from the guards that the events name
(`Automaton.accepts_mapGuards`, `Automaton.trace_mapGuards`).

One lemma says so of a single round (`Automaton.step_mapGuards`), and one
induction carries it through the search, for any pair of observers that
agree on what they see.
-/

namespace Regexp

/-! ## Other guards -/

section Replacement

variable (g : Symbol → Symbol)

/-- The transition with its guard replaced. -/
def Transition.mapGuard : Transition → Transition
  | epsilon target => epsilon target
  | symbol s target => symbol (g s) target

/-- The state with the guards of its transitions replaced. -/
def State.mapGuards (s : State) : State :=
  { s with transitions := s.transitions.map (·.mapGuard g) }

/-- **The automaton with all guards replaced.** Everything else stays: the
entry and the exit, the numbers of the states and which of them accept,
and the order, the kind and the target of every transition. -/
def Automaton.mapGuards (a : Automaton) : Automaton :=
  { a with states := a.states.map (·.mapGuards g) }

/-- The event with the guard that it names replaced. -/
def Event.mapGuard : Event → Event
  | symbol pos source s c target => symbol pos source (g s) c target
  | e => e

/-- The frame with the guards of its transitions replaced. -/
def Frame.mapGuards (f : Frame) : Frame :=
  { f with pending := f.pending.map (·.mapGuard g) }

/-- The end of a round with the guards in its frames replaced. -/
def Round.mapGuards : Round → Round
  | running stack => running (stack.map (·.mapGuards g))
  | r => r

@[simp] theorem Frame.pending_mapGuards (f : Frame) :
    (f.mapGuards g).pending = f.pending.map (·.mapGuard g) := rfl

@[simp] theorem Frame.run_mapGuards (f : Frame) : (f.mapGuards g).run = f.run := rfl

@[simp] theorem Automaton.size_states_mapGuards (a : Automaton) :
    (a.mapGuards g).states.size = a.states.size :=
  Array.size_map

end Replacement

/-- **The same line with another guard**: either the lines are equal, or
the text of a guard stands between the same texts in both. -/
def SameButGuard (g : Symbol → Symbol) (line line' : String) : Prop :=
  line' = line ∨ ∃ before s after, line = before ++ toString s ++ after
    ∧ line' = before ++ toString (g s) ++ after

theorem Event.sameButGuard_line (g : Symbol → Symbol) (p : Palette) (e : Event) :
    SameButGuard g (e.line p) ((e.mapGuard g).line p) := by
  cases e with
  | symbol pos source s c target =>
    refine .inr ⟨line.at_ p pos ++ line.number p source ++ ": " ++ p.green ++ "\"", s,
      "\"" ++ p.reset ++ " -> " ++ line.number p target, ?_, ?_⟩
    · simp only [line, String.append_assoc]
    · simp only [mapGuard, line, String.append_assoc]
  | _ => exact .inl rfl

namespace Automaton

variable {g : Symbol → Symbol} {σ τ : Type}

theorem getElem?_states_mapGuards (a : Automaton) (i : Nat) :
    (a.mapGuards g).states[i]? = a.states[i]?.map (·.mapGuards g) :=
  Array.getElem?_map

theorem transitionsAt_mapGuards (a : Automaton) (i : Nat) :
    (a.mapGuards g).transitionsAt i = (a.transitionsAt i).map (·.mapGuard g) := by
  rw [transitionsAt, getElem?_states_mapGuards, transitionsAt]
  cases a.states[i]? <;> rfl

theorem acceptsAt_mapGuards (a : Automaton) (i : Nat) :
    (a.mapGuards g).acceptsAt i = a.acceptsAt i := by
  rw [acceptsAt, getElem?_states_mapGuards, acceptsAt]
  cases a.states[i]? <;> rfl

theorem frameAt_mapGuards (a : Automaton) (state pos : Nat) (rest : List Char)
    (earlier : List Nat) :
    (a.mapGuards g).frameAt state pos rest earlier
      = (a.frameAt state pos rest earlier).mapGuards g := by
  rw [frameAt, transitionsAt_mapGuards]
  rfl

/-! ## One round -/

/-- What a round says of the automaton with other guards. -/
def mapOutcome (g : Symbol → Symbol) (r : List Event × Round) : List Event × Round :=
  (r.1.map (·.mapGuard g), r.2.mapGuards g)

theorem enter_mapGuards (a : Automaton) (f : Frame) (stack : List Frame) :
    (a.mapGuards g).enter (f.mapGuards g) (stack.map (·.mapGuards g))
      = mapOutcome g (a.enter f stack) := by
  unfold enter
  rw [acceptsAt_mapGuards]
  show (if (f.rest.isEmpty && a.acceptsAt f.state) = true then _ else _) = _
  split
  · rfl
  · rfl

variable (hg : ∀ s c, (g s).includes c = s.includes c)
include hg

/-- **A round does the same with other guards**, as long as these include
the same characters. -/
theorem step_mapGuards (a : Automaton) (stack : List Frame) :
    (a.mapGuards g).step (stack.map (·.mapGuards g)) = mapOutcome g (a.step stack) := by
  cases stack with
  | nil => rfl
  | cons f stack =>
    rw [List.map_cons]
    cases hp : f.pending with
    | nil =>
      have hp' : (f.mapGuards g).pending = [] := by rw [Frame.pending_mapGuards, hp, List.map_nil]
      rw [step_of_pending_nil a hp, step_of_pending_nil _ hp']
      rfl
    | cons t ts =>
      have hp' : (f.mapGuards g).pending = t.mapGuard g :: ts.map (·.mapGuard g) := by
        rw [Frame.pending_mapGuards, hp, List.map_cons]
      -- the round in which a further state is entered
      have henter (next : Frame) := enter_mapGuards (g := g) a next ({ f with pending := ts } :: stack)
      cases t with
      | symbol s target =>
        cases hrest : f.rest with
        | nil =>
          rw [step_of_rest_nil a hp hrest, step_of_rest_nil _ hp' hrest]
          rfl
        | cons c rest =>
          rw [step_of_pending_symbol a hp hrest, step_of_pending_symbol _ hp' hrest, hg,
            size_states_mapGuards, frameAt_mapGuards]
          dsimp only
          split
          next =>
            exact congrArg (fun r : List Event × Round =>
              (Event.symbol f.pos f.state (g s) c target :: r.1, r.2)) (henter _)
          next => rfl
      | epsilon target =>
        rw [step_of_pending_epsilon a hp, step_of_pending_epsilon _ hp', size_states_mapGuards,
          frameAt_mapGuards, Frame.run_mapGuards]
        dsimp only
        split
        next => rfl
        next =>
          split
          next =>
            exact congrArg (fun r : List Event × Round =>
              (Event.epsilon f.pos f.state target :: r.1, r.2)) (henter _)
          next => rfl

/-! ## The whole search -/

omit hg in
theorem foldl_observe {observe : σ → Event → σ} {observe' : τ → Event → τ} {φ : σ → τ}
    (hφ : ∀ seen e, observe' (φ seen) (e.mapGuard g) = φ (observe seen e)) (events : List Event)
    (seen : σ) :
    (events.map (·.mapGuard g)).foldl observe' (φ seen) = φ (events.foldl observe seen) := by
  induction events generalizing seen with
  | nil => rfl
  | cons e events ih => rw [List.map_cons, List.foldl_cons, List.foldl_cons, hφ, ih]

/-- **The search does the same with other guards**, for observers that
take the events with other guards for the events themselves. -/
theorem search_mapGuards {observe : σ → Event → σ} {observe' : τ → Event → τ} {φ : σ → τ}
    (hφ : ∀ seen e, observe' (φ seen) (e.mapGuard g) = φ (observe seen e)) (a : Automaton)
    (seen : σ) (stack : List Frame) :
    (a.mapGuards g).search observe' (φ seen) (stack.map (·.mapGuards g))
      = ((a.search observe seen stack).1, φ (a.search observe seen stack).2) := by
  -- every round makes the stack lighter
  induction h : a.weight stack using Nat.strongRecOn generalizing seen stack with
  | ind n ih =>
    subst h
    rw [search_eq, search_eq a, step_mapGuards hg]
    cases hstep : a.step stack with
    | mk events round =>
    cases round with
    | accepted => exact congrArg (Prod.mk true) (foldl_observe hφ events seen)
    | exhausted => exact congrArg (Prod.mk false) (foldl_observe hφ events seen)
    | running next =>
      have hlt : a.weight next < a.weight stack := weight_lt_of_step (by rw [hstep])
      show (a.mapGuards g).search observe' ((events.map (·.mapGuard g)).foldl observe' (φ seen))
        (next.map (·.mapGuards g)) = _
      rw [foldl_observe hφ]
      exact ih _ hlt _ _ rfl

/-- A run does the same with other guards. -/
theorem run_mapGuards {observe : σ → Event → σ} {observe' : τ → Event → τ} {φ : σ → τ}
    (hφ : ∀ seen e, observe' (φ seen) (e.mapGuard g) = φ (observe seen e)) (a : Automaton)
    (seen : σ) (text : List Char) :
    (a.mapGuards g).run observe' (φ seen) text
      = ((a.run observe seen text).1, φ (a.run observe seen text).2) := by
  have henter := enter_mapGuards (g := g) a (a.frameAt a.entry 0 text []) []
  rw [List.map_nil] at henter
  have hentry : (a.mapGuards g).entry = a.entry := rfl
  unfold run
  rw [hentry, frameAt_mapGuards, henter]
  cases a.enter (a.frameAt a.entry 0 text []) [] with
  | mk events round =>
    cases round with
    | accepted => exact congrArg (Prod.mk true) (foldl_observe hφ events seen)
    | exhausted => exact congrArg (Prod.mk false) (foldl_observe hφ events seen)
    | running stack =>
      show (a.mapGuards g).search observe' ((events.map (·.mapGuard g)).foldl observe' (φ seen))
        (stack.map (·.mapGuards g)) = _
      rw [foldl_observe hφ]
      exact search_mapGuards hg hφ a _ stack

/-- **Other guards accept the same texts.** -/
theorem accepts_mapGuards (a : Automaton) (text : List Char) :
    (a.mapGuards g).accepts text = a.accepts text :=
  congrArg Prod.fst (run_mapGuards hg (φ := id) (fun _ _ => rfl) a () text)

/-- **The trace is the same event by event**, apart from the guards. -/
theorem trace_mapGuards (a : Automaton) (text : List Char) :
    (a.mapGuards g).trace text
      = ((a.trace text).1, (a.trace text).2.map (·.mapGuard g)) := by
  have hrun : (a.mapGuards g).run (fun seen e => e :: seen) [] text
      = ((a.run (fun seen e => e :: seen) [] text).1,
        (a.run (fun seen e => e :: seen) [] text).2.map (·.mapGuard g)) :=
    run_mapGuards hg (φ := List.map (Event.mapGuard g)) (fun _ _ => rfl) a [] text
  simp only [trace, hrun, List.map_reverse]

/-- **The printed trace is the same line by line**, apart from the texts
of the guards. -/
theorem traceLines_mapGuards (a : Automaton) (p : Palette) (text : List Char) :
    ((a.mapGuards g).traceLines p text).1 = (a.traceLines p text).1
      ∧ List.Forall₂ (SameButGuard g) (a.traceLines p text).2
          ((a.mapGuards g).traceLines p text).2 := by
  simp only [traceLines, trace_mapGuards hg, List.map_map, List.forall₂_map_left_iff,
    List.forall₂_map_right_iff]
  exact ⟨trivial, List.forall₂_same.2 fun e _ => e.sameButGuard_line g p⟩

end Automaton

end Regexp
