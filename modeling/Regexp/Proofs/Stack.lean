import Mathlib.Data.List.Nodup
import Mathlib.Data.List.Perm.Subperm
import Regexp.Automaton.Search

/-!
# The stack of a search

`Automaton.roundAfter` is the loop of the search, one round at a time. It
comes to an end (`Automaton.exists_roundAfter_eq_verdict`), although a
state may be entered and left again at one position over and over.

All that a round can do is said once (`Automaton.Turn`): it ends, leaves
the latest state, passes over a transition, or follows one into a further
state. Each of these keeps the frames on a path from the entry
(`Automaton.Standing`), in which every frame was entered by the transition
that the frame behind it tried last. What is known of the stack is read
off that path: the positions never decrease, since only a character moves
them; a run of epsilon transitions meets no state twice, since the guard
looks at just that run; and so each character allows for as many frames
as there are states (`Automaton.rounds_bounded`).
-/

namespace Regexp

/-- The event tells of a transition, not of a state that is entered, left
or accepted. -/
def Event.OfTransition : Event → Prop
  | .symbol .. | .epsilon .. | .cycle .. => True
  | .enter .. | .backtrack .. | .accept .. => False

theorem Frame.run_ne_nil (f : Frame) : f.run ≠ [] :=
  List.cons_ne_nil _ _

theorem Frame.length_run (f : Frame) : f.run.length = f.earlier.length + 1 :=
  List.length_cons

namespace Automaton

variable {a : Automaton} {text : List Char} {f g : Frame} {stack next : List Frame}
variable {t : Transition} {ts : List Transition} {events : List Event}

/-! ## The rounds of the loop -/

/-- **The loop of the search** for a path that consumes `text`, after as
many rounds. -/
def roundAfter (a : Automaton) (text : List Char) : Nat → Round
  | 0 => (a.enter (a.frameAt a.entry 0 text []) []).2
  | n + 1 =>
    match a.roundAfter text n with
    | .running stack => (a.step stack).2
    | r => r

/-- How the loop ends. -/
def verdict (accepted : Bool) : Round :=
  if accepted then .accepted else .exhausted

/-- From every stack that it comes to, the loop goes on to the verdict of
the search. -/
theorem exists_roundAfter_eq_search {σ : Type} (observe : σ → Event → σ) (seen : σ) {n : Nat}
    (h : a.roundAfter text n = .running stack) :
    ∃ m, a.roundAfter text m = verdict (a.search observe seen stack).1 := by
  -- every round makes the stack lighter
  induction hw : a.weight stack using Nat.strongRecOn generalizing seen n stack with
  | ind w ih =>
    subst hw
    have hnext : a.roundAfter text (n + 1) = (a.step stack).2 := by rw [roundAfter, h]
    rw [search_eq]
    split
    next hstep => exact ⟨n + 1, by rw [hnext, hstep]; rfl⟩
    next hstep => exact ⟨n + 1, by rw [hnext, hstep]; rfl⟩
    next events next hstep =>
      have hlt : a.weight next < a.weight stack := weight_lt_of_step (by rw [hstep])
      exact ih _ hlt _ (by rw [hnext, hstep]) rfl

/-- **The loop ends**, and it ends with the verdict of the search. -/
theorem exists_roundAfter_eq_verdict (a : Automaton) (text : List Char) :
    ∃ n, a.roundAfter text n = verdict (a.accepts text) := by
  have hstart : a.roundAfter text 0 = (a.enter (a.frameAt a.entry 0 text []) []).2 := rfl
  unfold accepts run
  split
  next events stack h =>
    rw [h] at hstart
    exact exists_roundAfter_eq_search _ _ hstart
  next events round hne h =>
    rw [h] at hstart
    refine ⟨0, ?_⟩
    rw [hstart]
    cases round with
    | accepted => rfl
    | exhausted => rfl
    | running stack => exact (hne _ rfl).elim

/-! ## What a round can do -/

/-- The text ends in the state of the frame, and the state is an accepting
one. -/
def Stops (a : Automaton) (f : Frame) : Prop :=
  f.rest = [] ∧ a.acceptsAt f.state = true

/-- The frame of the state that a transition of `f` leads to, if the
search follows it. -/
def follow (a : Automaton) (f : Frame) : Transition → Option Frame
  | .epsilon j =>
    if f.run.contains j then none
    else if j < a.states.size then some (a.frameAt j f.pos f.rest f.run) else none
  | .symbol s j =>
    match f.rest with
    | [] => none
    | c :: rest =>
      if s.includes c && j < a.states.size then some (a.frameAt j (f.pos + 1) rest []) else none

/-- What is followed does not depend on the transitions still to be
tried. -/
@[simp] theorem follow_pending (a : Automaton) (f : Frame) (ts : List Transition) :
    a.follow { f with pending := ts } t = a.follow f t := by
  cases t <;> rfl

/-- An epsilon transition is followed into a state that the run has not
met. -/
theorem follow_epsilon {j : Nat} :
    a.follow f (.epsilon j) = some g
      ↔ j ∉ f.run ∧ j < a.states.size ∧ g = a.frameAt j f.pos f.rest f.run := by
  simp only [follow, List.contains_iff_mem]
  split
  next hrun => exact iff_of_false (by rintro ⟨⟩) fun h => h.1 hrun
  next hrun =>
    rw [and_iff_right hrun]
    split
    next hj => rw [and_iff_right hj, Option.some_inj, eq_comm]
    next hj => exact iff_of_false (by rintro ⟨⟩) fun h => hj h.1

/-- A transition with a symbol is followed if the symbol includes the next
character. -/
theorem follow_symbol {s : Symbol} {j : Nat} :
    a.follow f (.symbol s j) = some g
      ↔ ∃ c rest, f.rest = c :: rest ∧ s.includes c = true ∧ j < a.states.size
        ∧ g = a.frameAt j (f.pos + 1) rest [] := by
  cases hrest : f.rest with
  | nil =>
    simp only [follow, hrest]
    exact iff_of_false (by rintro ⟨⟩) (by rintro ⟨c, rest, ⟨⟩, _⟩)
  | cons c rest =>
    simp only [follow, hrest, Bool.and_eq_true, decide_eq_true_iff]
    constructor
    · intro h
      split at h <;> cases h
      next hc => exact ⟨c, rest, rfl, hc.1, hc.2, rfl⟩
    · rintro ⟨_, _, ⟨⟩, hc, hj, rfl⟩
      exact if_pos ⟨hc, hj⟩

/-- **All that a round can do** with a stack: the events it reports, and
how it ends. -/
inductive Turn (a : Automaton) : List Frame → List Event → Round → Prop where
  /-- No frame is left. -/
  | done : a.Turn [] [] .exhausted
  /-- The latest state has no transition left and is left itself. -/
  | back {f : Frame} {stack : List Frame} (h : f.pending = []) :
      a.Turn (f :: stack) [.backtrack f.pos f.state] (.running stack)
  /-- A transition is not followed. -/
  | skip {f : Frame} {stack : List Frame} {t : Transition} {ts : List Transition}
      {events : List Event} (h : f.pending = t :: ts) (ht : a.follow f t = none)
      (hevents : ∀ e ∈ events, e.OfTransition) :
      a.Turn (f :: stack) events (.running ({ f with pending := ts } :: stack))
  /-- A transition is followed into a further state. -/
  | push {f g : Frame} {stack : List Frame} {t : Transition} {ts : List Transition}
      {events : List Event} (h : f.pending = t :: ts) (ht : a.follow f t = some g)
      (hg : ¬ a.Stops g) (hevents : ∀ e ∈ events, e.OfTransition) :
      a.Turn (f :: stack) (events ++ [.enter g.pos g.state])
        (.running (g :: { f with pending := ts } :: stack))
  /-- A transition is followed into a state in which the text is
  accepted. -/
  | accept {f g : Frame} {stack : List Frame} {t : Transition} {ts : List Transition}
      {events : List Event} (h : f.pending = t :: ts) (ht : a.follow f t = some g)
      (hg : a.Stops g) (hevents : ∀ e ∈ events, e.OfTransition) :
      a.Turn (f :: stack) (events ++ [.enter g.pos g.state, .accept g.pos g.state]) .accepted

theorem enter_of_stops (h : a.Stops g) :
    a.enter g stack = ([.enter g.pos g.state, .accept g.pos g.state], .accepted) := by
  rw [enter, if_pos (by rw [h.1, h.2]; rfl)]

theorem enter_of_not_stops (h : ¬ a.Stops g) :
    a.enter g stack = ([.enter g.pos g.state], .running (g :: stack)) := by
  rw [enter, if_neg]
  rwa [Bool.and_eq_true, List.isEmpty_iff]

/-- A round in which a transition is followed. -/
theorem turn_enter (h : f.pending = t :: ts) (ht : a.follow f t = some g) {e : Event}
    (he : e.OfTransition) :
    a.Turn (f :: stack) (e :: (a.enter g ({ f with pending := ts } :: stack)).1)
      (a.enter g ({ f with pending := ts } :: stack)).2 := by
  have hevents : ∀ e' ∈ [e], e'.OfTransition := List.forall_mem_singleton.2 he
  by_cases hg : a.Stops g
  · rw [enter_of_stops hg]
    exact .accept h ht hg hevents
  · rw [enter_of_not_stops hg]
    exact .push h ht hg hevents

/-- **A round does one of these things.** -/
theorem turn_step (a : Automaton) (stack : List Frame) :
    a.Turn stack (a.step stack).1 (a.step stack).2 := by
  cases stack with
  | nil => exact .done
  | cons f stack =>
    cases h : f.pending with
    | nil =>
      rw [step_of_pending_nil a h]
      exact .back h
    | cons t ts =>
      cases t with
      | symbol s j =>
        cases hrest : f.rest with
        | nil =>
          rw [step_of_rest_nil a h hrest]
          exact .skip h (by rw [follow, hrest]) (List.forall_mem_nil _)
        | cons c rest =>
          rw [step_of_pending_symbol a h hrest]
          dsimp only
          split
          next hc => exact turn_enter h (by rw [follow, hrest]; exact if_pos hc) trivial
          next hc =>
            exact .skip h (by rw [follow, hrest]; exact if_neg hc) (List.forall_mem_nil _)
      | epsilon j =>
        rw [step_of_pending_epsilon a h]
        dsimp only
        split
        next hrun =>
          exact .skip h (by rw [follow, if_pos hrun]) (List.forall_mem_singleton.2 trivial)
        next hrun =>
          split
          next hj => exact turn_enter h (by rw [follow, if_neg hrun, if_pos hj]) trivial
          next hj =>
            exact .skip h (by rw [follow, if_neg hrun, if_neg hj]) (List.forall_mem_nil _)

/-! ## The path that the frames are on -/

/-- **The frames stand on a path from the entry**: each was entered by the
transition that the frame behind it tried last. -/
inductive Standing (a : Automaton) (text : List Char) : List Frame → Prop where
  /-- The empty path. -/
  | nil : a.Standing text []
  /-- The path of the entry alone. -/
  | root {ts : List Transition} (hts : ts <:+ a.transitionsAt a.entry) :
      a.Standing text [{ a.frameAt a.entry 0 text [] with pending := ts }]
  /-- A path that has gone on by one transition. -/
  | push {f g : Frame} {stack : List Frame} {t : Transition} {ts : List Transition}
      (hf : a.Standing text (f :: stack)) (ht : t :: f.pending <:+ a.transitionsAt f.state)
      (hg : a.follow f t = some g) (hts : ts <:+ g.pending) :
      a.Standing text ({ g with pending := ts } :: f :: stack)

namespace Standing

/-- The path is shorter when its last state is left. -/
theorem tail (h : a.Standing text (f :: stack)) : a.Standing text stack := by
  cases h with
  | root => exact .nil
  | push hf => exact hf

/-- The path is the same when a transition has been tried. -/
theorem skip (h : a.Standing text (f :: stack)) (hts : ts <:+ f.pending) :
    a.Standing text ({ f with pending := ts } :: stack) := by
  cases h with
  | root hts' => exact .root (hts.trans hts')
  | @push _ g _ _ _ hf ht hg hts' => exact .push (g := g) hf ht hg (hts.trans hts')

end Standing

/-- A frame that is followed into starts with all transitions of its
state. -/
theorem pending_of_follow (h : a.follow f t = some g) : g.pending = a.transitionsAt g.state := by
  cases t with
  | epsilon j =>
    obtain ⟨_, _, rfl⟩ := follow_epsilon.1 h
    rfl
  | symbol s j =>
    obtain ⟨c, rest, _, _, _, rfl⟩ := follow_symbol.1 h
    rfl

namespace Standing

/-- What a frame has still to try are the last transitions of its
state. -/
theorem pending_suffix (h : a.Standing text (f :: stack)) :
    f.pending <:+ a.transitionsAt f.state := by
  cases h with
  | root hts => exact hts
  | push _ _ hg hts => exact pending_of_follow hg ▸ hts

/-- The path goes on by a transition that is followed. -/
theorem enter (h : a.Standing text (f :: stack)) (hp : f.pending = t :: ts)
    (ht : a.follow f t = some g) : a.Standing text (g :: { f with pending := ts } :: stack) := by
  have hsuffix : t :: ts <:+ a.transitionsAt f.state := hp ▸ h.pending_suffix
  have hskip : a.Standing text ({ f with pending := ts } :: stack) :=
    h.skip (hp ▸ List.suffix_cons t ts)
  exact .push hskip hsuffix (by rwa [follow_pending]) List.suffix_rfl

end Standing

/-- **Every round keeps the frames on a path.** -/
theorem Standing.turn (h : a.Standing text stack) (ht : a.Turn stack events (.running next)) :
    a.Standing text next := by
  cases ht with
  | back => exact h.tail
  | skip hp => exact h.skip (hp ▸ List.suffix_cons _ _)
  | push hp ht => exact h.enter hp ht

/-- The search starts on the path of the entry alone. -/
theorem standing_root (a : Automaton) (text : List Char) :
    a.Standing text [a.frameAt a.entry 0 text []] :=
  .root List.suffix_rfl

/-- **The frames are on a path in every round.** -/
theorem standing_roundAfter {n : Nat} (h : a.roundAfter text n = .running stack) :
    a.Standing text stack := by
  induction n generalizing stack with
  | zero =>
    rw [enter_running h]
    exact a.standing_root text
  | succ n ih =>
    rw [roundAfter] at h
    split at h
    next stack' h' =>
      have hturn := a.turn_step stack'
      rw [h] at hturn
      exact (ih h').turn hturn
    next hne => exact absurd h (hne stack)

/-! ## What is known of a stack -/

/-- **How a frame was entered** from the frame behind it: by the
transition that this one tried last. -/
inductive EnteredFrom (a : Automaton) (g f : Frame) : Prop where
  /-- Nothing was consumed, and the run of epsilon transitions goes on to
  a new state. -/
  | epsilon (ht : .epsilon g.state :: f.pending <:+ a.transitionsAt f.state)
      (hlt : g.state < a.states.size) (hpos : g.pos = f.pos) (hrest : g.rest = f.rest)
      (hearlier : g.earlier = f.run) (hnew : g.state ∉ f.run)
  /-- A character was consumed, and with it a new run begins. -/
  | symbol {s : Symbol} {c : Char}
      (ht : .symbol s g.state :: f.pending <:+ a.transitionsAt f.state)
      (hlt : g.state < a.states.size) (hpos : g.pos = f.pos + 1) (hrest : f.rest = c :: g.rest)
      (hearlier : g.earlier = []) (hc : s.includes c = true)

/-- The states of the latest frames, down to the nearest one that was
entered by consuming a character, or to the entry. -/
def latestRun : List Frame → List Nat
  | [] => []
  | f :: stack => f.state :: if f.earlier = [] then [] else latestRun stack

/-- **What holds of the stack** in a search for a path that consumes
`text`. -/
structure OnPath (a : Automaton) (text : List Char) (stack : List Frame) : Prop where
  /-- The path begins in the entry, before the first character. -/
  root : ∀ f ∈ stack.getLast?, f.state = a.entry ∧ f.pos = 0 ∧ f.earlier = []
  /-- Each further frame was entered from the one behind it. -/
  path : stack.IsChain a.EnteredFrom
  /-- Positions never decrease. -/
  pos_mono : stack.Pairwise fun g f => f.pos ≤ g.pos
  /-- Positions grow, by one, just where a character was consumed. -/
  pos_grows : stack.IsChain fun g f => g.pos = if g.earlier = [] then f.pos + 1 else f.pos
  /-- Positions do not exceed the text, and the text behind them is what
  is left. -/
  rest_eq : ∀ f ∈ stack, f.pos ≤ text.length ∧ f.rest = text.drop f.pos
  /-- The guard of a frame sees the whole run of epsilon transitions that
  the frame ends, and nothing else. -/
  run_eq : ∀ f below, f :: below <:+ stack → f.run = latestRun (f :: below)
  /-- The states of each run are pairwise distinct. -/
  nodup_run : ∀ f ∈ stack, f.run.Nodup
  /-- The stack is bounded. -/
  length_le : stack.length ≤ (text.length + 1) * a.states.size

theorem enteredFrom_of_follow (ht : t :: f.pending <:+ a.transitionsAt f.state)
    (hg : a.follow f t = some g) : a.EnteredFrom { g with pending := ts } f := by
  cases t with
  | epsilon j =>
    obtain ⟨hnew, hj, rfl⟩ := follow_epsilon.1 hg
    exact .epsilon ht hj rfl rfl rfl hnew
  | symbol s j =>
    obtain ⟨c, rest, hrest, hc, hj, rfl⟩ := follow_symbol.1 hg
    exact .symbol ht hj rfl hrest rfl hc

/-- Only a character moves the position. -/
theorem EnteredFrom.pos_eq (h : a.EnteredFrom g f) :
    g.pos = if g.earlier = [] then f.pos + 1 else f.pos := by
  cases h with
  | epsilon _ _ hpos _ hearlier _ => rw [hpos, hearlier, if_neg f.run_ne_nil]
  | symbol _ _ hpos _ hearlier _ => rw [hpos, hearlier, if_pos rfl]

namespace Standing

theorem suffix (h : a.Standing text stack) (hnext : next <:+ stack) : a.Standing text next := by
  obtain ⟨above, rfl⟩ := hnext
  induction above with
  | nil => exact h
  | cons f above ih => exact ih h.tail

theorem path (h : a.Standing text stack) : stack.IsChain a.EnteredFrom := by
  induction h with
  | nil => exact .nil
  | root => exact .singleton _
  | push _ ht hg _ ih => exact .cons_cons (enteredFrom_of_follow ht hg) ih

theorem root_of_getLast? (h : a.Standing text stack) :
    ∀ f ∈ stack.getLast?, f.state = a.entry ∧ f.pos = 0 ∧ f.earlier = [] := by
  induction h with
  | nil => rintro f ⟨⟩
  | root => rintro f ⟨⟩; exact ⟨rfl, rfl, rfl⟩
  | push _ _ _ _ ih => rwa [List.getLast?_cons_cons]

/-- **What holds of the entry and is kept from frame to frame** holds of
every frame. -/
theorem forall_of_enteredFrom {P : Frame → Prop} (h : a.Standing text stack)
    (hroot : ∀ ts, P { a.frameAt a.entry 0 text [] with pending := ts })
    (hnext : ∀ f g, P f → a.EnteredFrom g f → P g) : ∀ f ∈ stack, P f := by
  induction h with
  | nil => exact List.forall_mem_nil _
  | @root ts _ => exact List.forall_mem_singleton.2 (hroot ts)
  | push _ ht hg _ ih =>
    exact List.forall_mem_cons.2
      ⟨hnext _ _ (ih _ List.mem_cons_self) (enteredFrom_of_follow ht hg), ih⟩

theorem rest_eq (h : a.Standing text stack) :
    ∀ f ∈ stack, f.pos ≤ text.length ∧ f.rest = text.drop f.pos := by
  refine h.forall_of_enteredFrom (fun _ => ⟨Nat.zero_le _, rfl⟩) fun f g ⟨hle, hf⟩ hg => ?_
  cases hg with
  | epsilon _ _ hpos hrest _ _ => rw [hpos, hrest]; exact ⟨hle, hf⟩
  | @symbol s c _ _ hpos hrest _ _ =>
    have hcons : text.drop f.pos = c :: g.rest := hf.symm.trans hrest
    have hlt : f.pos < text.length := by
      refine Nat.lt_of_not_le fun hge => ?_
      rw [List.drop_eq_nil_of_le hge] at hcons
      cases hcons
    rw [hpos]
    refine ⟨hlt, ?_⟩
    rw [← List.tail_drop, hcons, List.tail_cons]

theorem nodup_run (h : a.Standing text stack) : ∀ f ∈ stack, f.run.Nodup := by
  refine h.forall_of_enteredFrom (fun _ => List.nodup_singleton _) fun f g hf hg => ?_
  unfold Frame.run
  cases hg with
  | epsilon _ _ _ _ hearlier hnew => rw [hearlier]; exact List.nodup_cons.2 ⟨hnew, hf⟩
  | symbol _ _ _ _ hearlier _ => rw [hearlier]; exact List.nodup_singleton _

theorem run_lt_size (h : a.Standing text stack) (hentry : a.entry < a.states.size) :
    ∀ f ∈ stack, ∀ i ∈ f.run, i < a.states.size := by
  refine h.forall_of_enteredFrom (fun _ => List.forall_mem_singleton.2 hentry) fun f g hf hg => ?_
  unfold Frame.run
  cases hg with
  | epsilon _ hlt _ _ hearlier _ => rw [hearlier]; exact List.forall_mem_cons.2 ⟨hlt, hf⟩
  | symbol _ hlt _ _ hearlier _ => rw [hearlier]; exact List.forall_mem_singleton.2 hlt

/-- A run meets each state once, so it is no longer than the table of
states. -/
theorem length_run_le (h : a.Standing text stack) (hentry : a.entry < a.states.size)
    (hf : f ∈ stack) : f.run.length ≤ a.states.size := by
  have hsub : f.run ⊆ List.range a.states.size :=
    fun i hi => List.mem_range.2 (h.run_lt_size hentry f hf i hi)
  have hle := ((h.nodup_run f hf).subperm hsub).length_le
  rwa [List.length_range] at hle

/-- **What a frame remembers is its run**: it need not look at the stack
to see which states the run has met. -/
theorem run_eq_latestRun (h : a.Standing text (f :: stack)) : f.run = latestRun (f :: stack) := by
  generalize hs : f :: stack = frames at h
  induction h generalizing f stack with
  | nil => cases hs
  | root => cases hs; rfl
  | @push f' g stack' t ts hf ht hg hts ih =>
    obtain ⟨rfl, rfl⟩ := List.cons.inj hs
    have hrun := ih rfl
    have hentered : a.EnteredFrom { g with pending := ts } f' := enteredFrom_of_follow ht hg
    unfold latestRun
    cases hentered with
    | epsilon _ _ _ _ hearlier _ =>
      rw [Frame.run, hearlier, if_neg f'.run_ne_nil, ← hrun]
    | symbol _ _ _ _ hearlier _ => rw [Frame.run, hearlier, if_pos rfl]

/-- **The frames behind one character and the next are a run**, and there
is one run before each character. -/
theorem length_le (h : a.Standing text (f :: stack)) (hentry : a.entry < a.states.size) :
    (f :: stack).length ≤ f.pos * a.states.size + f.run.length := by
  generalize hs : f :: stack = frames at h
  induction h generalizing f stack with
  | nil => cases hs
  | root =>
    cases hs
    exact Nat.le_add_left _ _
  | @push f' g stack' t ts hf ht hg hts ih =>
    obtain ⟨rfl, rfl⟩ := List.cons.inj hs
    have hlen := ih rfl
    have hrun := hf.length_run_le hentry List.mem_cons_self
    have hentered : a.EnteredFrom { g with pending := ts } f' := enteredFrom_of_follow ht hg
    rw [List.length_cons, Frame.length_run]
    cases hentered with
    | epsilon _ _ hpos _ hearlier _ =>
      rw [hpos, hearlier]
      omega
    | symbol _ _ hpos _ hearlier _ =>
      rw [hpos, hearlier, Nat.add_mul, Nat.one_mul]
      omega

/-- **All that is known of a stack** follows from its standing on a
path. -/
theorem onPath (h : a.Standing text stack) (hentry : a.entry < a.states.size) :
    a.OnPath text stack where
  root := h.root_of_getLast?
  path := h.path
  pos_grows := h.path.imp fun _ _ => EnteredFrom.pos_eq
  pos_mono := by
    have hle : stack.IsChain fun g f => f.pos ≤ g.pos := by
      refine h.path.imp fun g f hg => ?_
      have := hg.pos_eq
      split at this <;> omega
    have : Std.Refl fun n m : Nat => n ≤ m := ⟨Nat.le_refl⟩
    have : IsTrans Frame fun g f => f.pos ≤ g.pos := ⟨fun _ _ _ h h' => Nat.le_trans h' h⟩
    exact hle.pairwise
  rest_eq := h.rest_eq
  run_eq := fun _ _ hbelow => (h.suffix hbelow).run_eq_latestRun
  nodup_run := h.nodup_run
  length_le := by
    cases stack with
    | nil => exact Nat.zero_le _
    | cons f stack =>
      have hlen := h.length_le hentry
      have hpos := (h.rest_eq f List.mem_cons_self).1
      have hrun := h.length_run_le hentry List.mem_cons_self
      have hmul := Nat.mul_le_mul_right a.states.size hpos
      rw [Nat.add_mul, Nat.one_mul]
      omega

end Standing

/-- **The loop of the search ends, and its stack is bounded**: whatever
circles the automaton has, some round accepts the text or leaves no frame,
and until then the frames are a path from the entry that holds at most as
many frames for each character, and one time more, as there are
states. -/
theorem rounds_bounded (a : Automaton) (text : List Char) (hentry : a.entry < a.states.size) :
    (∃ n, a.roundAfter text n = verdict (a.accepts text))
      ∧ ∀ n stack, a.roundAfter text n = .running stack → a.OnPath text stack :=
  ⟨a.exists_roundAfter_eq_verdict text, fun _ _ h => (standing_roundAfter h).onPath hentry⟩

/-- Two states that lead to each other by epsilon transitions, the second
of which also reads the letter `a`. -/
def circling : Automaton :=
  ⟨#[⟨0, false, [.epsilon 1]⟩, ⟨1, true, [.epsilon 0, .symbol (.letter (.literal 'a')) 1]⟩], 0, 1⟩

theorem rounds_bounded_circling :
    circling.entry < circling.states.size
      ∧ (∃ n, circling.roundAfter ['a', 'a'] n = .accepted)
      ∧ ∀ n stack, circling.roundAfter ['a', 'a'] n = .running stack → stack.length ≤ 6 := by
  have hentry : circling.entry < circling.states.size := by decide
  have haccepts : circling.accepts ['a', 'a'] = true := by cbv
  obtain ⟨hend, hpath⟩ := circling.rounds_bounded ['a', 'a'] hentry
  rw [haccepts] at hend
  exact ⟨hentry, hend, fun n stack h => (hpath n stack h).length_le⟩

end Automaton

end Regexp
