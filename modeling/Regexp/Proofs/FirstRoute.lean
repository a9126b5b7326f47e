import Regexp.Proofs.Stack
import Regexp.Proofs.Trail

/-!
# The path that the search finds

The search does not find just any path. Of all those that it may take, it
finds the one that comes first in the order in which the transitions of
the states are declared, and this order is all that tells a greedy
quantifier from a lazy one. The events of the search let one see the path:
it consists of the states that are entered and not left again.

`Automaton.Route` says which paths the search may take, with the number
of the transition chosen in each state, and does so without mention of a
search. The frames on the stack are the beginning of a route
(`Automaton.Standing.route_iff`), and every round keeps to one invariant:
no route comes before the choices that the frames stand for
(`Automaton.Ahead.turn`). So the first route that is met comes before all
others (`Automaton.trace_faithful`).
-/

namespace Regexp

/-! ## Events as brackets -/

/-- The event tells that the text is accepted. -/
def Event.IsAccept : Event → Prop
  | .accept .. => True
  | _ => False

/-- The positions and states entered and not left again, the latest first,
once the event has happened as well. Only the latest of them can be
left. -/
def Event.nest : List (Nat × Nat) → Event → Option (List (Nat × Nat))
  | places, .enter pos state => some ((pos, state) :: places)
  | place :: places, .backtrack pos state => if place = (pos, state) then some places else none
  | [], .backtrack _ _ => none
  | places, _ => some places

/-- **The positions and states entered and not left again**, the latest
first. The result is `none` if entering and leaving do not nest like
brackets. -/
def openAfter (places : List (Nat × Nat)) (events : List Event) : Option (List (Nat × Nat)) :=
  events.foldlM Event.nest places

theorem openAfter_append (places : List (Nat × Nat)) (events later : List Event) :
    openAfter places (events ++ later) = (openAfter places events).bind (openAfter · later) :=
  List.foldlM_append

theorem Event.OfTransition.nest {e : Event} (he : e.OfTransition) (places : List (Nat × Nat)) :
    Event.nest places e = some places := by
  cases e with
  | symbol => cases places <;> rfl
  | epsilon => cases places <;> rfl
  | cycle => cases places <;> rfl
  | enter => exact he.elim
  | backtrack => exact he.elim
  | accept => exact he.elim

theorem Event.OfTransition.not_isAccept {e : Event} (he : e.OfTransition) : ¬ e.IsAccept := by
  cases e with
  | accept => exact he.elim
  | _ => exact id

/-- Events that tell of transitions enter and leave no state. -/
theorem openAfter_of_forall {events : List Event} (h : ∀ e ∈ events, e.OfTransition)
    (places : List (Nat × Nat)) : openAfter places events = some places := by
  induction events with
  | nil => rfl
  | cons e events ih =>
    obtain ⟨he, h⟩ := List.forall_mem_cons.1 h
    rw [openAfter, List.foldlM_cons, he.nest places]
    exact ih h

/-! ## The order of choices -/

/-- **The choices `m` do not come before `l` followed by `k`**, in the
order that compares the first choices that differ and puts a list before
its extensions. -/
inductive Beyond (k : Nat) : List Nat → List Nat → Prop where
  /-- All of `l` is chosen, and then `k` or a later one. -/
  | here {n : Nat} {m : List Nat} (h : k ≤ n) : Beyond k [] (n :: m)
  /-- A later choice than in `l`. -/
  | later {p q : Nat} {l m : List Nat} (h : p < q) : Beyond k (p :: l) (q :: m)
  /-- The same choice as in `l`. -/
  | same {p : Nat} {l m : List Nat} (h : Beyond k l m) : Beyond k (p :: l) (p :: m)

namespace Beyond

variable {k p : Nat} {l m : List Nat}

/-- What does not come before a list of choices is the same or comes
after it. -/
theorem eq_or_lex (h : Beyond k l m) : l ++ [k] = m ∨ List.Lex (· < ·) (l ++ [k]) m := by
  induction h with
  | @here n m h =>
    rcases Nat.eq_or_lt_of_le h with rfl | hlt
    · cases m with
      | nil => exact .inl rfl
      | cons n m => exact .inr (.cons .nil)
    · exact .inr (.rel hlt)
  | later h => exact .inr (.rel h)
  | same _ ih => exact ih.imp (congrArg _) .cons

/-- Once `k` has been tried, the next choice is tried. -/
theorem succ_or_eq_append (h : Beyond k l m) :
    Beyond (k + 1) l m ∨ ∃ m', m = l ++ k :: m' := by
  induction h with
  | @here n m h =>
    rcases Nat.eq_or_lt_of_le h with rfl | hlt
    · exact .inr ⟨m, rfl⟩
    · exact .inl (.here hlt)
  | later h => exact .inl (.later h)
  | same _ ih => exact ih.imp .same fun ⟨m', hm⟩ => ⟨m', congrArg _ hm⟩

/-- If the choices do not end with `k`, a first choice follows it. -/
theorem zero_append (h : Beyond k l m) (hne : m ≠ l ++ [k]) : Beyond 0 (l ++ [k]) m := by
  induction h with
  | @here n m h =>
    rcases Nat.eq_or_lt_of_le h with rfl | hlt
    · cases m with
      | nil => exact (hne rfl).elim
      | cons n m => exact .same (.here (Nat.zero_le n))
    · exact .later hlt
  | later h => exact .later h
  | same _ ih => exact .same (ih fun hm => hne (congrArg _ hm))

/-- Once nothing is left to choose behind `p`, the choice after `p` is
tried. -/
theorem succ_or_eq_append_append (h : Beyond k (l ++ [p]) m) :
    Beyond (p + 1) l m ∨ ∃ n m', k ≤ n ∧ m = l ++ [p] ++ n :: m' := by
  induction l generalizing m with
  | nil =>
    cases h with
    | later h => exact .inl (.here h)
    | same h =>
      cases h with
      | @here n m h => exact .inr ⟨n, m, h, rfl⟩
  | cons q l ih =>
    cases h with
    | later h => exact .inl (.later h)
    | same h => exact (ih h).imp .same fun ⟨n, m', hn, hm⟩ => ⟨n, m', hn, congrArg _ hm⟩

end Beyond

namespace Automaton

variable {a : Automaton} {text : List Char} {f g : Frame} {stack next : List Frame}
variable {t : Transition} {ts : List Transition} {events : List Event}
variable {choices : List Nat} {places : List (Nat × Nat)}

/-! ## Routes -/

/-- **The paths that the search may take** from the state at `i`, behind
`pos` characters, to an accepting state: they consume `w` and meet no
state twice between two characters, where the states of `run` have been
met since the last one. A route comes with the number of the transition
that is chosen in each state, and with the positions and states that it
goes through. -/
inductive Route (a : Automaton) :
    List Nat → Nat → Nat → List Char → List Nat → List (Nat × Nat) → Prop where
  /-- The text ends in an accepting state. -/
  | stop {run : List Nat} {i pos : Nat} (h : a.acceptsAt i = true) :
      a.Route run i pos [] [] [(pos, i)]
  /-- The route goes on to a new state and consumes nothing. -/
  | epsilon {run : List Nat} {i j pos n : Nat} {w : List Char} {choices : List Nat}
      {places : List (Nat × Nat)} (h : (a.transitionsAt i)[n]? = some (.epsilon j))
      (hj : j ∉ i :: run) (p : a.Route (i :: run) j pos w choices places) :
      a.Route run i pos w (n :: choices) ((pos, i) :: places)
  /-- The route consumes a character; from then on every state is new. -/
  | symbol {run : List Nat} {i j pos n : Nat} {s : Symbol} {c : Char} {w : List Char}
      {choices : List Nat} {places : List (Nat × Nat)}
      (h : (a.transitionsAt i)[n]? = some (.symbol s j)) (hc : s.includes c = true)
      (p : a.Route [] j (pos + 1) w choices places) :
      a.Route run i pos (c :: w) (n :: choices) ((pos, i) :: places)

/-- A route is a trail. -/
theorem Route.trail {run : List Nat} {i pos : Nat} {w : List Char}
    (p : a.Route run i pos w choices places) : a.Trail run i w := by
  induction p with
  | stop h => exact .stop h
  | epsilon h hj _ ih => exact .epsilon (List.mem_of_getElem? h) hj ih
  | symbol h hc _ ih => exact .symbol (List.mem_of_getElem? h) hc ih

/-- The routes that go on from a frame. -/
def RouteFrom (a : Automaton) (f : Frame) : List Nat → List (Nat × Nat) → Prop :=
  a.Route f.earlier f.state f.pos f.rest

/-- A route that chooses nothing ends where it starts. -/
theorem routeFrom_nil : a.RouteFrom f [] places ↔ a.Stops f ∧ places = [(f.pos, f.state)] := by
  obtain ⟨state, pos, rest, pending, earlier⟩ := f
  constructor
  · intro p
    cases p with
    | stop h => exact ⟨⟨rfl, h⟩, rfl⟩
  · rintro ⟨⟨rfl, h⟩, rfl⟩
    exact .stop h

/-- **A route goes on by a transition that the search follows.** -/
theorem routeFrom_cons {n : Nat} :
    a.RouteFrom f (n :: choices) places
      ↔ ∃ t g places', (a.transitionsAt f.state)[n]? = some t ∧ a.follow f t = some g
        ∧ places = (f.pos, f.state) :: places' ∧ a.RouteFrom g choices places' := by
  obtain ⟨state, pos, rest, pending, earlier⟩ := f
  constructor
  · intro p
    cases p with
    | epsilon h hj p =>
      exact ⟨_, _, _, h, follow_epsilon.2 ⟨hj, p.trail.lt_size, rfl⟩, rfl, p⟩
    | symbol h hc p =>
      exact ⟨_, _, _, h, follow_symbol.2 ⟨_, _, rfl, hc, p.trail.lt_size, rfl⟩, rfl, p⟩
  · rintro ⟨t, g, places', h, ht, rfl, p⟩
    cases t with
    | epsilon j =>
      obtain ⟨hj, _, rfl⟩ := follow_epsilon.1 ht
      exact .epsilon h hj p
    | symbol s j =>
      obtain ⟨c, rest, rfl, hc, _, rfl⟩ := follow_symbol.1 ht
      exact .symbol h hc p

/-! ## The stack as the beginning of a route -/

/-- How many transitions of the frame have been tried. -/
def tried (a : Automaton) (f : Frame) : Nat :=
  (a.transitionsAt f.state).length - f.pending.length

/-- The choices that the frames stand for, from the entry on: in each the
transition that was tried last. -/
def choicesOf (a : Automaton) : List Frame → List Nat
  | [] => []
  | f :: stack => a.choicesOf stack ++ [a.tried f - 1]

/-- The positions and states of the frames, the latest first. -/
def placesOf (stack : List Frame) : List (Nat × Nat) :=
  stack.map fun f => (f.pos, f.state)

/-- The transition behind those that have been tried is the next one. -/
theorem getElem?_tried (h : f.pending <:+ a.transitionsAt f.state) (hp : f.pending = t :: ts) :
    (a.transitionsAt f.state)[a.tried f]? = some t := by
  obtain ⟨before, hbefore⟩ := h
  have htried : a.tried f = before.length := by
    rw [tried, ← hbefore, List.length_append, Nat.add_sub_cancel]
  rw [htried, ← hbefore, hp, List.getElem?_append_right (Nat.le_refl _), Nat.sub_self]
  rfl

/-- Trying a transition is counted. -/
theorem tried_tail (h : f.pending <:+ a.transitionsAt f.state) (hp : f.pending = t :: ts) :
    a.tried { f with pending := ts } = a.tried f + 1 := by
  have hle := h.length_le
  simp only [tried, hp, List.length_cons] at hle ⊢
  omega

/-- **The frames are the beginning of a route**: the routes from the entry
that begin with their choices are the routes that go on from the latest
frame. -/
theorem Standing.route_iff (h : a.Standing text (f :: stack)) :
    a.Route [] a.entry 0 text (a.choicesOf stack ++ choices) places
      ↔ ∃ places', places = (placesOf stack).reverse ++ places' ∧ a.RouteFrom f choices places' := by
  generalize hs : f :: stack = frames at h
  induction h generalizing f stack choices places with
  | nil => cases hs
  | root =>
    cases hs
    constructor
    · intro p
      exact ⟨places, rfl, p⟩
    · rintro ⟨_, rfl, p⟩
      exact p
  | @push f' g stack' t ts hf ht hg hts ih =>
    obtain ⟨rfl, rfl⟩ := List.cons.inj hs
    -- the transition that `f'` tried last is the one that leads to `g`
    have hlast : (a.transitionsAt f'.state)[a.tried f' - 1]? = some t :=
      getElem?_tried (f := { f' with pending := t :: f'.pending }) ht rfl
    rw [choicesOf, List.append_assoc, List.singleton_append, ih rfl]
    simp only [routeFrom_cons, placesOf, List.map_cons, List.reverse_cons, List.append_assoc,
      List.singleton_append]
    constructor
    · rintro ⟨_, rfl, t', g', places', ht', hg', rfl, p⟩
      obtain rfl := Option.some.inj (ht'.symm.trans hlast)
      obtain rfl := Option.some.inj (hg'.symm.trans hg)
      exact ⟨places', rfl, p⟩
    · rintro ⟨places', rfl, p⟩
      exact ⟨_, rfl, t, g, places', hlast, hg, rfl, p⟩

/-- The routes that go on by the next transition of the latest frame. -/
theorem Standing.route_next (h : a.Standing text (f :: stack)) (hp : f.pending = t :: ts) :
    a.Route [] a.entry 0 text (a.choicesOf stack ++ a.tried f :: choices) places
      ↔ ∃ g places', a.follow f t = some g
        ∧ places = (placesOf (f :: stack)).reverse ++ places' ∧ a.RouteFrom g choices places' := by
  simp only [h.route_iff, routeFrom_cons, getElem?_tried h.pending_suffix hp, Option.some_inj,
    placesOf, List.map_cons, List.reverse_cons, List.append_assoc, List.singleton_append]
  constructor
  · rintro ⟨_, rfl, _, g, places', rfl, hg, rfl, p⟩
    exact ⟨g, places', hg, rfl, p⟩
  · rintro ⟨g, places', hg, rfl, p⟩
    exact ⟨_, rfl, t, g, places', rfl, hg, rfl, p⟩

/-! ## No route comes before the stack -/

/-- **Every route is still ahead**: it does not come before the choices of
the frames and the next transition of the latest one. Without frames there
is no route. -/
def Ahead (a : Automaton) (text : List Char) : List Frame → Prop
  | [] => ∀ choices places, ¬ a.Route [] a.entry 0 text choices places
  | f :: stack => ∀ choices places, a.Route [] a.entry 0 text choices places →
      Beyond (a.tried f) (a.choicesOf stack) choices

/-- A search that does not end in the entry has every route ahead. -/
theorem ahead_root (h : ¬ a.Stops (a.frameAt a.entry 0 text [])) :
    a.Ahead text [a.frameAt a.entry 0 text []] := by
  intro choices places p
  have htried : a.tried (a.frameAt a.entry 0 text []) = 0 := Nat.sub_self _
  rw [htried]
  cases choices with
  | nil => exact (h (routeFrom_nil (f := a.frameAt a.entry 0 text []) |>.1 p).1).elim
  | cons n choices => exact .here (Nat.zero_le n)

/-- No route goes on by a transition that a state does not have. -/
theorem Standing.not_route (h : a.Standing text (f :: stack)) (hp : f.pending = []) {n : Nat}
    (hn : a.tried f ≤ n) : ¬ a.Route [] a.entry 0 text (a.choicesOf stack ++ n :: choices) places := by
  intro p
  obtain ⟨places', -, p⟩ := h.route_iff.1 p
  obtain ⟨t, g, _, ht, -⟩ := routeFrom_cons.1 p
  rw [tried, hp, List.length_nil, Nat.sub_zero] at hn
  rw [List.getElem?_eq_none hn] at ht
  cases ht

/-- Leaving a state of which all transitions have been tried leaves every
route ahead. -/
theorem Ahead.tail (ha : a.Ahead text (f :: stack)) (h : a.Standing text (f :: stack))
    (hp : f.pending = []) : a.Ahead text stack := by
  cases stack with
  | nil =>
    intro choices places p
    have hbeyond := ha choices places p
    cases hbeyond with
    | here hn => exact h.not_route hp hn p
  | cons f' stack =>
    intro choices places p
    have hsucc : a.tried f' - 1 + 1 = a.tried f' := by
      cases h with
      | push hf ht => exact (tried_tail (f := { f' with pending := _ :: f'.pending }) ht rfl).symm
    rw [← hsucc]
    refine (ha choices places p).succ_or_eq_append_append.resolve_right ?_
    rintro ⟨n, choices', hn, rfl⟩
    exact h.not_route hp hn p

/-- **Every round leaves every route ahead.** -/
theorem Ahead.turn (ha : a.Ahead text stack) (h : a.Standing text stack)
    (ht : a.Turn stack events (.running next)) : a.Ahead text next := by
  cases ht with
  | back hp => exact ha.tail h hp
  | skip hp hskip =>
    intro choices places p
    rw [tried_tail h.pending_suffix hp]
    refine (ha choices places p).succ_or_eq_append.resolve_right ?_
    rintro ⟨choices', rfl⟩
    -- the route would go on by the transition that is not followed
    obtain ⟨g, _, hg, -⟩ := (h.route_next hp).1 p
    rw [hskip] at hg
    cases hg
  | @push f g stack t ts _ hp hg hstops =>
    intro choices places p
    have htried : a.tried g = 0 := by rw [tried, pending_of_follow hg, Nat.sub_self]
    rw [htried, choicesOf, tried_tail h.pending_suffix hp, Nat.add_sub_cancel]
    refine (ha choices places p).zero_append ?_
    rintro rfl
    -- the route would end in the state that is entered
    obtain ⟨g', _, hg', -, p⟩ := (h.route_next hp).1 p
    obtain rfl := Option.some.inj (hg.symm.trans hg')
    exact hstops (routeFrom_nil.1 p).1

/-! ## What the events tell -/

/-- **The account of a search that fails**, where `places` are entered
before it: all that is entered is left, nothing is accepted, and there is
no route. -/
structure Failure (a : Automaton) (text : List Char) (places : List (Nat × Nat))
    (events : List Event) : Prop where
  /-- Everything entered is left again. -/
  closed : openAfter places events = some []
  /-- Nothing is accepted. -/
  not_accept : ∀ e ∈ events, ¬ e.IsAccept
  /-- There is no route. -/
  no_route : ∀ choices places, ¬ a.Route [] a.entry 0 text choices places

/-- **The account of a search that succeeds**, where `places` are entered
before it, with the choices and the places of a route. -/
structure Success (a : Automaton) (text : List Char) (places : List (Nat × Nat))
    (events : List Event) (choices : List Nat) (route : List (Nat × Nat)) : Prop where
  /-- The route is one that the search may take. -/
  isRoute : a.Route [] a.entry 0 text choices route
  /-- What is entered and not left again is the route. -/
  open_eq : openAfter places events = some route.reverse
  /-- The last event, and no other, is that the end of the route is
  accepted, behind the whole text. -/
  last_accept : ∃ i before, route.getLast? = some (text.length, i)
    ∧ events = before ++ [.accept text.length i] ∧ ∀ e ∈ before, ¬ e.IsAccept
  /-- No other route comes before it, in the lexicographic order of
  choices. -/
  first : ∀ choices' route', a.Route [] a.entry 0 text choices' route' →
    choices = choices' ∨ List.Lex (· < ·) choices choices'

/-- The account of a search, by its verdict. -/
def Account (a : Automaton) (text : List Char) (places : List (Nat × Nat)) (events : List Event) :
    Bool → Prop
  | true => ∃ choices route, a.Success text places events choices route
  | false => a.Failure text places events

/-- Events before the search, none of which accepts, add to its account. -/
theorem Account.append {before later : List Event} {b : Bool} {places' : List (Nat × Nat)}
    (h : a.Account text places' later b) (hopen : openAfter places before = some places')
    (hbefore : ∀ e ∈ before, ¬ e.IsAccept) : a.Account text places (before ++ later) b := by
  have happend : openAfter places (before ++ later) = openAfter places' later := by
    rw [openAfter_append, hopen]
    rfl
  cases b with
  | false =>
    exact ⟨happend.trans h.closed, List.forall_mem_append.2 ⟨hbefore, h.not_accept⟩, h.no_route⟩
  | true =>
    obtain ⟨choices, route, hroute, hroute_open, ⟨i, before', hlast, rfl, hbefore'⟩, hfirst⟩ := h
    exact ⟨choices, route, hroute, happend.trans hroute_open,
      ⟨i, before ++ before', hlast, (List.append_assoc ..).symm,
        List.forall_mem_append.2 ⟨hbefore, hbefore'⟩⟩, hfirst⟩

/-- **A round enters and leaves what the stack shows**, and accepts
nothing while the search goes on. -/
theorem Turn.openAfter_eq (ht : a.Turn stack events (.running next)) :
    openAfter (placesOf stack) events = some (placesOf next) ∧ ∀ e ∈ events, ¬ e.IsAccept := by
  cases ht with
  | back =>
    refine ⟨?_, List.forall_mem_singleton.2 id⟩
    simp only [openAfter, placesOf, List.map_cons, List.foldlM_cons, Event.nest, if_true]
    rfl
  | skip _ _ hevents =>
    exact ⟨openAfter_of_forall hevents _, fun e he => (hevents e he).not_isAccept⟩
  | push _ _ _ hevents =>
    rw [openAfter_append, openAfter_of_forall hevents]
    exact ⟨rfl, List.forall_mem_append.2
      ⟨fun e he => (hevents e he).not_isAccept, List.forall_mem_singleton.2 id⟩⟩

/-- A text that ends in the entry has the route that chooses nothing. -/
theorem account_entry (h : a.Stops (a.frameAt a.entry 0 text [])) :
    a.Account text [] [.enter 0 a.entry, .accept 0 a.entry] true := by
  obtain ⟨rfl, haccepts⟩ : text = [] ∧ a.acceptsAt a.entry = true := h
  refine ⟨[], [(0, a.entry)], .stop haccepts, rfl,
    ⟨a.entry, [.enter 0 a.entry], rfl, rfl, List.forall_mem_singleton.2 id⟩, ?_⟩
  intro choices' route' _
  cases choices' with
  | nil => exact .inl rfl
  | cons => exact .inr .nil

/-- A state with nothing left to consume stands behind the whole text. -/
theorem Standing.pos_of_rest_nil (h : a.Standing text (f :: stack)) (hrest : f.rest = []) :
    f.pos = text.length := by
  obtain ⟨hle, hdrop⟩ := h.rest_eq f List.mem_cons_self
  rw [hrest, eq_comm, List.drop_eq_nil_iff] at hdrop
  exact Nat.le_antisymm hle hdrop

/-- **A round that accepts** ends the first of the routes that are
ahead. -/
theorem Ahead.account (ha : a.Ahead text stack) (h : a.Standing text stack)
    (ht : a.Turn stack events .accepted) : a.Account text (placesOf stack) events true := by
  cases ht with
  | @accept f g stack t ts events hp hg hstops hevents =>
    have hpos : g.pos = text.length := (h.enter hp hg).pos_of_rest_nil hstops.1
    have hopen : openAfter (placesOf (f :: stack))
        (events ++ [.enter g.pos g.state, .accept g.pos g.state])
          = some ((g.pos, g.state) :: placesOf (f :: stack)) := by
      rw [openAfter_append, openAfter_of_forall hevents]
      rfl
    refine ⟨a.choicesOf stack ++ [a.tried f],
      (placesOf (f :: stack)).reverse ++ [(g.pos, g.state)], ?_, ?_, ?_, ?_⟩
    · exact (h.route_next hp).2 ⟨g, _, hg, rfl, routeFrom_nil.2 ⟨hstops, rfl⟩⟩
    · rw [hopen, List.reverse_append, List.reverse_reverse]
      rfl
    · refine ⟨g.state, events ++ [.enter g.pos g.state], ?_, ?_, ?_⟩
      · rw [List.getLast?_concat, hpos]
      · rw [List.append_assoc, ← hpos]
        rfl
      · exact List.forall_mem_append.2
          ⟨fun e he => (hevents e he).not_isAccept, List.forall_mem_singleton.2 id⟩
    · exact fun choices' route' p => (ha choices' route' p).eq_or_lex

/-- **The search gives its account to any observer**: there is a list of
events that all observers are shown, and it is what it should be. -/
theorem exists_search_eq (h : a.Standing text stack) (ha : a.Ahead text stack) :
    ∃ events b, (∀ {σ : Type} (observe : σ → Event → σ) (seen : σ),
        a.search observe seen stack = (b, events.foldl observe seen))
      ∧ a.Account text (placesOf stack) events b := by
  -- every round makes the stack lighter
  induction hw : a.weight stack using Nat.strongRecOn generalizing stack with
  | ind w ih =>
    subst hw
    have hturn := a.turn_step stack
    cases hstep : a.step stack with
    | mk events round =>
    rw [hstep] at hturn
    cases round with
    | accepted =>
      refine ⟨events, true, fun observe seen => ?_, ha.account h hturn⟩
      rw [search_eq, hstep]
    | exhausted =>
      refine ⟨events, false, fun observe seen => ?_, ?_⟩
      · rw [search_eq, hstep]
      · cases hturn
        exact ⟨rfl, List.forall_mem_nil _, ha⟩
    | running next =>
      have hlt : a.weight next < a.weight stack := weight_lt_of_step (by rw [hstep])
      obtain ⟨later, b, hsearch, haccount⟩ := ih _ hlt (h.turn hturn) (ha.turn h hturn) rfl
      obtain ⟨hopen, hquiet⟩ := hturn.openAfter_eq
      refine ⟨events ++ later, b, fun observe seen => ?_, haccount.append hopen hquiet⟩
      rw [search_eq, hstep, List.foldl_append]
      exact hsearch observe _

/-- The run of an automaton gives its account to any observer. -/
theorem exists_run_eq (a : Automaton) (text : List Char) :
    ∃ events b, (∀ {σ : Type} (observe : σ → Event → σ) (seen : σ),
        a.run observe seen text = (b, events.foldl observe seen))
      ∧ a.Account text [] events b := by
  by_cases hstops : a.Stops (a.frameAt a.entry 0 text [])
  · refine ⟨_, true, fun observe seen => ?_, account_entry hstops⟩
    rw [run, enter_of_stops hstops]
    rfl
  · obtain ⟨events, b, hsearch, haccount⟩ :=
      exists_search_eq (a.standing_root text) (ahead_root hstops)
    refine ⟨.enter 0 a.entry :: events, b, fun observe seen => ?_, ?_⟩
    · rw [run, enter_of_not_stops hstops]
      exact hsearch observe _
    · have hopen : openAfter [] [.enter 0 a.entry]
          = some (placesOf [a.frameAt a.entry 0 text []]) := rfl
      exact haccount.append hopen (List.forall_mem_singleton.2 id)

/-- **The trace is a faithful account of an ordered search.** Every
observer is shown the events of the trace and has no influence on the
verdict. Entering and leaving nest like brackets. If the text is not
accepted, everything entered is left again, nothing is accepted, and the
automaton has no route for the text. If it is accepted, what is still
entered at the end is the first of all routes, and it is accepted in the
last event. -/
theorem trace_faithful (a : Automaton) (text : List Char) :
    (∀ {σ : Type} (observe : σ → Event → σ) (seen : σ),
        a.run observe seen text = (a.accepts text, (a.trace text).2.foldl observe seen))
      ∧ (a.trace text).1 = a.accepts text
      ∧ a.Account text [] (a.trace text).2 (a.accepts text) := by
  obtain ⟨events, b, hrun, haccount⟩ := a.exists_run_eq text
  have hverdict : a.accepts text = b := by rw [accepts, hrun]
  have htrace : a.trace text = (b, events) := by
    simp only [trace, hrun, List.foldl_flip_cons_eq_append', List.append_nil, List.reverse_reverse]
  rw [hverdict, htrace]
  exact ⟨hrun, rfl, haccount⟩

end Automaton

end Regexp
