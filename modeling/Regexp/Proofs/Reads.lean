import Mathlib.Algebra.Order.BigOperators.Group.List
import Mathlib.Computability.Language
import Mathlib.Order.CompletePartialOrder
import Regexp.Automaton.Construction
import Regexp.Automaton.Path

/-!
# Languages between states

`a.reads i j` is the language of all paths from the state at `i` to the
state at `j`. It is the least family of languages that the transitions
allow (`Arena.reads_le`), and this is how an upper bound for it is shown:
give a language for each state and check every transition once.

The construction of automata adds transitions to states that are there
already. What one more transition does to all languages is a single
equation (`Arena.reads_of_added`): a path either avoids the new
transition, or it goes to its source, then any number of times through it
and back to its source, and then through it for the last time.
-/

namespace Regexp

open Computability

/-- The characters that a symbol includes, as texts of length one. -/
def Symbol.language (s : Symbol) : Language Char :=
  {w | ∃ c, s.includes c = true ∧ w = [c]}

/-- The texts that a transition consumes. -/
def Transition.label : Transition → Language Char
  | .epsilon _ => 1
  | .symbol s _ => s.language

@[simp] theorem Transition.label_epsilon (t : Nat) : (epsilon t).label = 1 := rfl

@[simp] theorem Transition.label_symbol (s : Symbol) (t : Nat) :
    (symbol s t).label = s.language := rfl

namespace Arena

variable {a b : Arena} {i j k : Nat} {t : Transition} {w : List Char}

/-- A sum is the least language that its parts are part of. -/
theorem sum_le {f : Transition → Language Char} {ts : List Transition} {l : Language Char}
    (h : ∀ t ∈ ts, f t ≤ l) : (ts.map f).sum ≤ l := by
  induction ts with
  | nil => exact zero_le
  | cons u ts ih =>
    obtain ⟨hu, hts⟩ := List.forall_mem_cons.1 h
    rw [List.map_cons, List.sum_cons]
    exact add_le hu (ih hts)

/-- The transitions that leave the state at a position. -/
def transitionsAt (a : Arena) (i : Nat) : List Transition :=
  (Automaton.mk a 0 0).transitionsAt i

/-- Whether the state at a position is an accepting one. -/
def acceptsAt (a : Arena) (i : Nat) : Bool :=
  (Automaton.mk a 0 0).acceptsAt i

/-- **The language between two states**: the texts of the paths that lead
from one to the other. -/
def reads (a : Arena) (i j : Nat) : Language Char :=
  {w | (Automaton.mk a 0 0).Path i w j}

/-- Paths do not depend on where an automaton is entered and left. -/
theorem mem_reads_iff {entry exit : Nat} :
    w ∈ a.reads i j ↔ (Automaton.mk a entry exit).Path i w j := by
  constructor
  · intro p
    induction p with
    | nil i => exact .nil i
    | epsilon h _ ih => exact .epsilon h ih
    | symbol h hc _ ih => exact .symbol h hc ih
  · intro p
    induction p with
    | nil i => exact .nil i
    | epsilon h _ ih => exact .epsilon h ih
    | symbol h hc _ ih => exact .symbol h hc ih

/-- The empty path. -/
theorem one_le_reads (a : Arena) (i : Nat) : 1 ≤ a.reads i i := by
  intro w hw
  rw [(Language.mem_one w).1 hw]
  exact .nil i

/-- Paths compose. -/
theorem reads_mul_reads_le (a : Arena) (i j k : Nat) : a.reads i j * a.reads j k ≤ a.reads i k := by
  intro w hw
  obtain ⟨u, hu, v, hv, rfl⟩ := Language.mem_mul.1 hw
  exact Automaton.Path.append hu hv

/-- A transition and a path behind it make a path. -/
theorem label_mul_reads_le (ht : t ∈ a.transitionsAt i) (j : Nat) :
    t.label * a.reads t.target j ≤ a.reads i j := by
  intro w hw
  obtain ⟨u, hu, v, hv, rfl⟩ := Language.mem_mul.1 hw
  cases t with
  | epsilon k =>
    rw [(Language.mem_one u).1 hu]
    exact .epsilon ht hv
  | symbol s k =>
    obtain ⟨c, hc, rfl⟩ := hu
    exact .symbol ht hc hv

/-- **The languages into a state are the least that the transitions
allow**, on every set of positions that no transition leaves. -/
theorem reads_le {S : Nat → Prop} {X : Nat → Language Char} (hj : S j → 1 ≤ X j)
    (hX : ∀ i, S i → ∀ t ∈ a.transitionsAt i, S t.target ∧ t.label * X t.target ≤ X i) (hi : S i) :
    a.reads i j ≤ X i := by
  intro w p
  induction p with
  | nil i => exact hj hi (Language.nil_mem_one)
  | @epsilon i k j w h _ ih =>
    obtain ⟨hk, hle⟩ := hX i hi _ h
    rw [Transition.label_epsilon, one_mul] at hle
    exact hle (ih hj hk)
  | @symbol i k j s c w h hc _ ih =>
    obtain ⟨hk, hle⟩ := hX i hi _ h
    have hc : [c] ∈ (Transition.symbol s k).label := ⟨c, hc, rfl⟩
    exact hle (Language.append_mem_mul hc (ih hj hk))

/-- **The first transition of a path**: a path that is not empty has
one. -/
theorem reads_eq_add_sum (a : Arena) (i j : Nat) :
    a.reads i j = (if i = j then 1 else 0)
      + ((a.transitionsAt i).map fun t => t.label * a.reads t.target j).sum := by
  refine le_antisymm (fun w p => ?_) (add_le ?_ (sum_le fun t ht => label_mul_reads_le ht j))
  · refine (Language.mem_add _ _ _).2 ?_
    have hsum : ∀ t ∈ a.transitionsAt i, t.label * a.reads t.target j
        ≤ ((a.transitionsAt i).map fun t => t.label * a.reads t.target j).sum := fun t ht =>
      List.le_sum_of_mem (List.mem_map_of_mem ht)
    cases p with
    | nil i =>
      rw [if_pos rfl]
      exact .inl Language.nil_mem_one
    | @epsilon _ k _ _ h p =>
      have hle := hsum _ h
      rw [Transition.label_epsilon, one_mul] at hle
      exact .inr (hle p)
    | @symbol _ k _ s c w h hc p =>
      have hmem : [c] ∈ (Transition.symbol s k).label := ⟨c, hc, rfl⟩
      exact .inr (hsum _ h (Language.append_mem_mul hmem p))
  · split
    next h => exact h ▸ a.one_le_reads i
    next => exact zero_le

/-- Nothing is read from a state that no transition leaves. -/
theorem reads_of_transitionsAt_eq_nil (h : a.transitionsAt i = []) (j : Nat) :
    a.reads i j = if i = j then 1 else 0 := by
  rw [reads_eq_add_sum, h]
  exact add_zero _

/-- Fewer transitions make fewer paths. -/
theorem reads_mono (h : ∀ i, ∀ t ∈ a.transitionsAt i, t ∈ b.transitionsAt i) (i j : Nat) :
    a.reads i j ≤ b.reads i j :=
  reads_le (S := fun _ => True) (X := fun i => b.reads i j) (fun _ => b.one_le_reads j)
    (fun i _ t ht => ⟨trivial, label_mul_reads_le (h i t ht) j⟩) trivial

/-- **One more transition**: `b` has the transition `t` at `s` and all
those of `a`. -/
theorem reads_of_added {s : Nat}
    (h : ∀ i u, u ∈ b.transitionsAt i ↔ u ∈ a.transitionsAt i ∨ i = s ∧ u = t) (i j : Nat) :
    b.reads i j
      = a.reads i j
        + a.reads i s * (t.label * a.reads t.target s)∗ * (t.label * a.reads t.target j) := by
  have hab : ∀ i j, a.reads i j ≤ b.reads i j := reads_mono fun i u hu => (h i u).2 (.inl hu)
  have ht : ∀ k, t.label * a.reads t.target k ≤ b.reads s k := fun k =>
    (mul_le_mul_right (hab _ _) _).trans (label_mul_reads_le ((h s t).2 (.inr ⟨rfl, rfl⟩)) k)
  refine le_antisymm ?_ (add_le (hab i j) ?_)
  · refine reads_le (S := fun _ => True)
      (X := fun i => a.reads i j
        + a.reads i s * (t.label * a.reads t.target s)∗ * (t.label * a.reads t.target j))
      (fun _ => (a.one_le_reads j).trans le_self_add) (fun i _ u hu => ⟨trivial, ?_⟩) trivial
    rcases (h i u).1 hu with hu | ⟨rfl, rfl⟩
    · -- a transition of `a` in front keeps the form
      rw [mul_add, ← mul_assoc u.label, ← mul_assoc u.label]
      exact add_le_add (label_mul_reads_le hu j)
        (mul_le_mul_left (mul_le_mul_left (label_mul_reads_le hu s) _) _)
    · -- the new transition in front makes one more round
      refine le_add_of_le_right ?_
      calc u.label * (a.reads u.target j
            + a.reads u.target i * (u.label * a.reads u.target i)∗
              * (u.label * a.reads u.target j))
          = (1 + u.label * a.reads u.target i * (u.label * a.reads u.target i)∗)
              * (u.label * a.reads u.target j) := by
            rw [add_mul, one_mul, mul_add]
            simp only [mul_assoc]
        _ = 1 * (u.label * a.reads u.target i)∗ * (u.label * a.reads u.target j) := by
            rw [one_add_mul_kstar, one_mul]
        _ ≤ a.reads i i * (u.label * a.reads u.target i)∗ * (u.label * a.reads u.target j) :=
            mul_le_mul_left (mul_le_mul_left (a.one_le_reads i) _) _
  · have hstar : (t.label * a.reads t.target s)∗ ≤ b.reads s s :=
      kstar_le_of_mul_le_right (b.one_le_reads s)
        ((mul_le_mul_left (ht s) _).trans (b.reads_mul_reads_le s s s))
    calc a.reads i s * (t.label * a.reads t.target s)∗ * (t.label * a.reads t.target j)
        ≤ b.reads i s * b.reads s s * b.reads s j :=
          mul_le_mul' (mul_le_mul' (hab i s) hstar) (ht j)
      _ ≤ b.reads i s * b.reads s j := mul_le_mul_left (b.reads_mul_reads_le i s s) _
      _ ≤ b.reads i j := b.reads_mul_reads_le i s j

/-! ## What each step of the construction adds -/

theorem transitionsAt_eq (a : Arena) (i : Nat) :
    a.transitionsAt i = (a[i]?.map (·.transitions)).getD [] := by
  unfold transitionsAt Automaton.transitionsAt
  cases a[i]? <;> rfl

theorem acceptsAt_eq (a : Arena) (i : Nat) :
    a.acceptsAt i = (a[i]?.map (·.accept)).getD false := by
  unfold acceptsAt Automaton.acceptsAt
  cases a[i]? <;> rfl

variable {accept : Bool} {ts : List Transition} {s target : Nat} {u : Transition}

@[simp] theorem size_addState (a : Arena) (accept : Bool) (ts : List Transition) :
    (a.addState accept ts).size = a.size + 1 := by
  simp [addState]

@[simp] theorem size_addEpsilon (a : Arena) (s target : Nat) :
    (a.addEpsilon s target).size = a.size := by
  simp [addEpsilon]

@[simp] theorem size_passOn (a : Arena) (exit target : Nat) :
    (a.passOn exit target).size = a.size := by
  simp [passOn]

theorem getElem?_addState_of_lt (hi : i < a.size) : (a.addState accept ts)[i]? = a[i]? := by
  rw [addState, Array.getElem?_push_lt hi, Array.getElem?_eq_getElem hi]

theorem getElem?_addEpsilon_of_ne (hi : s ≠ i) : (a.addEpsilon s target)[i]? = a[i]? := by
  rw [addEpsilon, Array.getElem?_modify, if_neg hi]

theorem getElem?_passOn_of_ne (hi : s ≠ i) : (a.passOn s target)[i]? = a[i]? := by
  rw [passOn, Array.getElem?_modify, if_neg hi]

/-- A further state has the transitions given and leaves the others
alone. -/
theorem transitionsAt_addState (a : Arena) (accept : Bool) (ts : List Transition) (i : Nat) :
    (a.addState accept ts).transitionsAt i = if i = a.size then ts else a.transitionsAt i := by
  rw [transitionsAt_eq, transitionsAt_eq, addState, Array.getElem?_push]
  split <;> rfl

theorem acceptsAt_addState (a : Arena) (accept : Bool) (ts : List Transition) (i : Nat) :
    (a.addState accept ts).acceptsAt i = if i = a.size then accept else a.acceptsAt i := by
  rw [acceptsAt_eq, acceptsAt_eq, addState, Array.getElem?_push]
  split <;> rfl

/-- A further epsilon transition is the only one that is new. -/
theorem mem_transitionsAt_addEpsilon (hs : s < a.size) :
    u ∈ (a.addEpsilon s target).transitionsAt i
      ↔ u ∈ a.transitionsAt i ∨ i = s ∧ u = .epsilon target := by
  rw [transitionsAt_eq, transitionsAt_eq, addEpsilon, Array.getElem?_modify]
  split
  next h => subst h; simp [Array.getElem?_eq_getElem hs]
  next h => simp [Ne.symm h]

@[simp] theorem acceptsAt_addEpsilon (a : Arena) (s target i : Nat) :
    (a.addEpsilon s target).acceptsAt i = a.acceptsAt i := by
  rw [acceptsAt_eq, acceptsAt_eq, addEpsilon, Array.getElem?_modify]
  split
  next h => subst h; cases a[s]? <;> rfl
  next => rfl

/-- Going on from an exit adds one epsilon transition as well. -/
theorem mem_transitionsAt_passOn (hs : s < a.size) :
    u ∈ (a.passOn s target).transitionsAt i
      ↔ u ∈ a.transitionsAt i ∨ i = s ∧ u = .epsilon target := by
  rw [transitionsAt_eq, transitionsAt_eq, passOn, Array.getElem?_modify]
  split
  next h => subst h; simp [Array.getElem?_eq_getElem hs, State.setAccept]
  next h => simp [Ne.symm h]

/-- The exit that is gone on from stops accepting. -/
theorem acceptsAt_passOn (a : Arena) (s target i : Nat) :
    (a.passOn s target).acceptsAt i = if i = s then false else a.acceptsAt i := by
  rw [acceptsAt_eq, acceptsAt_eq, passOn, Array.getElem?_modify]
  by_cases h : s = i
  · subst h
    rw [if_pos rfl, if_pos rfl]
    cases a[s]? <;> rfl
  · rw [if_neg h, if_neg (Ne.symm h)]

/-- The languages behind a further epsilon transition. -/
theorem reads_addEpsilon (hs : s < a.size) (i j : Nat) :
    (a.addEpsilon s target).reads i j
      = a.reads i j + a.reads i s * (a.reads target s)∗ * a.reads target j := by
  have h := reads_of_added (a := a) (t := .epsilon target)
    (fun i u => mem_transitionsAt_addEpsilon (i := i) (u := u) hs) i j
  rwa [Transition.label_epsilon, one_mul, one_mul] at h

/-- The languages once an exit has been gone on from. -/
theorem reads_passOn (hs : s < a.size) (i j : Nat) :
    (a.passOn s target).reads i j
      = a.reads i j + a.reads i s * (a.reads target s)∗ * a.reads target j := by
  have h := reads_of_added (a := a) (t := .epsilon target)
    (fun i u => mem_transitionsAt_passOn (i := i) (u := u) hs) i j
  rwa [Transition.label_epsilon, one_mul, one_mul] at h

end Arena

end Regexp
