import Regexp.Automaton.Basic
import Regexp.Error
import Regexp.Expr.Render

/-!
# From trees to automata

Each node of a tree becomes a `Fragment`: some states with one entry and
one exit, where the exit is the only accepting state among them. The
states of all fragments stand in one growing table, and a node only ever
adds states at its end, so positions once given stay valid. Operators
connect the fragments of their operands by epsilon transitions; an exit
through which the search goes on stops accepting.

Quantifiers are the only place where the order of transitions matters. A
greedy one adds transitions to the fragment of its body and nothing else.
A lazy one adds a new entry or exit, so that the transition that leaves
the repetition comes before the one that enters the body.
-/

namespace Regexp

/-- The entry and the exit of a part of an automaton. -/
structure Fragment where
  /-- The position of the state through which the part is entered. -/
  entry : Nat
  /-- The position of the state through which it is left. -/
  exit : Nat
deriving DecidableEq, Repr

/-- The states made so far. -/
abbrev Arena := Array State

/-- The outcome of constructing a part of an automaton: the part, and the
states made so far and for it. -/
abbrev ConstructResult := Except CompileFault (Fragment × Arena)

namespace Arena

/-- A further state with the given transitions, whose number is its
position. A number of 32 bits would be the position only of the first
`2 ^ 32` states. -/
def addState (a : Arena) (accept : Bool) (ts : List Transition) : Arena :=
  a.push ⟨a.size, accept, ts⟩

/-- A further epsilon transition. -/
def addEpsilon (a : Arena) (source target : Nat) : Arena :=
  a.modify source (·.add (.epsilon target))

/-- A further epsilon transition from an exit, which stops accepting. -/
def passOn (a : Arena) (exit target : Nat) : Arena :=
  a.modify exit fun s => (s.setAccept false).add (.epsilon target)

/-- The part that consumes nothing. -/
def emptyPart (a : Arena) : Fragment × Arena :=
  let entry := a.size
  let exit := a.size + 1
  (⟨entry, exit⟩, (a.addState false [.epsilon exit]).addState true [])

/-- The part that consumes one character that `s` includes. -/
def symbolPart (a : Arena) (s : Symbol) : Fragment × Arena :=
  let entry := a.size
  let exit := a.size + 1
  (⟨entry, exit⟩, (a.addState false [.symbol s exit]).addState true [])

/-- The part that goes through any one of the branches. -/
def choicePart (a : Arena) (branches : List Fragment) : Fragment × Arena :=
  let entry := a.size
  let exit := a.size + 1
  let a := (a.addState false (branches.map (.epsilon ·.entry))).addState true []
  (⟨entry, exit⟩, branches.foldl (fun a b => a.passOn b.exit exit) a)

/-- The part that goes through `f` between an entry and an exit of its
own. -/
def groupPart (a : Arena) (f : Fragment) : Fragment × Arena :=
  a.choicePart [f]

/-- The part that repeats `f`. Bounded repetitions have none. -/
def repetitionPart (a : Arena) (f : Fragment) (q : Quantifier) : ConstructResult :=
  match q with
  | .oneOrMore true => .ok (f, a.addEpsilon f.exit f.entry)
  | .oneOrMore false =>
    let exit := a.size
    let a := a.addState true []
    .ok (⟨f.entry, exit⟩, (a.passOn f.exit exit).addEpsilon f.exit f.entry)
  | .zeroOrOne true => .ok (f, a.addEpsilon f.entry f.exit)
  | .zeroOrOne false =>
    let entry := a.size
    .ok (⟨entry, f.exit⟩, a.addState false [.epsilon f.exit, .epsilon f.entry])
  | .zeroOrMore true => .ok (f, (a.addEpsilon f.entry f.exit).addEpsilon f.exit f.entry)
  | .zeroOrMore false =>
    let entry := a.size
    let exit := a.size + 1
    let a := (a.addState false [.epsilon exit, .epsilon f.entry]).addState true []
    .ok (⟨entry, exit⟩, (a.passOn f.exit exit).addEpsilon f.exit f.entry)
  | q => .error (.unsupportedQuantifier q)

end Arena

namespace Expr

mutual

/-- The part of an automaton for a tree, added to the states made so
far. -/
def construct (a : Arena) : Expr → ConstructResult
  | symbol s => .ok (a.symbolPart s)
  | sequence [] => .ok a.emptyPart
  | sequence (e :: es) =>
    match e.construct a with
    | .error fault => .error fault
    | .ok (f, a) => constructAfter f a es
  | choice es =>
    match constructAll a es with
    | .error fault => .error fault
    | .ok (branches, a) => .ok (a.choicePart branches)
  | emptyGroup _ =>
    let (f, a) := a.emptyPart
    .ok (a.groupPart f)
  | group _ e =>
    match e.construct a with
    | .error fault => .error fault
    | .ok (f, a) => .ok (a.groupPart f)
  | repetition e q =>
    match e.construct a with
    | .error fault => .error fault
    | .ok (f, a) => a.repetitionPart f q
  | lookAround d negative e =>
    .error (.unsupportedNode
      ("look-around assertion " ++ quoted (lookAround d negative e).render))

/-- The part for one tree after the other behind the part `f`. -/
def constructAfter (f : Fragment) (a : Arena) : List Expr → ConstructResult
  | [] => .ok (f, a)
  | e :: es =>
    match e.construct a with
    | .error fault => .error fault
    | .ok (g, a) => constructAfter ⟨f.entry, g.exit⟩ (a.passOn f.exit g.entry) es

/-- The parts for the trees, made one after the other and not
connected. -/
def constructAll (a : Arena) : List Expr → Except CompileFault (List Fragment × Arena)
  | [] => .ok ([], a)
  | e :: es =>
    match e.construct a with
    | .error fault => .error fault
    | .ok (f, a) =>
      match constructAll a es with
      | .error fault => .error fault
      | .ok (fs, a) => .ok (f :: fs, a)

end

/-! ## Induction on a construction -/

variable {e : Expr} {es : List Expr} {a b c : Arena} {f g : Fragment}

/-- Trees behind a part can be added in two steps. -/
theorem constructAfter_append (f : Fragment) (a : Arena) (es fs : List Expr) :
    constructAfter f a (es ++ fs) =
      match constructAfter f a es with
      | .error fault => .error fault
      | .ok (g, b) => constructAfter g b fs := by
  induction es generalizing f a with
  | nil => rfl
  | cons e es ih =>
    rw [List.cons_append, constructAfter, constructAfter]
    cases e.construct a with
    | error fault => rfl
    | ok r => exact ih _ _

/-- A further item of a sequence goes behind the part that there is. -/
theorem construct_sequence_concat (hne : es ≠ []) (hes : (sequence es).construct a = .ok (f, b))
    (he : e.construct b = .ok (g, c)) : (sequence (es ++ [e])).construct a
      = .ok (⟨f.entry, g.exit⟩, c.passOn f.exit g.entry) := by
  cases es with
  | nil => exact absurd rfl hne
  | cons d ds =>
    rw [construct] at hes
    rw [List.cons_append, construct]
    cases hd : d.construct a with
    | error fault =>
      rw [hd] at hes
      cases hes
    | ok r =>
      rw [hd] at hes
      dsimp only at hes ⊢
      rw [constructAfter_append, hes]
      dsimp only
      rw [constructAfter, he]
      rfl

section Motives

variable {P : Expr → Arena → Fragment → Arena → Prop}
variable {Q : List Expr → Arena → List Fragment → Arena → Prop}

/-- Induction on the trees that are added behind a sequence. -/
theorem constructAfter_induction
    (concat : ∀ {es e a f b g c}, es ≠ [] → (sequence es).construct a = .ok (f, b) →
      e.construct b = .ok (g, c) → P (sequence es) a f b → P e b g c →
      P (sequence (es ++ [e])) a ⟨f.entry, g.exit⟩ (c.passOn f.exit g.entry))
    {ds : List Expr} (hes : ∀ e ∈ es, ∀ {a b f}, e.construct a = .ok (f, b) → P e a f b)
    (hne : ds ≠ []) (hds : (sequence ds).construct a = .ok (f, b)) (hP : P (sequence ds) a f b)
    (h : constructAfter f b es = .ok (g, c)) : P (sequence (ds ++ es)) a g c := by
  induction es generalizing ds f b with
  | nil =>
    obtain ⟨rfl, rfl⟩ := Prod.mk.inj (Except.ok.inj h)
    rwa [List.append_nil]
  | cons e es ih =>
    obtain ⟨he, hes⟩ := List.forall_mem_cons.1 hes
    rw [constructAfter] at h
    split at h
    next => cases h
    next k d hk =>
      rw [← List.singleton_append, ← List.append_assoc]
      exact ih hes (by simp) (construct_sequence_concat hne hds hk) (concat hne hds hk hP (he hk)) h

/-- Induction on the trees that are made one after the other. -/
theorem constructAll_induction (nil : ∀ a, Q [] a [] a)
    (cons : ∀ {e es a f b fs c}, e.construct a = .ok (f, b) → constructAll b es = .ok (fs, c) →
      P e a f b → Q es b fs c → Q (e :: es) a (f :: fs) c)
    (hes : ∀ e ∈ es, ∀ {a b f}, e.construct a = .ok (f, b) → P e a f b) {fs : List Fragment}
    (h : constructAll a es = .ok (fs, b)) : Q es a fs b := by
  induction es generalizing a fs with
  | nil =>
    obtain ⟨rfl, rfl⟩ := Prod.mk.inj (Except.ok.inj h)
    exact nil a
  | cons e es ih =>
    obtain ⟨he, hes⟩ := List.forall_mem_cons.1 hes
    rw [constructAll] at h
    split at h
    next => cases h
    next f c hf =>
      split at h
      next => cases h
      next fs d hfs =>
        obtain ⟨rfl, rfl⟩ := Prod.mk.inj (Except.ok.inj h)
        exact cons hf hfs (he hf) (ih hes hfs)

/-- **Induction on a construction that succeeds.** A sequence grows by one
item at a time; the branches of a choice are parts one after the other,
of which `Q` speaks, before they are connected. -/
theorem construct_induction
    (symbol : ∀ s a, P (symbol s) a (a.symbolPart s).1 (a.symbolPart s).2)
    (empty : ∀ a, P (sequence []) a a.emptyPart.1 a.emptyPart.2)
    (single : ∀ {e a f b}, P e a f b → P (sequence [e]) a f b)
    (concat : ∀ {es e a f b g c}, es ≠ [] → (sequence es).construct a = .ok (f, b) →
      e.construct b = .ok (g, c) → P (sequence es) a f b → P e b g c →
      P (sequence (es ++ [e])) a ⟨f.entry, g.exit⟩ (c.passOn f.exit g.entry))
    (nil : ∀ a, Q [] a [] a)
    (cons : ∀ {e es a f b fs c}, e.construct a = .ok (f, b) → constructAll b es = .ok (fs, c) →
      P e a f b → Q es b fs c → Q (e :: es) a (f :: fs) c)
    (choice : ∀ {es a fs b}, constructAll a es = .ok (fs, b) → Q es a fs b →
      P (choice es) a (b.choicePart fs).1 (b.choicePart fs).2)
    (emptyGroup : ∀ l a, P (emptyGroup l) a (a.emptyPart.2.groupPart a.emptyPart.1).1
      (a.emptyPart.2.groupPart a.emptyPart.1).2)
    (group : ∀ {l e a f b}, e.construct a = .ok (f, b) → P e a f b →
      P (group l e) a (b.groupPart f).1 (b.groupPart f).2)
    (repetition : ∀ {e q a f b g c}, e.construct a = .ok (f, b) → P e a f b →
      b.repetitionPart f q = .ok (g, c) → P (repetition e q) a g c)
    (h : e.construct a = .ok (f, b)) : P e a f b := by
  induction e generalizing a f b with
  | symbol s =>
    obtain ⟨rfl, rfl⟩ := Prod.mk.inj (Except.ok.inj h)
    exact symbol s a
  | sequence es ih =>
    cases es with
    | nil =>
      obtain ⟨rfl, rfl⟩ := Prod.mk.inj (Except.ok.inj h)
      exact empty a
    | cons e es =>
      obtain ⟨he, hes⟩ := List.forall_mem_cons.1 ih
      rw [construct] at h
      split at h
      next => cases h
      next g c hg =>
        have hsingle : (Expr.sequence [e]).construct a = .ok (g, c) := by
          rw [construct, hg]
          rfl
        exact constructAfter_induction concat hes (by simp) hsingle (single (he hg)) h
  | choice es ih =>
    rw [construct] at h
    split at h
    next => cases h
    next fs c hfs =>
      obtain ⟨rfl, rfl⟩ := Prod.mk.inj (Except.ok.inj h)
      exact choice hfs (constructAll_induction nil cons ih hfs)
  | emptyGroup l =>
    obtain ⟨rfl, rfl⟩ := Prod.mk.inj (Except.ok.inj h)
    exact emptyGroup l a
  | group l e ih =>
    rw [construct] at h
    split at h
    next => cases h
    next g c hg =>
      obtain ⟨rfl, rfl⟩ := Prod.mk.inj (Except.ok.inj h)
      exact group hg (ih hg)
  | repetition e q ih =>
    rw [construct] at h
    split at h
    next => cases h
    next g c hg => exact repetition hg (ih hg) h
  | lookAround d n e _ => cases h

end Motives

end Expr

/-- The automaton of a tree. Without a tree it accepts the empty text
only. -/
def Automaton.ofExpr? : Option Expr → Except CompileFault Automaton
  | none =>
    let (f, a) := Arena.emptyPart #[]
    .ok ⟨a, f.entry, f.exit⟩
  | some e => (e.construct #[]).map fun (f, a) => ⟨a, f.entry, f.exit⟩

end Regexp
