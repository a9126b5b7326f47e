import Regexp.Symbol
import Regexp.Quantifier

/-!
# Syntax trees of patterns

An `Expr` is the tree of a pattern. The empty pattern has no tree; where
it may occur, an `Option Expr` stands for it, and inside a tree the group
without a body is a case of its own, `Expr.emptyGroup`.

Some trees are reached by no pattern and are only made by hand: groups
that are named or do not capture, look-arounds, and sequences or choices
of fewer than two parts.

The tree holds lists of itself, so its equality test is written by hand
(`Expr.same`) and proved to decide equality.
-/

namespace Regexp

/-- What a group says about itself, apart from its body. -/
structure GroupLabel where
  /-- The number by which its match is known: `1, 2, …` in the order of
  the opening parentheses. It has any size, where a word of 32 bits would
  only count fewer than `2 ^ 32` groups. -/
  number : Option Nat
  /-- The name by which its match is known. -/
  name : Option String
  /-- Whether its match is kept. -/
  capturing : Bool
deriving DecidableEq, Repr

/-- The label of a group that is made by hand and has neither number nor
name. -/
def GroupLabel.plain : GroupLabel :=
  ⟨none, none, true⟩

/-- On which side of the current position a look-around looks. -/
inductive Direction where
  /-- At the text that follows. -/
  | ahead
  /-- At the text before. -/
  | behind
deriving DecidableEq, Repr

/-- The syntax tree of a pattern. -/
inductive Expr where
  /-- One symbol. -/
  | symbol (s : Symbol)
  /-- One part after the other. -/
  | sequence (items : List Expr)
  /-- Any one of the branches, the first ones preferred. -/
  | choice (branches : List Expr)
  /-- A pair of parentheses with nothing between. -/
  | emptyGroup (label : GroupLabel)
  /-- A pair of parentheses around a body. -/
  | group (label : GroupLabel) (body : Expr)
  /-- A quantified body. -/
  | repetition (body : Expr) (quantifier : Quantifier)
  /-- An assertion about the text around the current position. -/
  | lookAround (direction : Direction) (negative : Bool) (body : Expr)

namespace Expr

/-- The literal character `c`. -/
def char (c : Char) : Expr :=
  .symbol (.letter (.literal c))

/-- **Induction on trees**: the parts of a sequence or of a choice are
reached through membership. -/
@[elab_as_elim, induction_eliminator]
theorem treeInduction {motive : Expr → Prop} (symbol : ∀ s, motive (symbol s))
    (sequence : ∀ es, (∀ e ∈ es, motive e) → motive (sequence es))
    (choice : ∀ es, (∀ e ∈ es, motive e) → motive (choice es))
    (emptyGroup : ∀ l, motive (emptyGroup l)) (group : ∀ l e, motive e → motive (group l e))
    (repetition : ∀ e q, motive e → motive (repetition e q))
    (lookAround : ∀ d n e, motive e → motive (lookAround d n e)) : ∀ e, motive e
  | .symbol s => symbol s
  | .sequence es => sequence es fun e _ =>
    treeInduction symbol sequence choice emptyGroup group repetition lookAround e
  | .choice es => choice es fun e _ =>
    treeInduction symbol sequence choice emptyGroup group repetition lookAround e
  | .emptyGroup l => emptyGroup l
  | .group l e =>
    group l e (treeInduction symbol sequence choice emptyGroup group repetition lookAround e)
  | .repetition e q =>
    repetition e q (treeInduction symbol sequence choice emptyGroup group repetition lookAround e)
  | .lookAround d n e =>
    lookAround d n e (treeInduction symbol sequence choice emptyGroup group repetition lookAround e)

/-! ## Equality -/

mutual

/-- Whether two trees are equal. -/
def same : Expr → Expr → Bool
  | symbol s, symbol t => s == t
  | sequence es, sequence fs => sameAll es fs
  | choice es, choice fs => sameAll es fs
  | emptyGroup l, emptyGroup m => l == m
  | group l e, group m f => l == m && same e f
  | repetition e q, repetition f r => same e f && q == r
  | lookAround d n e, lookAround d' n' f => d == d' && n == n' && same e f
  | _, _ => false

/-- Whether two lists of trees are equal. -/
def sameAll : List Expr → List Expr → Bool
  | [], [] => true
  | e :: es, f :: fs => same e f && sameAll es fs
  | _, _ => false

end

mutual

theorem same_self : ∀ e : Expr, same e e = true
  | symbol _ => by simp [same]
  | sequence es => by simp [same, sameAll_self es]
  | choice es => by simp [same, sameAll_self es]
  | emptyGroup _ => by simp [same]
  | group _ e => by simp [same, same_self e]
  | repetition e _ => by simp [same, same_self e]
  | lookAround _ _ e => by simp [same, same_self e]

theorem sameAll_self : ∀ es : List Expr, sameAll es es = true
  | [] => rfl
  | e :: es => by simp [sameAll, same_self e, sameAll_self es]

end

mutual

theorem eq_of_same : ∀ {e f : Expr}, same e f = true → e = f
  | symbol s, f, h => by
    cases f <;> simp [same] at h
    rw [h]
  | sequence es, f, h => by
    cases f <;> simp [same] at h
    rw [eq_of_sameAll h]
  | choice es, f, h => by
    cases f <;> simp [same] at h
    rw [eq_of_sameAll h]
  | emptyGroup l, f, h => by
    cases f <;> simp [same] at h
    rw [h]
  | group l e, f, h => by
    cases f <;> simp [same] at h
    rw [h.1, eq_of_same h.2]
  | repetition e q, f, h => by
    cases f <;> simp [same] at h
    rw [eq_of_same h.1, h.2]
  | lookAround d n e, f, h => by
    cases f <;> simp [same] at h
    rw [h.1.1, h.1.2, eq_of_same h.2]

theorem eq_of_sameAll : ∀ {es fs : List Expr}, sameAll es fs = true → es = fs
  | [], [], _ => rfl
  | [], _ :: _, h => by simp [sameAll] at h
  | _ :: _, [], h => by simp [sameAll] at h
  | e :: es, f :: fs, h => by
    simp [sameAll] at h
    rw [eq_of_same h.1, eq_of_sameAll h.2]

end

theorem same_iff {e f : Expr} : same e f = true ↔ e = f :=
  ⟨eq_of_same, fun h => h ▸ same_self e⟩

instance : DecidableEq Expr := fun _ _ => decidable_of_iff _ same_iff

instance : Inhabited Expr := ⟨.sequence []⟩

end Expr

end Regexp
