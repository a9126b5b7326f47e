import Regexp.Expr.Basic

/-!
# The language of a tree

`e.Denotes w` says that the text `w` as a whole is one that the tree `e`
stands for. It says so without any search: a sequence stands for the
texts that fall into one part for each item, a choice for those of any
branch, and a repetition for those that fall into as many parts as its
quantifier admits. Whether a quantifier is greedy plays no role.

A look-around is about the text outside of its own part, so it stands for
no text here.
-/

namespace Regexp

/-- Whether a quantifier admits `n` occurrences. -/
def Quantifier.Admits : Quantifier → Nat → Prop
  | oneOrMore _, n => 1 ≤ n
  | zeroOrOne _, n => n ≤ 1
  | zeroOrMore _, _ => True
  | between lower upper _, n => lower.toNat ≤ n ∧ n ≤ upper.toNat
  | exactly m, n => n = m.toNat
  | atLeast m _, n => m.toNat ≤ n

namespace Expr

/-- The tree stands for the text. -/
inductive Denotes : Expr → List Char → Prop where
  /-- A symbol stands for each character that it includes. -/
  | symbol {s : Symbol} {c : Char} (h : s.includes c = true) : Denotes (.symbol s) [c]
  /-- The sequence without items stands for the empty text. -/
  | nil : Denotes (.sequence []) []
  /-- The text of a sequence is that of its first item and that of the
  others. -/
  | cons {e : Expr} {es : List Expr} {u v : List Char} (hu : Denotes e u)
      (hv : Denotes (.sequence es) v) : Denotes (.sequence (e :: es)) (u ++ v)
  /-- A choice stands for the texts of its branches. -/
  | branch {e : Expr} {es : List Expr} {w : List Char} (he : e ∈ es) (hw : Denotes e w) :
      Denotes (.choice es) w
  /-- A group without a body stands for the empty text. -/
  | emptyGroup {l : GroupLabel} : Denotes (.emptyGroup l) []
  /-- A group stands for the texts of its body. -/
  | group {l : GroupLabel} {e : Expr} {w : List Char} (hw : Denotes e w) : Denotes (.group l e) w
  /-- The text of a repetition falls into texts of its body. -/
  | repetition {e : Expr} {q : Quantifier} {ws : List (List Char)} (hq : q.Admits ws.length)
      (hws : ∀ w ∈ ws, Denotes e w) : Denotes (.repetition e q) ws.flatten

/-! ## One rule for each kind of tree -/

variable {e : Expr} {es : List Expr} {w : List Char}

@[simp] theorem denotes_symbol {s : Symbol} :
    Denotes (.symbol s) w ↔ ∃ c, s.includes c = true ∧ w = [c] := by
  constructor
  · intro h
    cases h with
    | symbol h => exact ⟨_, h, rfl⟩
  · rintro ⟨c, h, rfl⟩
    exact .symbol h

@[simp] theorem denotes_sequence_nil : Denotes (.sequence []) w ↔ w = [] := by
  constructor
  · intro h
    cases h
    rfl
  · rintro rfl
    exact .nil

@[simp] theorem denotes_sequence_cons :
    Denotes (.sequence (e :: es)) w
      ↔ ∃ u v, Denotes e u ∧ Denotes (.sequence es) v ∧ w = u ++ v := by
  constructor
  · intro h
    cases h with
    | cons hu hv => exact ⟨_, _, hu, hv, rfl⟩
  · rintro ⟨u, v, hu, hv, rfl⟩
    exact .cons hu hv

@[simp] theorem denotes_choice : Denotes (.choice es) w ↔ ∃ e ∈ es, Denotes e w := by
  constructor
  · intro h
    cases h with
    | branch he hw => exact ⟨_, he, hw⟩
  · rintro ⟨e, he, hw⟩
    exact .branch he hw

@[simp] theorem denotes_emptyGroup {l : GroupLabel} : Denotes (.emptyGroup l) w ↔ w = [] := by
  constructor
  · intro h
    cases h
    rfl
  · rintro rfl
    exact .emptyGroup

@[simp] theorem denotes_group {l : GroupLabel} : Denotes (.group l e) w ↔ Denotes e w := by
  constructor
  · intro h
    cases h with
    | group hw => exact hw
  · exact .group

theorem denotes_repetition {q : Quantifier} :
    Denotes (.repetition e q) w
      ↔ ∃ ws : List (List Char), q.Admits ws.length ∧ (∀ v ∈ ws, Denotes e v) ∧ w = ws.flatten := by
  constructor
  · intro h
    cases h with
    | repetition hq hws => exact ⟨_, hq, hws, rfl⟩
  · rintro ⟨ws, hq, hws, rfl⟩
    exact .repetition hq hws

@[simp] theorem not_denotes_lookAround {d : Direction} {negative : Bool} :
    ¬ Denotes (.lookAround d negative e) w := by
  intro h
  cases h

end Expr

end Regexp
