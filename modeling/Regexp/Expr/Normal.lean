import Regexp.Expr.Normalize

/-!
# Normal trees

A tree is normal if nothing in it would change by normalizing: it holds
no meta character, neither as a symbol nor in a set, and no pair of equal
bounds. The predicate looks at the tree alone and does not normalize it.
-/

namespace Regexp

/-- The item is no meta character. -/
def SetItem.IsNormal : SetItem → Prop
  | .member _ => True
  | .metaChar _ => False

/-- The symbol is no meta character and no set that holds one. -/
def Symbol.IsNormal : Symbol → Prop
  | .letter _ => True
  | .metaChar _ => False
  | .set s => ∀ i ∈ s.items, i.IsNormal

/-- The quantifier has no equal bounds. -/
def Quantifier.IsNormal : Quantifier → Prop
  | between lower upper _ => lower ≠ upper
  | _ => True

namespace Expr

mutual

/-- The tree holds no meta character and no equal bounds. -/
def IsNormal : Expr → Prop
  | symbol s => s.IsNormal
  | sequence es => AllNormal es
  | choice es => AllNormal es
  | emptyGroup _ => True
  | group _ e => e.IsNormal
  | repetition e q => e.IsNormal ∧ q.IsNormal
  | lookAround _ _ e => e.IsNormal

/-- None of the trees holds a meta character or equal bounds. -/
def AllNormal : List Expr → Prop
  | [] => True
  | e :: es => e.IsNormal ∧ AllNormal es

end

theorem allNormal_iff {es : List Expr} : AllNormal es ↔ ∀ e ∈ es, e.IsNormal := by
  induction es with
  | nil => simp [AllNormal]
  | cons e es ih => simp [AllNormal, ih]

end Expr

/-- **A normalized quantifier is normal**. -/
theorem Quantifier.isNormal_normalize (q : Quantifier) : q.normalize.IsNormal := by
  cases q with
  | between lower upper greedy =>
    by_cases h : lower = upper <;> simp [normalize, h, IsNormal]
  | _ => trivial

/-- **A quantifier is normal if normalizing leaves it alone**, and only
then. -/
theorem Quantifier.normalize_eq_self_iff {q : Quantifier} : q.normalize = q ↔ q.IsNormal := by
  cases q with
  | between lower upper greedy =>
    by_cases h : lower = upper <;> simp [normalize, h, IsNormal]
  | _ => simp [normalize, IsNormal]

end Regexp
