import Regexp.Expr.Basic

/-!
# Numbering groups

Groups are known by numbers, `1, 2, …` in the order of their opening
parentheses, which is the order of a traversal that meets a group before
its body. `Expr.numberGroups` assigns them.
-/

namespace Regexp.Expr

mutual

/-- The tree with its groups numbered from `n + 1` on, and the last
number in use afterwards. -/
def numberFrom (n : Nat) : Expr → Expr × Nat
  | symbol s => (symbol s, n)
  | sequence es =>
    let (es, m) := numberAllFrom n es
    (sequence es, m)
  | choice es =>
    let (es, m) := numberAllFrom n es
    (choice es, m)
  | emptyGroup l => (emptyGroup { l with number := some (n + 1) }, n + 1)
  | group l e =>
    let (e, m) := numberFrom (n + 1) e
    (group { l with number := some (n + 1) } e, m)
  | repetition e q =>
    let (e, m) := numberFrom n e
    (repetition e q, m)
  | lookAround d negative e =>
    let (e, m) := numberFrom n e
    (lookAround d negative e, m)

/-- The trees with their groups numbered from `n + 1` on, from left to
right. -/
def numberAllFrom (n : Nat) : List Expr → List Expr × Nat
  | [] => ([], n)
  | e :: es =>
    let (e, m) := numberFrom n e
    let (es, m) := numberAllFrom m es
    (e :: es, m)

end

/-- The tree with its groups numbered `1, 2, …` in the order of their
opening parentheses. -/
def numberGroups (e : Expr) : Expr :=
  (numberFrom 0 e).1

end Regexp.Expr
