/-!
# Quantifiers

`Count` says how often the quantified text may occur. In a pattern each
count may be followed by a question mark that makes it lazy: `Quantity`
is that written form. `Quantifier` is the form in a syntax tree, where an
exact count has no lazy variant, since there is nothing to be lazy about.
-/

namespace Regexp

/-- How often a quantified expression occurs. -/
inductive Count where
  /-- At most once, `?`. -/
  | zeroOrOne
  /-- At least once, `+`. -/
  | oneOrMore
  /-- Any number of times, `*`. -/
  | zeroOrMore
  /-- Exactly `n` times. -/
  | exactly (n : UInt32)
  /-- At least `lower` and at most `upper` times. -/
  | between (lower upper : UInt32)
  /-- At least `n` times. -/
  | atLeast (n : UInt32)
deriving DecidableEq, Repr

/-- How the count is written in a pattern. -/
def Count.render : Count → List Char
  | .zeroOrOne => ['?']
  | .oneOrMore => ['+']
  | .zeroOrMore => ['*']
  | .exactly n => '{' :: (decimal n ++ ['}'])
  | .between lower upper => '{' :: (decimal lower ++ ',' :: (decimal upper ++ ['}']))
  | .atLeast n => '{' :: (decimal n ++ [',', '}'])
where
  /-- The decimal digits of a bound. -/
  decimal (n : UInt32) : List Char := Nat.toDigits 10 n.toNat

/-- A quantifier as written in a pattern. -/
structure Quantity where
  /-- How often. -/
  count : Count
  /-- Whether more occurrences are tried before fewer; a question mark
  behind the count says no. -/
  greedy : Bool
deriving DecidableEq, Repr

/-- How the quantity is written in a pattern. -/
def Quantity.render (q : Quantity) : List Char :=
  q.count.render ++ if q.greedy then [] else ['?']

/-- A quantifier of a syntax tree. -/
inductive Quantifier where
  /-- At least once. -/
  | oneOrMore (greedy : Bool)
  /-- At most once. -/
  | zeroOrOne (greedy : Bool)
  /-- Any number of times. -/
  | zeroOrMore (greedy : Bool)
  /-- At least `lower` and at most `upper` times. -/
  | between (lower upper : UInt32) (greedy : Bool)
  /-- Exactly `n` times. -/
  | exactly (n : UInt32)
  /-- At least `n` times. -/
  | atLeast (n : UInt32) (greedy : Bool)
deriving DecidableEq, Repr

namespace Quantifier

/-- The written form of a quantifier. -/
def quantity : Quantifier → Quantity
  | oneOrMore greedy => ⟨.oneOrMore, greedy⟩
  | zeroOrOne greedy => ⟨.zeroOrOne, greedy⟩
  | zeroOrMore greedy => ⟨.zeroOrMore, greedy⟩
  | between lower upper greedy => ⟨.between lower upper, greedy⟩
  | exactly n => ⟨.exactly n, true⟩
  | atLeast n greedy => ⟨.atLeast n, greedy⟩

/-- The quantifier that a written quantity means. A lazy exact count
means the same as a greedy one. -/
def ofQuantity : Quantity → Quantifier
  | ⟨.zeroOrOne, greedy⟩ => zeroOrOne greedy
  | ⟨.oneOrMore, greedy⟩ => oneOrMore greedy
  | ⟨.zeroOrMore, greedy⟩ => zeroOrMore greedy
  | ⟨.exactly n, _⟩ => exactly n
  | ⟨.between lower upper, greedy⟩ => between lower upper greedy
  | ⟨.atLeast n, greedy⟩ => atLeast n greedy

/-- How the quantifier is written in a pattern. -/
def render (q : Quantifier) : List Char :=
  q.quantity.render

/-- The same quantifier with equal bounds written as an exact count. -/
def normalize : Quantifier → Quantifier
  | between lower upper greedy =>
    if lower = upper then exactly lower else between lower upper greedy
  | q => q

@[simp] theorem ofQuantity_quantity (q : Quantifier) : ofQuantity q.quantity = q := by
  cases q <;> rfl

@[simp] theorem normalize_normalize (q : Quantifier) : q.normalize.normalize = q.normalize := by
  cases q with
  | between lower upper greedy => by_cases h : lower = upper <;> simp [normalize, h]
  | _ => rfl

example : (between 2 12 false).render = "\x7b2,12\x7d?".toList := by decide

end Quantifier

end Regexp
