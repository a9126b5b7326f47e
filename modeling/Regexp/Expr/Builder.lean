import Regexp.Expr.Basic

/-!
# Making trees by hand

Trees can be put together without a pattern. The constructors of `Expr`
do most of the work; here stand the shorthands for literal text, for code
points and for sets that grow item by item.
-/

namespace Regexp

namespace Expr

/-- The character with the given code point, written with as few digits
as possible. -/
def ofCodePoint (codePoint : UInt32) : Expr :=
  .symbol (.letter (.ofCodePoint codePoint))

/-- A meta character. -/
def ofMetaChar (m : MetaChar) : Expr :=
  .symbol (.metaChar m)

/-- A set. -/
def ofSet (s : CharSet) : Expr :=
  .symbol (.set s)

/-- Literal text: one character after the other, and the character itself
if there is only one. -/
def ofString (s : String) : Expr :=
  match s.toList with
  | [c] => char c
  | cs => .sequence (cs.map char)

end Expr

namespace CharSet

/-- The set without items. -/
def empty : CharSet :=
  ⟨[], false⟩

/-- The set as a negative one. -/
def negated (s : CharSet) : CharSet :=
  { s with negative := true }

/-- The set with further items at its end. -/
def append (s : CharSet) (items : List SetItem) : CharSet :=
  { s with items := s.items ++ items }

/-- The set with each character of a text as a further item. -/
def addString (s : CharSet) (text : String) : CharSet :=
  s.append (text.toList.map fun c => .member (.letter (.literal c)))

/-- The set with a further letter. -/
def addLetter (s : CharSet) (a : Letter) : CharSet :=
  s.append [.member (.letter a)]

/-- The set with a further range. -/
def addRange (s : CharSet) (first last : Letter) : CharSet :=
  s.append [.member (.range first last)]

/-- The set with a further meta character. -/
def addMetaChar (s : CharSet) (m : MetaChar) : CharSet :=
  s.append [.metaChar m]

end CharSet

end Regexp
