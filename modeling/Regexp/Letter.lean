/-!
# Letters

A `Letter` is one character as a pattern writes it: literally, or as a
unicode escape with its hexadecimal digits. The escape keeps the number
of digits, so that rendering a letter gives back the text it was read
from; an escape of width zero is rendered with as few digits as possible
and is only made by the library itself.

The code point of an escape is any 32-bit word. One that is no scalar
value denotes no character.
-/

namespace Regexp

/-- One character of a pattern, as it is written. -/
inductive Letter where
  /-- The character itself. -/
  | literal (c : Char)
  /-- A unicode escape of the given number of digits. -/
  | unicode (codePoint : UInt32) (width : Nat)
deriving DecidableEq, Repr

namespace Letter

/-- The escape of a code point with as few digits as possible. -/
def ofCodePoint (codePoint : UInt32) : Letter :=
  .unicode codePoint 0

/-- The code point that the letter denotes. -/
def codePoint : Letter → UInt32
  | .literal c => c.val
  | .unicode p _ => p

/-- Whether the letter denotes `c`. -/
def includes (a : Letter) (c : Char) : Bool :=
  a.codePoint == c.val

@[simp] theorem codePoint_literal (c : Char) : (literal c).codePoint = c.val := rfl

@[simp] theorem codePoint_unicode (p : UInt32) (w : Nat) : (unicode p w).codePoint = p := rfl

@[simp] theorem includes_iff {a : Letter} {c : Char} :
    a.includes c = true ↔ a.codePoint = c.val := by
  simp [includes]

end Letter

end Regexp
