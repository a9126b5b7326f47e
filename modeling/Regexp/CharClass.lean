import Regexp.Letter
import Regexp.MetaChar

/-!
# Character classes

The members of a set of characters are letters and ranges of letters.
The class escapes `\s`, `\w` and `\d` are defined by such members
(`MetaChar.classMembers?`), and every meta character includes the
characters that its code point, its class or the rule for the dot says
(`MetaChar.includes`).
-/

namespace Regexp

/-- A member of a set of characters. -/
inductive SetMember where
  /-- A single letter. -/
  | letter (a : Letter)
  /-- All characters between two letters, both included. A range whose
  first letter comes after its last holds nothing. -/
  | range (first last : Letter)
deriving DecidableEq, Repr

/-- Whether `c` is among the characters of the member. -/
def SetMember.includes : SetMember → Char → Bool
  | .letter a, c => a.includes c
  | .range first last, c => first.codePoint ≤ c.val && c.val ≤ last.codePoint

namespace CharClass

/-- The single character with a given code point. -/
private def point (codePoint : UInt32) : SetMember :=
  .letter (.ofCodePoint codePoint)

/-- The range between two literal characters. -/
private def between (first last : Char) : SetMember :=
  .range (.literal first) (.literal last)

/-- White space and line terminators, the class of `\s`. -/
def space : List SetMember :=
  [.letter (.literal ' '), point 0x0c, point 0x0a, point 0x0d, point 0x09, point 0x0b,
    point 0xa0, point 0x1680, .range (.ofCodePoint 0x2000) (.ofCodePoint 0x200a),
    point 0x2028, point 0x2029, point 0x202f, point 0x205f, point 0x3000, point 0xfeff]

/-- Letters, digits and the underscore of ASCII, the class of `\w`. -/
def word : List SetMember :=
  [between 'A' 'Z', between 'a' 'z', between '0' '9', .letter (.literal '_')]

/-- The ASCII digits, the class of `\d`. -/
def digit : List SetMember :=
  [between '0' '9']

end CharClass

namespace MetaChar

/-- The members of the class that a class escape stands for or is the
complement of. -/
def classMembers? : MetaChar → Option (List SetMember)
  | space | notSpace => some CharClass.space
  | word | notWord => some CharClass.word
  | digit | notDigit => some CharClass.digit
  | _ => none

/-- Whether `c` ends a line, which the dot does not include. -/
def isLineTerminator (c : Char) : Bool :=
  c == '\n' || c == '\r' || c == '\u2028' || c == '\u2029'

/-- Whether the meta character includes `c`. -/
def includes (m : MetaChar) (c : Char) : Bool :=
  match m.codePoint? with
  | some p => c.val == p
  | none =>
    match m.classMembers? with
    | some members => members.any (·.includes c) != m.isNegated
    | none => !isLineTerminator c

example : includes word '_' = true ∧ includes notWord '_' = false := by decide

example : includes dot '\n' = false ∧ includes lineFeed '\n' = true := by decide

end MetaChar

end Regexp
