/-!
# Meta characters

A `MetaChar` is the dot or a letter escape with a meaning of its own:
a control escape such as `\n` stands for one code point, a class escape
such as `\w` for a set of characters, and an upper-case class escape for
the complement of one.
-/

namespace Regexp

/-- The dot, the control escapes and the class escapes. -/
inductive MetaChar where
  /-- The dot `.`: any character but a line terminator. -/
  | dot
  /-- The escape `\f`. -/
  | formFeed
  /-- The escape `\r`. -/
  | carriageReturn
  /-- The escape `\n`. -/
  | lineFeed
  /-- The escape `\t`. -/
  | tab
  /-- The escape `\v`. -/
  | verticalTab
  /-- The escape `\0`. -/
  | null
  /-- The escape `\b`. -/
  | backspace
  /-- The escape `\s`. -/
  | space
  /-- The escape `\S`. -/
  | notSpace
  /-- The escape `\w`. -/
  | word
  /-- The escape `\W`. -/
  | notWord
  /-- The escape `\d`. -/
  | digit
  /-- The escape `\D`. -/
  | notDigit
deriving DecidableEq, Repr

namespace MetaChar

/-- The meta character that a backslash and `c` make, if they make one. -/
def ofEscape? : Char → Option MetaChar
  | 'f' => some formFeed
  | 'r' => some carriageReturn
  | 'n' => some lineFeed
  | 't' => some tab
  | 'v' => some verticalTab
  | '0' => some null
  | 'b' => some backspace
  | 's' => some space
  | 'S' => some notSpace
  | 'w' => some word
  | 'W' => some notWord
  | 'd' => some digit
  | 'D' => some notDigit
  | _ => none

/-- The character after the backslash; the dot has none. -/
def escape? : MetaChar → Option Char
  | dot => none
  | formFeed => some 'f'
  | carriageReturn => some 'r'
  | lineFeed => some 'n'
  | tab => some 't'
  | verticalTab => some 'v'
  | null => some '0'
  | backspace => some 'b'
  | space => some 's'
  | notSpace => some 'S'
  | word => some 'w'
  | notWord => some 'W'
  | digit => some 'd'
  | notDigit => some 'D'

/-- The code point of a control escape. -/
def codePoint? : MetaChar → Option UInt32
  | formFeed => some 0x0c
  | carriageReturn => some 0x0d
  | lineFeed => some 0x0a
  | tab => some 0x09
  | verticalTab => some 0x0b
  | null => some 0x00
  | backspace => some 0x08
  | _ => none

/-- Whether this is a class escape that stands for a complement. -/
def isNegated : MetaChar → Bool
  | notSpace | notWord | notDigit => true
  | _ => false

/-- How the meta character is written in a pattern. -/
def render (m : MetaChar) : List Char :=
  match m.escape? with
  | some c => ['\\', c]
  | none => ['.']

/-- **Escapes read back**: the letter of a meta character names it. -/
theorem ofEscape?_eq_some_iff {c : Char} {m : MetaChar} :
    ofEscape? c = some m ↔ m.escape? = some c := by
  constructor
  · intro h
    unfold ofEscape? at h
    split at h <;> cases h <;> rfl
  · intro h
    cases m <;> cases h <;> rfl

end MetaChar

end Regexp
