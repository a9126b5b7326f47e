import Regexp.Text.Bytes
import Regexp.Text.Width

/-!
# Source lines and places in them

A report shows the lines of a pattern that an error is about. Here a
pattern is split into lines, and byte offsets are turned into places: a
line, and how far into the line in characters and in columns.

A line break is a line feed, together with a carriage return before it.
A break at the very end opens no further line, so an offset there is at
the end of the last line. A pattern without text has one line.
-/

namespace Regexp

/-- A line of a pattern. -/
structure SourceLine where
  /-- The number of the line, from one on. -/
  number : Nat
  /-- The offset of its first byte. -/
  start : Nat
  /-- What stands in it, without the line break. -/
  text : List Char
  /-- The number of bytes of the line break. -/
  breakSize : Nat
deriving DecidableEq, Repr

namespace SourceLine

/-- The offset just past the text. -/
def stop (l : SourceLine) : Nat :=
  l.start + Text.byteLength l.text

/-- The offset just past the line break. -/
def next (l : SourceLine) : Nat :=
  l.stop + l.breakSize

/-- The line with a given text in front of a line feed, the last
character first. -/
def ofReversed (number start : Nat) : List Char → SourceLine
  | '\r' :: before => ⟨number, start, before.reverse, 2⟩
  | before => ⟨number, start, before.reverse, 1⟩

/-- The lines of a text that starts at the given line, where `before` is
what stands in this line already, the last character first. -/
def splitFrom (number start : Nat) (before : List Char) : List Char → List SourceLine
  | [] => if before.isEmpty then [] else [⟨number, start, before.reverse, 0⟩]
  | c :: cs =>
    if c = '\n' then
      let line := ofReversed number start before
      line :: splitFrom (number + 1) line.next [] cs
    else splitFrom number start (c :: before) cs

/-- The first line of a pattern, and those behind it. -/
def split (source : List Char) : SourceLine × List SourceLine :=
  match splitFrom 1 0 [] source with
  | [] => (⟨1, 0, [], 0⟩, [])
  | line :: lines => (line, lines)

end SourceLine

/-- A place in a pattern. -/
structure Place where
  /-- The line. -/
  line : SourceLine
  /-- The number of characters before it in the line. -/
  char : Nat
  /-- The number of columns before it in the line. -/
  column : Nat
deriving DecidableEq, Repr

/-- The characters of a text that start before the given byte offset. -/
def Text.takeBytes : Nat → List Char → List Char
  | _, [] => []
  | 0, _ :: _ => []
  | n + 1, c :: cs => c :: takeBytes (n + 1 - c.utf8Size) cs

/-- The line of a byte offset: the one that holds it, else the last. -/
def SourceLine.holding (first : SourceLine) (lines : List SourceLine) (offset : Nat) :
    SourceLine :=
  ((first :: lines).find? fun l => l.start ≤ offset && offset < l.next).getD (lines.getLastD first)

/-- The place of a byte offset in its line. -/
def SourceLine.placeOf (l : SourceLine) (offset : Nat) : Place :=
  let before := Text.takeBytes (offset - l.start) l.text
  ⟨l, before.length, Text.width before⟩

end Regexp
