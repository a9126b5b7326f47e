import Regexp.Diagnostic.Source
import Regexp.Diagnostic.Paint

/-!
# Marked source lines

A snippet shows the lines that a range of bytes is about, each behind its
number, and marks the range. A range within one line is underlined with
carets. A range over several lines is marked by a bar that runs down the
margin from the first line to the last, with a corner to the caret under
its first and under its last character; if nothing but white space stands
before the range, the corner is a slash in the margin instead.

Of a long range only some lines are shown. Those in the middle that are
left out are replaced by three dots, unless it is a single one.

Lines that all start with much white space are shown without most of it;
the mark and the columns shortly before it are never left out.
-/

namespace Regexp

/-- What a snippet marks: two places, the second just past the marked
text. -/
structure Marked where
  /-- Where the marked text starts. -/
  first : Place
  /-- Where it stops. -/
  stop : Place
deriving DecidableEq, Repr

namespace Marked

/-- The places of the bytes from `start` up to `stop` in the lines of a
pattern. A range within one line is marked one column wide at least; one
that ends behind a line break reaches one column past the text of the
line. -/
def ofRange (line : SourceLine) (lines : List SourceLine) (start stop : Nat) : Marked :=
  let first := (SourceLine.holding line lines start).placeOf start
  let lastLine := SourceLine.holding line lines stop
  let last := lastLine.placeOf stop
  if first.line.number = last.line.number then
    ⟨first, if first.column = last.column then { last with column := last.column + 1 } else last⟩
  else
    ⟨first, if stop > lastLine.stop then { last with column := last.column + 1 } else last⟩

/-- The leftmost column that is marked: that of the first character or
that of the last one. -/
def leftmost (m : Marked) : Nat :=
  min m.first.column (m.stop.column - 1)

/-- Whether a line holds nothing to speak of: white space, a comment or a
single bracket. -/
def isTrivial (text : List Char) : Bool :=
  match Text.trim text with
  | [] => true
  | [c] => c == '\x7b' || c == '\x7d' || c == '(' || c == ')' || c == '[' || c == ']'
  | '/' :: '/' :: '/' :: _ => false
  | '/' :: '/' :: '!' :: _ => false
  | '/' :: '/' :: _ => true
  | _ => false

/-- The lines that are shown because of the range: its first and last
one, up to three behind the first one without a trivial tail, and the
last but one unless it is trivial. -/
def shownLines (m : Marked) (lines : List SourceLine) : List SourceLine :=
  let first := m.first.line.number
  let last := m.stop.line.number
  let middle := min (first + 4) last
  let head := lines.filter fun l => first ≤ l.number && l.number < middle
  let kept := (head.reverse.dropWhile (isTrivial ·.text)).reverse
  let tail := lines.filter fun l =>
    l.number == last || (middle + 1 < last && l.number + 1 == last && !isTrivial l.text)
  (if kept.isEmpty then [m.first.line] else kept) ++ tail

end Marked

namespace Snippet

/-- The first part of a row: the bar next to the line numbers, with a
number if there is one. A number that is one digit too long takes the
place of the blank between it and the bar. -/
def gutter (width : Nat) (number? : Option Nat) : Row :=
  match number? with
  | none => [Row.blanks (width + 1), (.gutter, ['|'])]
  | some n =>
    let digits := Nat.toDigits 10 n
    [(.gutter, List.replicate (width - digits.length) ' ' ++ digits),
      Row.blanks (1 - (digits.length - width)), (.gutter, ['|'])]

/-- The number of columns of white space at the start of a line. -/
def indentation (text : List Char) : Nat :=
  (text.takeWhile Text.isBlank).foldl (fun n c => n + if c = '\t' then 4 else 1) 0

/-- How many columns are left out at the start of all lines: none, unless
much white space stands both before the text of the lines that hold
anything and before the mark. -/
def hiddenColumns (m : Marked) (lines : List SourceLine) : Nat :=
  let indentations := (lines.filter fun l => !l.text.all Text.isBlank).map (indentation ·.text)
  match indentations.min? with
  | some n =>
    let n := min n m.leftmost
    if n > 26 then n - 22 else 0
  | none => 0

/-- The text without its first columns, and the number of columns that
this takes away: the given one, or more if the last of the characters is
a wide one, or less if the text is shorter. -/
def dropColumns : Nat → List Char → Nat × List Char
  | 0, s => (0, s)
  | _ + 1, [] => (0, [])
  | n + 1, c :: s =>
    let (dropped, rest) := dropColumns (n + 1 - Text.columns c) s
    (Text.columns c + dropped, rest)

/-- A text behind blanks, or nothing if there is no text. -/
def behind (blanks : Nat) (text : List Char) : Row :=
  if text.isEmpty then [] else [Row.blanks blanks, (.plain, text)]

/-- The text of a line behind a blank. If columns are left out, three dots
take the place of the first three that remain, or of four if a wide
character stands there. -/
def code (hidden : Nat) (l : SourceLine) : Row :=
  let text := Text.expandTabs l.text
  if hidden = 0 then behind 1 text
  else
    let (covered, text) := dropColumns 3 (dropColumns hidden text).2
    [Row.blanks 1, (.gutter, ['.', '.', '.'])] ++ behind (covered - 3) text

/-- How many columns are left out at the start of a line. -/
def hiddenIn (hidden : Nat) (l : SourceLine) : Nat :=
  (dropColumns hidden (Text.expandTabs l.text)).1

/-- The rows of a range within one line. -/
def singleLine (width hidden : Nat) (m : Marked) : List Row :=
  let l := m.first.line
  let blanks := m.first.column - hiddenIn hidden l
  [gutter width l.number ++ code hidden l,
    gutter width none
      ++ [Row.blanks (1 + blanks), (.mark, List.replicate (m.stop.column - m.first.column) '^')]]

/-- The bar in the margin. -/
def bar : Row :=
  [Row.blanks 1, (.mark, ['|'])]

/-- A corner from the margin to a caret under a column. -/
def corner (margin : Char) (column : Nat) : Row :=
  [Row.blanks 1, (.mark, margin :: List.replicate (column + 1) '_' ++ ['^'])]

/-- The rows of the first line of a range over several lines. -/
def firstLine (width hidden : Nat) (m : Marked) : List Row :=
  let l := m.first.line
  if ((Text.expandTabs l.text).take m.first.column).all Text.isBlank then
    [gutter width l.number ++ [Row.blanks 1, (.mark, ['/'])] ++ code hidden l]
  else
    [gutter width l.number ++ [Row.blanks 2] ++ code hidden l,
      gutter width none ++ corner ' ' (m.first.column - hiddenIn hidden l)]

/-- The row of a line in the middle. -/
def middleLine (width hidden : Nat) (l : SourceLine) : Row :=
  gutter width l.number ++ bar ++ code hidden l

/-- The row that stands for lines left out. -/
def dots (width : Nat) : Row :=
  [(.gutter, ['.', '.', '.']), Row.blanks width, (.mark, ['|'])]

/-- The rows of the last line of a range over several lines. -/
def lastLine (width hidden : Nat) (m : Marked) : List Row :=
  let l := m.stop.line
  [middleLine width hidden l,
    gutter width none ++ corner '|' (m.stop.column - 1 - hiddenIn hidden l)]

/-- The rows between two shown lines. -/
def between (width hidden : Nat) (lines : List SourceLine) (a b : SourceLine) : List Row :=
  match lines.filter fun l => a.number < l.number && l.number < b.number with
  | [] => []
  | [l] => [middleLine width hidden l]
  | _ => [dots width]

/-- The rows behind the shown line `a`, where `shown` are the shown lines
that follow it. -/
def following (width hidden : Nat) (m : Marked) (lines : List SourceLine) (a : SourceLine) :
    List SourceLine → List Row
  | [] => []
  | b :: shown =>
    between width hidden lines a b
      ++ (if b.number = m.stop.line.number then lastLine width hidden m
        else [middleLine width hidden b])
      ++ following width hidden m lines b shown

/-- The rows that show and mark a range, where `lines` are all lines of
the pattern. -/
def rows (width : Nat) (m : Marked) (lines : List SourceLine) : List Row :=
  if m.first.line.number = m.stop.line.number then
    singleLine width (hiddenColumns m [m.first.line]) m
  else
    let kept := m.shownLines lines
    let hidden := hiddenColumns m kept
    firstLine width hidden m ++ following width hidden m lines m.first.line (kept.drop 1)

end Snippet

end Regexp
