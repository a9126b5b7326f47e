import Regexp.Error
import Regexp.Diagnostic.Snippet

/-!
# Error reports

A `Report` shows an error to people. If the error has a place and the
pattern is at hand, the report draws the place under the pattern;
otherwise it is the message alone, on one line and without colors.
-/

namespace Regexp

/-- How an error is shown. -/
structure Report where
  /-- The error. -/
  error : PatternError
  /-- The pattern, if it is at hand. -/
  source : Option String
  /-- The name under which the pattern is known. -/
  path : Option String
  /-- Whether the report is colored. -/
  colored : Bool

namespace Report

/-- The bytes that a span marks in a pattern. A span that holds nothing
is widened to the next character, if there is one; nothing reaches past
the end. -/
def markedRange (span : Span) (source : List Char) : Nat × Nat :=
  let limit := Text.byteLength source
  let (start, stop) := span.offsets
  let start := min start limit
  if start < stop then (start, min stop limit)
  else
    let before := Text.takeBytes start source
    if Text.byteLength before = start then
      (start, start + ((source.drop before.length).head?.map (·.utf8Size)).getD 0)
    else (start, start)

/-- The number of the last line of a text. -/
def lineCount (source : List Char) : Nat :=
  let breaks := source.count '\n'
  max 1 (if source.getLast? = some '\n' then breaks else breaks + 1)

/-- The rows of the message. The lines of a message stand under each
other. -/
def titleRows (message : String) : List Row :=
  match (Text.expandTabs message.toList).splitOn '\n' with
  | [] => []
  | line :: lines =>
    [(.level, "error".toList), (.message, ": ".toList ++ line)]
      :: lines.map fun line => [Row.blanks 7, (.message, line)]

/-- The row that names the place of an error. -/
def pathRow (width : Nat) (path : String) (start : Nat) (place : Place) : Row :=
  let char := if start > place.line.stop then place.char + 1 else place.char
  [Row.blanks width, (.gutter, "--> ".toList),
    (.plain, path.toList ++ ':' :: Nat.toDigits 10 place.line.number
      ++ ':' :: Nat.toDigits 10 (char + 1))]

/-- The rows of a report that draws a span. -/
def drawnRows (message : String) (span : Span) (source : List Char) (path : Option String) :
    List Row :=
  let (start, stop) := markedRange span source
  let (line, lines) := SourceLine.split source
  let m := Marked.ofRange line lines start stop
  let width := (Nat.toDigits 10 (lineCount (Text.takeBytes stop source))).length
  titleRows message
    ++ path.toList.map (pathRow width · start m.first)
    ++ [Snippet.gutter width none]
    ++ Snippet.rows width m (line :: lines)

/-- The text of a report. It does not end in a line break. -/
def render (r : Report) : String :=
  match r.source, r.error.span? with
  | some source, some span =>
    "\n".intercalate
      ((drawnRows r.error.message span source.toList r.path).map (·.render r.colored))
  | _, _ => "error: " ++ r.error.message

end Report

/-- The report of an error without colors and without a name for the
pattern. -/
def PatternError.report (e : PatternError) (source : String) : Report :=
  ⟨e, some source, none, false⟩

end Regexp
