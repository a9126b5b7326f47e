/-!
# Painted text

A row of a report is a list of strokes, texts of one color each. Without
colors the strokes are just joined; with colors each run of strokes of
one color stands between the codes that switch it on and off.
-/

namespace Regexp

/-- The colors of a report. -/
inductive Paint where
  /-- No color. -/
  | plain
  /-- The word that opens a report. -/
  | level
  /-- The message. -/
  | message
  /-- Line numbers, the bar next to them, and arrows. -/
  | gutter
  /-- What marks the place of the error. -/
  | mark
deriving DecidableEq, Repr

/-- The code that switches the color on. -/
def Paint.code : Paint → String
  | plain => ""
  | level => "\x1b[1m\x1b[91m"
  | message => "\x1b[1m"
  | gutter => "\x1b[1m\x1b[94m"
  | mark => "\x1b[1m\x1b[91m"

/-- A row of a report, as texts of one color each. -/
abbrev Row := List (Paint × List Char)

namespace Row

/-- The row without empty strokes and with neighbors of one color
joined. -/
def merge : Row → Row
  | [] => []
  | (p, s) :: row =>
    if s.isEmpty then merge row
    else
      match merge row with
      | (q, t) :: rest => if p = q then (p, s ++ t) :: rest else (p, s) :: (q, t) :: rest
      | [] => [(p, s)]

/-- The row as text. -/
def render (colored : Bool) (row : Row) : String :=
  String.join (row.merge.map fun (p, s) =>
    if colored && p != .plain then p.code ++ String.ofList s ++ "\x1b[0m" else String.ofList s)

/-- So many blanks without color. -/
def blanks (n : Nat) : Paint × List Char :=
  (.plain, List.replicate n ' ')

end Row

end Regexp
