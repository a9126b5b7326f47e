/-!
# Colors of terminal output

A `Palette` holds the codes that are put around parts of the output:
state numbers are blue, symbols and successes green, failures and
backtracking red, and what only structures the output is dim. In the
plain palette every code is empty, so the same output serves both.
-/

namespace Regexp

/-- The codes that switch colors on and off. -/
structure Palette where
  /-- Switches to blue. -/
  blue : String
  /-- Switches to green. -/
  green : String
  /-- Switches to red. -/
  red : String
  /-- Switches to dim text. -/
  dim : String
  /-- Switches back to normal text. -/
  reset : String
deriving DecidableEq, Repr

namespace Palette

/-- No colors. -/
def plain : Palette :=
  ⟨"", "", "", "", ""⟩

/-- The ANSI codes of the sixteen-color set. -/
def ansi : Palette :=
  ⟨"\x1b[34m", "\x1b[32m", "\x1b[31m", "\x1b[2m", "\x1b[0m"⟩

/-- The ANSI codes if `colored` says so, else none. -/
def ofBool (colored : Bool) : Palette :=
  if colored then ansi else plain

end Palette

end Regexp
