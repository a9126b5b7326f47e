import Regexp.Expr.Basic
import Regexp.Text.Numeral

/-!
# Rendering trees as patterns

`Expr.render` writes the canonical pattern of a tree. Which characters
need a backslash depends on where they stand: outside a set every
character with a meaning of its own does, inside a set only the closing
bracket and the backslash, a dash that is not at an edge, and a circumflex
in front.
-/

namespace Regexp

/-- The characters that are written with a backslash outside a set, since
they have a meaning of their own there. -/
def reservedChars : List Char :=
  ['*', '+', '?', '.', '\x7b', '\x7d', '(', ')', '[', ']', '^', '$', '\\', '|']

/-- The character, behind a backslash if it needs one. -/
private def escapeIf (needed : Bool) (c : Char) : List Char :=
  if needed then ['\\', c] else [c]

namespace Letter

/-- The unicode escape of a code point with at least `width` digits. -/
def renderEscape (codePoint : UInt32) (width : Nat) : List Char :=
  '\\' :: 'u' :: '\x7b' :: (Numeral.write 16 width codePoint.toNat ++ ['\x7d'])

/-- How the letter is written outside a set. -/
def render : Letter → List Char
  | .unicode codePoint width => renderEscape codePoint width
  | .literal c => escapeIf (reservedChars.contains c) c

/-- How the letter is written inside a set: `first` says whether it
stands right behind the opening bracket, `edge` whether a dash would be
literal there. -/
def renderInSet (first edge : Bool) : Letter → List Char
  | .unicode codePoint width => renderEscape codePoint width
  | .literal c =>
    escapeIf (c == ']' || c == '\\' || (c == '-' && !edge) || (c == '^' && first)) c

end Letter

namespace CharSet

/-- How an item is written: `first` and `last` say whether it is the
first or the last one of its set. The ends of a range are never at an
edge. -/
def renderItem (first last : Bool) : SetItem → List Char
  | .member (.letter a) => a.renderInSet first (first || last)
  | .member (.range a b) => a.renderInSet first false ++ '-' :: b.renderInSet false false
  | .metaChar m => m.render

/-- How the items are written, of which the head is the first one of its
set if `first` says so. -/
def renderItems (first : Bool) : List SetItem → List Char
  | [] => []
  | i :: is => renderItem first is.isEmpty i ++ renderItems false is

/-- How the set is written, brackets included. -/
def render (s : CharSet) : List Char :=
  '[' :: ((if s.negative then ['^'] else []) ++ renderItems true s.items ++ [']'])

end CharSet

/-- How the symbol is written. -/
def Symbol.render : Symbol → List Char
  | .letter a => a.render
  | .metaChar m => m.render
  | .set s => s.render

/-- The pattern text of a symbol. -/
instance : ToString Symbol := ⟨fun s => String.ofList s.render⟩

/-- What stands between the opening parenthesis and the body: a name, or
the mark of a group whose match is not kept. -/
def GroupLabel.render (l : GroupLabel) : List Char :=
  match l.name with
  | some name => '?' :: '<' :: (name.toList ++ ['>'])
  | none => if l.capturing then [] else ['?', ':']

/-- What stands between the opening parenthesis and the body of a
look-around. -/
def Direction.render (d : Direction) (negative : Bool) : List Char :=
  '?' :: ((match d with | .ahead => [] | .behind => ['<']) ++ [if negative then '!' else '='])

namespace Expr

mutual

/-- The canonical pattern of a tree. -/
def render : Expr → List Char
  | symbol s => s.render
  | sequence es => renderSequence es
  | choice es => renderChoice es
  | emptyGroup l => '(' :: (l.render ++ [')'])
  | group l e => '(' :: (l.render ++ e.render ++ [')'])
  | repetition e q => e.render ++ q.render
  | lookAround d negative e => '(' :: (d.render negative ++ e.render ++ [')'])

/-- The patterns of the parts, one after the other. -/
def renderSequence : List Expr → List Char
  | [] => []
  | e :: es => e.render ++ renderSequence es

/-- The patterns of the branches with a pipe between them. -/
def renderChoice : List Expr → List Char
  | [] => []
  | [e] => e.render
  | e :: es => e.render ++ '|' :: renderChoice es

end

/-- The pattern text of a tree. -/
instance : ToString Expr := ⟨fun e => String.ofList e.render⟩

end Expr

end Regexp
