/-!
# JSON documents

A JSON document whose objects keep their fields in order, and its two
written forms: on one line without blanks, or one value a line with two
blanks for each level of nesting. Numbers are natural numbers; nothing
here has others.
-/

namespace Regexp

/-- A JSON document. -/
inductive Json where
  /-- The null value. -/
  | null
  /-- A truth value. -/
  | bool (b : Bool)
  /-- A number. -/
  | number (n : Nat)
  /-- A text. -/
  | string (s : String)
  /-- A list of documents. -/
  | array (items : List Json)
  /-- Named documents in order. -/
  | object (fields : List (String × Json))

namespace Json

/-- The document of a value that may be absent. -/
def ofOption {α : Type} (f : α → Json) : Option α → Json
  | none => null
  | some a => f a

/-- The text of a single character. -/
def char (c : Char) : Json :=
  .string c.toString

/-- A value with its name, the form in which one of several alternatives
is written. -/
def tagged (name : String) (body : Json) : Json :=
  .object [(name, body)]

/-! ## Written forms -/

/-- How a character is written between quotes: quotes, backslashes and
control characters are escaped, the latter by a letter where there is
one. -/
def escapeChar (c : Char) : String :=
  if c = '"' then "\\\""
  else if c = '\\' then "\\\\"
  else if c = '\n' then "\\n"
  else if c = '\r' then "\\r"
  else if c = '\t' then "\\t"
  else if c = '\x08' then "\\b"
  else if c = '\x0c' then "\\f"
  else if c.toNat < 0x20 then
    "\\u00" ++ (if c.toNat < 0x10 then "0" else "") ++ String.ofList (Nat.toDigits 16 c.toNat)
  else c.toString

/-- A text between quotes. -/
def renderString (s : String) : String :=
  "\"" ++ s.toList.foldl (fun out c => out ++ escapeChar c) "" ++ "\""

/-- How documents are laid out. -/
inductive Layout where
  /-- All on one line. -/
  | compact
  /-- One value a line, indented. -/
  | pretty
deriving DecidableEq, Repr

/-- What separates two values at the given depth of nesting. -/
def Layout.newline (l : Layout) (depth : Nat) : String :=
  match l with
  | compact => ""
  | pretty => "\n" ++ String.ofList (List.replicate (2 * depth) ' ')

/-- What separates the name of a field from its value. -/
def Layout.colon : Layout → String
  | compact => ":"
  | pretty => ": "

mutual

/-- The written form of a document that stands at the given depth. -/
def render (l : Layout) (depth : Nat) : Json → String
  | null => "null"
  | bool b => if b then "true" else "false"
  | number n => toString n
  | string s => renderString s
  | array [] => "[]"
  | array (v :: vs) =>
    "[" ++ l.newline (depth + 1) ++ render l (depth + 1) v ++ renderItems l (depth + 1) vs
      ++ l.newline depth ++ "]"
  | object [] => "\x7b\x7d"
  | object ((name, v) :: fs) =>
    "\x7b" ++ l.newline (depth + 1) ++ renderString name ++ l.colon ++ render l (depth + 1) v
      ++ renderFields l (depth + 1) fs ++ l.newline depth ++ "\x7d"

/-- The written form of all items of an array but the first. -/
def renderItems (l : Layout) (depth : Nat) : List Json → String
  | [] => ""
  | v :: vs => "," ++ l.newline depth ++ render l depth v ++ renderItems l depth vs

/-- The written form of all fields of an object but the first. -/
def renderFields (l : Layout) (depth : Nat) : List (String × Json) → String
  | [] => ""
  | (name, v) :: fs =>
    "," ++ l.newline depth ++ renderString name ++ l.colon ++ render l depth v
      ++ renderFields l depth fs

end

/-- The written form of a document. -/
def toText (l : Layout) (v : Json) : String :=
  v.render l 0

end Json

end Regexp
