import Regexp.Text.Bytes

/-!
# Pieces of a pattern

Before anything is known about context, a pattern is cut into pieces:
escapes, operators and single characters. Of two pieces that might start
at the same place the longer one wins, so a quantifier operator and the
question mark behind it are one piece, and a unicode escape reaches up to
the first closing brace, whatever stands in between. What a piece means
where it stands is settled by `Token.lex`.

Cutting loses nothing: the texts of the pieces, joined, are the pattern
(`Piece.join_scan`).
-/

namespace Regexp

/-- An operator that quantifies what stands before it. -/
inductive Operator where
  /-- The star. -/
  | star
  /-- The plus sign. -/
  | plus
  /-- The question mark. -/
  | question
deriving DecidableEq, Repr

/-- The character of the operator. -/
def Operator.char : Operator → Char
  | star => '*'
  | plus => '+'
  | question => '?'

/-- The operator that a character is, if it is one. -/
def Operator.ofChar? : Char → Option Operator
  | '*' => some star
  | '+' => some plus
  | '?' => some question
  | _ => none

/-- A piece of a pattern, cut without regard to context. -/
inductive Piece where
  /-- The escape `\u` with braces and the text between them. -/
  | unicodeEscape (digits : List Char)
  /-- A backslash and the character behind it. -/
  | escape (target : Char)
  /-- A backslash at the end of the pattern. -/
  | backslash
  /-- An operator, together with a question mark behind it if it is
  lazy. -/
  | operator (op : Operator) (isLazy : Bool)
  /-- Any other character. -/
  | plain (c : Char)
deriving DecidableEq, Repr

namespace Piece

/-- The text that was cut out. -/
def text : Piece → List Char
  | unicodeEscape digits => '\\' :: 'u' :: '\x7b' :: (digits ++ ['\x7d'])
  | escape target => ['\\', target]
  | backslash => ['\\']
  | operator op isLazy => op.char :: if isLazy then ['?'] else []
  | plain c => [c]

/-- What stands before the first closing brace, and what stands
behind it. -/
def splitAtBrace? : List Char → Option (List Char × List Char)
  | [] => none
  | c :: cs =>
    if c = '\x7d' then some ([], cs)
    else (splitAtBrace? cs).map fun (inner, rest) => (c :: inner, rest)

/-- The piece that starts with `c` where `cs` follows, and what is left
of `cs`. -/
def cut (c : Char) (cs : List Char) : Piece × List Char :=
  if c = '\\' then
    match cs with
    | [] => (backslash, [])
    | 'u' :: '\x7b' :: rest =>
      match splitAtBrace? rest with
      | some (digits, rest) => (unicodeEscape digits, rest)
      | none => (escape 'u', '\x7b' :: rest)
    | target :: rest => (escape target, rest)
  else
    match Operator.ofChar? c with
    | some op =>
      match cs with
      | '?' :: rest => (operator op true, rest)
      | rest => (operator op false, rest)
    | none => (plain c, cs)

theorem eq_append_of_splitAtBrace? {cs inner rest : List Char}
    (h : splitAtBrace? cs = some (inner, rest)) : cs = inner ++ '\x7d' :: rest := by
  induction cs generalizing inner with
  | nil => simp [splitAtBrace?] at h
  | cons c cs ih =>
    rw [splitAtBrace?] at h
    split at h
    next hc =>
      cases h
      simp [hc]
    next =>
      obtain ⟨⟨inner', rest'⟩, h', heq⟩ := Option.map_eq_some_iff.1 h
      cases heq
      simp [ih h']

theorem char_of_ofChar? {c : Char} {op : Operator} (h : Operator.ofChar? c = some op) :
    op.char = c := by
  unfold Operator.ofChar? at h
  split at h <;> cases h <;> rfl

/-- **Cutting loses nothing**: the piece and what is left make up the
text. -/
theorem text_append_cut (c : Char) (cs : List Char) :
    (cut c cs).1.text ++ (cut c cs).2 = c :: cs := by
  unfold cut
  split
  next hc =>
    subst hc
    split
    next => rfl
    next rest =>
      split
      next digits rest' h => simp [text, eq_append_of_splitAtBrace? h]
      next => rfl
    next => rfl
  next =>
    split
    next op hop =>
      split <;> simp [text, char_of_ofChar? hop]
    next => rfl

theorem length_cut_le (c : Char) (cs : List Char) : (cut c cs).2.length ≤ cs.length := by
  have h := congrArg List.length (text_append_cut c cs)
  have pos : 0 < (cut c cs).1.text.length := by
    cases (cut c cs).1 <;> simp [text]
  simp at h
  omega

/-- The pieces of a pattern, from left to right. -/
def scan : List Char → List Piece
  | [] => []
  | c :: cs => (cut c cs).1 :: scan (cut c cs).2
termination_by cs => cs.length
decreasing_by
  have := length_cut_le c cs
  simp
  omega

@[simp] theorem scan_nil : scan [] = [] := by
  simp [scan]

theorem scan_cons (c : Char) (cs : List Char) :
    scan (c :: cs) = (cut c cs).1 :: scan (cut c cs).2 := by
  rw [scan]

/-- **Scanning loses nothing**: the joined texts of the pieces are the
pattern. -/
theorem join_scan (cs : List Char) : (scan cs).flatMap text = cs := by
  induction cs using scan.induct with
  | case1 => simp
  | case2 c cs ih => rw [scan_cons, List.flatMap_cons, ih, text_append_cut]

end Piece

/-! ## Places -/

/-- A piece together with the byte offset at which it starts. -/
structure PlacedPiece where
  /-- The piece. -/
  piece : Piece
  /-- The offset of its first byte. -/
  start : Nat
deriving DecidableEq, Repr

/-- The offset just past the last byte of the piece. -/
def PlacedPiece.stop (p : PlacedPiece) : Nat :=
  p.start + Text.byteLength p.piece.text

/-- The pieces, each with the offset that it has if the first one starts
at `start`. -/
def Piece.placeFrom (start : Nat) : List Piece → List PlacedPiece
  | [] => []
  | p :: ps => ⟨p, start⟩ :: placeFrom (start + Text.byteLength p.text) ps

/-- Placing pieces changes none of their texts. -/
theorem Piece.flatMap_text_placeFrom (start : Nat) (ps : List Piece) :
    (placeFrom start ps).flatMap (·.piece.text) = ps.flatMap text := by
  induction ps generalizing start with
  | nil => rfl
  | cons p ps ih => rw [placeFrom, List.flatMap_cons, List.flatMap_cons, ih]

theorem Piece.placeFrom_append (start : Nat) (ps qs : List Piece) :
    placeFrom start (ps ++ qs)
      = placeFrom start ps ++ placeFrom (start + Text.byteLength (ps.flatMap text)) qs := by
  induction ps generalizing start with
  | nil => rfl
  | cons p ps ih =>
    rw [List.cons_append, placeFrom, ih, List.flatMap_cons, Text.byteLength_append, Nat.add_assoc]
    rfl

/-- The pieces of a pattern with their offsets. -/
def Piece.scanPlaced (pattern : List Char) : List PlacedPiece :=
  placeFrom 0 (scan pattern)

end Regexp
