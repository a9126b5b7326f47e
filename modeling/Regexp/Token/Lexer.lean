import Regexp.Text.Numeral
import Regexp.Token.Basic
import Regexp.Token.Piece

/-!
# Reading tokens

`Token.lex` gives the pieces of a pattern their meaning. The pattern is
read from left to right, one token at a time; what a token is depends on
its first piece, on whether an opening parenthesis stands right before
it, and for sets and bounded quantifiers on the pieces up to the closing
bracket or brace.

* Between brackets most characters are literal. A circumflex in front
  makes the set negative, and a dash makes a range unless it is the first
  or the last of the members.
* A text between braces is a bounded quantifier. A question mark behind
  it makes it lazy, also when that question mark was cut together with
  another one: then the second stays behind as an operator of its own.
* A greedy operator right behind an opening parenthesis quantifies
  nothing and is kept as a structuring character.

Parentheses are not matched here.
-/

namespace Regexp

/-- The outcome of reading tokens. -/
abbrev LexResult (α : Type) := Except (Located LexFault) α

namespace PlacedPiece

/-- The span of the piece. -/
def span (p : PlacedPiece) : Span :=
  .ofOffsets p.start p.stop

/-- The fault, about this piece. -/
def reject {α : Type} (p : PlacedPiece) (fault : LexFault) : LexResult α :=
  .error ⟨fault, p.span⟩

/-- The offset just past the last of the pieces, or past `p` if there are
none. -/
def stopOfLast (p : PlacedPiece) (ps : List PlacedPiece) : Nat :=
  (ps.getLastD p).stop

/-- The pieces before the first one that is the plain character `close`,
that piece, and those behind it. -/
def splitAt? (close : Char) :
    List PlacedPiece → Option (List PlacedPiece × PlacedPiece × List PlacedPiece)
  | [] => none
  | p :: ps =>
    if p.piece = .plain close then some ([], p, ps)
    else (splitAt? close ps).map fun (inner, q, rest) => (p :: inner, q, rest)

theorem eq_append_of_splitAt? {close : Char} {ps inner rest : List PlacedPiece} {q : PlacedPiece}
    (h : splitAt? close ps = some (inner, q, rest)) :
    ps = inner ++ q :: rest ∧ q.piece = .plain close := by
  induction ps generalizing inner with
  | nil => simp [splitAt?] at h
  | cons p ps ih =>
    rw [splitAt?] at h
    split at h
    next hp =>
      cases h
      exact ⟨rfl, hp⟩
    next =>
      obtain ⟨⟨inner', q', rest'⟩, h', heq⟩ := Option.map_eq_some_iff.1 h
      cases heq
      obtain ⟨rfl, hq⟩ := ih h'
      exact ⟨rfl, hq⟩

theorem length_rest_of_splitAt? {close : Char} {ps inner rest : List PlacedPiece}
    {q : PlacedPiece} (h : splitAt? close ps = some (inner, q, rest)) :
    rest.length ≤ ps.length := by
  rw [(eq_append_of_splitAt? h).1]
  simp
  omega

end PlacedPiece

/-! ## Escapes -/

/-- The characters that stand for themselves behind a backslash, wherever
they are. -/
def escapableChars : List Char :=
  ['*', '+', '?', '.', '\x7b', '\x7d', '(', ')', '[', ']', '^', '$', '\\', '|']

/-- Whether a unicode escape may have that many characters between its
braces. -/
def isEscapeWidth (width : Nat) : Bool :=
  width == 4 || width == 6

namespace Token

/-- The token of a backslash and the character `c`. Inside a set a dash
may be escaped too. -/
def ofEscape (inSet : Bool) (p : PlacedPiece) (c : Char) : LexResult Token :=
  if escapableChars.contains c || (inSet && c == '-') then .ok ⟨.char c, p.span⟩
  else
    match MetaChar.ofEscape? c with
    | some m => .ok ⟨.metaChar m, p.span⟩
    | none =>
      if c == 'u' then p.reject .malformedUnicodeEscape
      else p.reject (.unsupportedEscape (some c))

/-- The token of a unicode escape with the given text between its
braces. -/
def ofUnicodeEscape (p : PlacedPiece) (digits : List Char) : LexResult Token :=
  if isEscapeWidth digits.length then
    match Numeral.read 16 digits with
    | .error .blank => p.reject .blankHexDigits
    | .error .notDigit => p.reject .invalidHexDigits
    | .ok n =>
      if n ≤ 0x10ffff then .ok ⟨.unicode n.toUInt32 digits.length, p.span⟩
      else p.reject .codePointOutOfRange
  else p.reject .malformedUnicodeEscape

/-! ## Sets -/

/-- The tokens of a piece inside a set, where `inner` says whether it is
neither the first nor the last of the members. A lazy operator is two
literal characters there. -/
def ofMember (inner : Bool) (p : PlacedPiece) : LexResult (List Token) :=
  match p.piece with
  | .escape c => (ofEscape true p c).map ([·])
  | .unicodeEscape digits => (ofUnicodeEscape p digits).map ([·])
  | .backslash => p.reject (.unsupportedEscape none)
  | .operator op true =>
    .ok [⟨.char op.char, .ofOffsets p.start (p.start + 1)⟩,
      ⟨.char '?', .ofOffsets (p.start + 1) p.stop⟩]
  | .operator op false => .ok [⟨.char op.char, p.span⟩]
  | .plain c => .ok [⟨if c == '-' && inner then .entity c else .char c, p.span⟩]

/-- The tokens of the members of a set, of which the head is the first
one if `first` says so. -/
def ofMembers (first : Bool) : List PlacedPiece → LexResult (List Token)
  | [] => .ok []
  | p :: ps =>
    match ofMember (!first && !ps.isEmpty) p with
    | .error e => .error e
    | .ok ts => (ofMembers false ps).map (ts ++ ·)

/-- The tokens between the brackets of a set. -/
def ofSetInterior : List PlacedPiece → LexResult (List Token)
  | ⟨.plain '^', start⟩ :: ps =>
    (ofMembers true ps).map (⟨.entity '^', (⟨.plain '^', start⟩ : PlacedPiece).span⟩ :: ·)
  | ps => ofMembers true ps

/-- The set that the bracket `p` opens, and the pieces behind it. -/
def lexSet (p : PlacedPiece) (ps : List PlacedPiece) : LexResult (Token × List PlacedPiece) :=
  match PlacedPiece.splitAt? ']' ps with
  | none => .error ⟨.unterminatedSet, .ofOffsets p.start (p.stopOfLast ps)⟩
  | some (inner, close, rest) =>
    (ofSetInterior inner).map fun members =>
      (⟨.charSet members, .ofOffsets p.start close.stop⟩, rest)

/-! ## Bounded quantifiers -/

/-- The bound that a text at the offset `start` denotes. It has to be less
than `2 ^ 32`. -/
def readBound (start : Nat) (text : List Char) : LexResult UInt32 :=
  let span := Span.ofOffsets start (start + Text.byteLength text)
  match Numeral.read 10 text with
  | .error .blank => .error ⟨.blankDecimalDigits, span⟩
  | .error .notDigit => .error ⟨.invalidDecimalDigits, span⟩
  | .ok n => if n < UInt32.size then .ok n.toUInt32 else .error ⟨.invalidDecimalDigits, span⟩

/-- The count that a text between braces denotes, where `whole` is the
span of the braces and `start` the offset of the text. -/
def readCount (whole : Span) (start : Nat) (text : List Char) : LexResult Count :=
  match text with
  | [] => .error ⟨.emptyQuantity, whole⟩
  | text =>
    match text.span (· != ',') with
    | (_, []) => (readBound start text).map .exactly
    | ([], _ :: _) => .error ⟨.missingLowerBound, whole⟩
    | (lower, _ :: upper) =>
      match readBound start lower with
      | .error e => .error e
      | .ok m =>
        if upper.isEmpty then .ok (.atLeast m)
        else (readBound (start + Text.byteLength lower + 1) upper).map (.between m)

/-- The question mark that makes the quantifier before it lazy: whether
the pieces start with one, the offset where it ends (`stop` if there is
none), and the pieces behind it. Of two question marks cut together it is
the first. -/
def takeLazyMark (stop : Nat) : List PlacedPiece → Bool × Nat × List PlacedPiece
  | ⟨.operator .question isLazy, start⟩ :: ps =>
    (true, start + 1, if isLazy then ⟨.operator .question false, start + 1⟩ :: ps else ps)
  | ps => (false, stop, ps)

theorem length_takeLazyMark (stop : Nat) (ps : List PlacedPiece) :
    (takeLazyMark stop ps).2.2.length ≤ ps.length := by
  unfold takeLazyMark
  split
  · split <;> simp
  · exact Nat.le_refl _

/-- The bounded quantifier that the brace `p` opens, and the pieces
behind it. -/
def lexQuantity (p : PlacedPiece) (ps : List PlacedPiece) :
    LexResult (Token × List PlacedPiece) :=
  match PlacedPiece.splitAt? '\x7d' ps with
  | none => .error ⟨.unterminatedQuantity, .ofOffsets p.start (p.stopOfLast ps)⟩
  | some (inner, close, rest) =>
    let text := inner.flatMap (·.piece.text)
    (readCount (.ofOffsets p.start close.stop) p.stop text).map fun count =>
      let (isLazy, stop, rest) := takeLazyMark close.stop rest
      (⟨.quantity ⟨count, !isLazy⟩, .ofOffsets p.start stop⟩, rest)

/-! ## The whole pattern -/

/-- What an operator outside a set is. -/
def ofOperator (afterOpen : Bool) (op : Operator) (isLazy : Bool) : TokenKind Token :=
  if afterOpen && !isLazy then .entity op.char
  else
    .quantity
      ⟨match op with | .star => .zeroOrMore | .plus => .oneOrMore | .question => .zeroOrOne,
        !isLazy⟩

/-- The token that starts with the piece `p`, and the pieces behind it.
`afterOpen` says whether an opening parenthesis stands right before. -/
def lexOne (afterOpen : Bool) (p : PlacedPiece) (ps : List PlacedPiece) :
    LexResult (Token × List PlacedPiece) :=
  match p.piece with
  | .escape c => (ofEscape false p c).map (·, ps)
  | .unicodeEscape digits => (ofUnicodeEscape p digits).map (·, ps)
  | .backslash => p.reject (.unsupportedEscape none)
  | .operator op isLazy => .ok (⟨ofOperator afterOpen op isLazy, p.span⟩, ps)
  | .plain c =>
    if c = '[' then lexSet p ps
    else if c = '\x7b' then lexQuantity p ps
    else if c = '(' || c = ')' || c = '|' then .ok (⟨.entity c, p.span⟩, ps)
    else if c = '.' then .ok (⟨.metaChar .dot, p.span⟩, ps)
    else .ok (⟨.char c, p.span⟩, ps)

theorem length_rest_of_map {r : LexResult Token} {ps rest : List PlacedPiece} {t : Token}
    (h : r.map (·, ps) = .ok (t, rest)) : rest.length ≤ ps.length := by
  cases r <;> cases h
  exact Nat.le_refl _

/-- Reading a token never gives pieces back. -/
theorem length_lexOne {afterOpen : Bool} {p : PlacedPiece} {ps rest : List PlacedPiece} {t : Token}
    (h : lexOne afterOpen p ps = .ok (t, rest)) : rest.length ≤ ps.length := by
  unfold lexOne at h
  split at h
  · exact length_rest_of_map h
  · exact length_rest_of_map h
  · cases h
  · cases h
    exact Nat.le_refl _
  · split at h
    · unfold lexSet at h
      split at h
      · cases h
      next hs =>
        cases hm : ofSetInterior _ with
        | error e =>
          rw [hm] at h
          cases h
        | ok members =>
          rw [hm] at h
          cases h
          exact PlacedPiece.length_rest_of_splitAt? hs
    · split at h
      · unfold lexQuantity at h
        split at h
        · cases h
        next hs =>
          dsimp only at h
          cases hc : readCount _ _ _ with
          | error e =>
            rw [hc] at h
            cases h
          | ok count =>
            rw [hc] at h
            cases h
            exact Nat.le_trans (length_takeLazyMark _ _) (PlacedPiece.length_rest_of_splitAt? hs)
      · split at h
        · cases h
          exact Nat.le_refl _
        · split at h <;> cases h <;> exact Nat.le_refl _

/-- The tokens of a list of pieces. `afterOpen` says whether an opening
parenthesis stands right before the first one. -/
def lexPieces (afterOpen : Bool) : List PlacedPiece → LexResult (List Token)
  | [] => .ok []
  | p :: ps =>
    match _h : lexOne afterOpen p ps with
    | .error e => .error e
    | .ok (t, rest) => (lexPieces (t.isEntity '(') rest).map (t :: ·)
termination_by ps => ps.length
decreasing_by
  have := length_lexOne _h
  simp
  omega

@[simp] theorem lexPieces_nil (afterOpen : Bool) : lexPieces afterOpen [] = .ok [] := by
  rw [lexPieces]

theorem lexPieces_cons (afterOpen : Bool) (p : PlacedPiece) (ps : List PlacedPiece) :
    lexPieces afterOpen (p :: ps) =
      match lexOne afterOpen p ps with
      | .error e => .error e
      | .ok (t, rest) => (lexPieces (t.isEntity '(') rest).map (t :: ·) := by
  rw [lexPieces]
  split <;> simp [*]

/-- Only from no piece no token is read. -/
theorem lexPieces_eq_ok_nil_iff {afterOpen : Bool} {ps : List PlacedPiece} :
    lexPieces afterOpen ps = .ok [] ↔ ps = [] := by
  cases ps with
  | nil => exact iff_of_true (lexPieces_nil _) rfl
  | cons p ps =>
    refine iff_of_false (fun h => ?_) (List.cons_ne_nil _ _)
    rw [lexPieces_cons] at h
    split at h
    next => cases h
    next =>
      obtain ⟨_, _, hcons⟩ := map_eq_ok_iff.1 h
      cases hcons

/-- A token is read first, and then the others. -/
theorem lexPieces_eq_ok_cons_iff {afterOpen : Bool} {ps : List PlacedPiece} {t : Token}
    {ts : List Token} : lexPieces afterOpen ps = .ok (t :: ts) ↔
      ∃ p qs rest, ps = p :: qs ∧ lexOne afterOpen p qs = .ok (t, rest)
        ∧ lexPieces (t.isEntity '(') rest = .ok ts := by
  cases ps with
  | nil =>
    refine iff_of_false (fun h => ?_) fun ⟨_, _, _, h, _⟩ => nomatch h
    rw [lexPieces_nil] at h
    cases h
  | cons p ps =>
    rw [lexPieces_cons]
    constructor
    · intro h
      split at h
      next => cases h
      next t' rest hone =>
        obtain ⟨us, hus, heq⟩ := map_eq_ok_iff.1 h
        obtain ⟨rfl, rfl⟩ := List.cons.inj heq
        exact ⟨p, ps, rest, rfl, hone, hus⟩
    · rintro ⟨p', ps', rest, heq, hone, hrest⟩
      obtain ⟨rfl, rfl⟩ := List.cons.inj heq
      rw [hone]
      exact map_eq_ok_iff.2 ⟨ts, hrest, rfl⟩

/-- The tokens of a pattern. -/
def lex (pattern : List Char) : LexResult (List Token) :=
  lexPieces false (Piece.scanPlaced pattern)

end Token

end Regexp
