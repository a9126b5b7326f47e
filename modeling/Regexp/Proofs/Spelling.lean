import Regexp.Proofs.Numerals
import Regexp.Token.Lexer

/-!
# How tokens are written

A text is covered by its tokens: it falls into slices, one for each
token, and each token says what its slice says (`Token.Tiles`). Most
slices are a single character, written bare, behind a backslash or as a
unicode escape (`Token.Glyph`); a set and a bounded quantifier have slices
of their own kind (`Token.Slice`), and once parentheses are matched so has
a group (`Token.NestedSlice`).

Spans are compared with places by a relation `At`, since they only keep
the low bits of an offset. Where the text is short enough, `Span.Covers`
is the relation that holds.
-/

namespace Regexp

/-- **The span goes from `start` to `stop`**, as numbers. -/
def Span.Covers (span : Span) (start stop : Nat) : Prop :=
  span.offsets = (start, stop)

/-- **The count is written as the text.** Bounds may have zeros in front
and blanks behind them. -/
inductive Count.WrittenAs : Count → List Char → Prop where
  /-- The question mark. -/
  | zeroOrOne : WrittenAs .zeroOrOne ['?']
  /-- The plus sign. -/
  | oneOrMore : WrittenAs .oneOrMore ['+']
  /-- The star. -/
  | zeroOrMore : WrittenAs .zeroOrMore ['*']
  /-- One bound in braces. -/
  | exactly {s : List Char} {n : UInt32} (h : Numeral.Spells 10 s n.toNat) :
      WrittenAs (.exactly n) ('\x7b' :: (s ++ ['\x7d']))
  /-- One bound and a comma in braces. -/
  | atLeast {s : List Char} {n : UInt32} (h : Numeral.Spells 10 s n.toNat) :
      WrittenAs (.atLeast n) ('\x7b' :: (s ++ [',', '\x7d']))
  /-- Two bounds with a comma between, in braces. -/
  | between {s s' : List Char} {m n : UInt32} (h : Numeral.Spells 10 s m.toNat)
      (h' : Numeral.Spells 10 s' n.toNat) :
      WrittenAs (.between m n) ('\x7b' :: (s ++ ',' :: (s' ++ ['\x7d'])))

namespace Token

/-- The question mark of a lazy quantity. -/
def lazyMark (greedy : Bool) : List Char :=
  if greedy then [] else ['?']

/-- Whether a character may stand for itself: inside a set all but the
backslash and the closing bracket may. -/
def IsBare (inSet : Bool) (c : Char) : Prop :=
  if inSet then c ∉ ['\\', ']']
  else c ∉ ['\\', '[', '\x7b', '(', ')', '|', '.', '*', '+', '?']

/-- Whether a character may structure the pattern: parentheses and pipes
do, operators where they quantify nothing, and inside a set the circumflex
and the dash. -/
def IsStructure (inSet : Bool) (c : Char) : Prop :=
  if inSet then c ∈ ['^', '-'] else c ∈ ['(', ')', '|', '*', '+', '?']

/-- The characters with a meaning of their own: behind a backslash each of
them stands for itself, in a set as well as outside. -/
def specialChars : List Char :=
  ['*', '+', '?', '.', '\x7b', '\x7d', '(', ')', '[', ']', '^', '$', '\\', '|']

/-- The lexer knows the same characters. -/
theorem specialChars_eq : specialChars = escapableChars := rfl

/-- **The text writes a single character**, and the kind says which.
`inSet` says whether it stands between brackets. -/
inductive Glyph (inSet : Bool) : List Char → TokenKind Token → Prop where
  /-- A character that stands for itself. -/
  | bare {c : Char} (h : IsBare inSet c) : Glyph inSet [c] (.char c)
  /-- A character behind a backslash. -/
  | escaped {c : Char} (h : c ∈ specialChars ∨ inSet = true ∧ c = '-') :
      Glyph inSet ['\\', c] (.char c)
  /-- A meta character. -/
  | metaChar {c : Char} {m : MetaChar} (h : m.escape? = some c) :
      Glyph inSet ['\\', c] (.metaChar m)
  /-- A code point in four or six characters. -/
  | unicode {digits : List Char} {n : UInt32} (hlen : digits.length = 4 ∨ digits.length = 6)
      (h : Numeral.Spells 16 digits n.toNat) (hle : n ≤ 0x10ffff) :
      Glyph inSet ('\\' :: 'u' :: '\x7b' :: (digits ++ ['\x7d'])) (.unicode n digits.length)
  /-- A structuring character. -/
  | structure {c : Char} (h : IsStructure inSet c) : Glyph inSet [c] (.entity c)

section Tilings

variable (At : Span → Nat → Nat → Prop)

/-- **The tokens tile the text** that starts at an offset: it falls into
slices that are not empty, one for each token in order, the span of a
token is that of its slice, and `R` relates the offset of the slice, the
slice and the kind of the token. -/
inductive Tiles (R : Nat → List Char → TokenKind Token → Prop) :
    Nat → List Char → List Token → Prop where
  /-- Nothing is tiled by no token. -/
  | nil {start : Nat} : Tiles R start [] []
  /-- A slice in front of others. -/
  | cons {start : Nat} {u v : List Char} {t : Token} {ts : List Token} (hne : u ≠ [])
      (hspan : At t.span start (start + Text.byteLength u)) (hkind : R start u t.kind)
      (h : Tiles R (start + Text.byteLength u) v ts) : Tiles R start (u ++ v) (t :: ts)

/-- **The slice of a token.** -/
inductive Slice : Nat → List Char → TokenKind Token → Prop where
  /-- A single character. -/
  | glyph {start : Nat} {u : List Char} {k : TokenKind Token} (h : Glyph false u k) :
      Slice start u k
  /-- The dot. -/
  | dot {start : Nat} : Slice start ['.'] (.metaChar .dot)
  /-- A set, whose members tile what stands between the brackets. -/
  | set {start : Nat} {s : List Char} {ts : List Token}
      (h : Tiles At (fun _ => Glyph true) (start + 1) s ts) :
      Slice start ('[' :: (s ++ [']'])) (.charSet ts)
  /-- A quantifier. A further question mark makes it lazy. -/
  | quantity {start : Nat} {u : List Char} {q : Quantity} (h : q.count.WrittenAs u) :
      Slice start (u ++ lazyMark q.greedy) (.quantity q)

/-- **The slice of a token once parentheses are matched.** -/
inductive NestedSlice : Nat → List Char → TokenKind Token → Prop where
  /-- A token that is no parenthesis. -/
  | slice {start : Nat} {u : List Char} {k : TokenKind Token} (ho : k ≠ .entity '(')
      (hc : k ≠ .entity ')') (h : Slice At start u k) : NestedSlice start u k
  /-- A group, whose tokens tile what stands between the parentheses. -/
  | group {start : Nat} {s : List Char} {ts : List Token}
      (h : Tiles At NestedSlice (start + 1) s ts) :
      NestedSlice start ('(' :: (s ++ [')'])) (.group ts)

end Tilings

namespace Tiles

variable {At : Span → Nat → Nat → Prop} {R R' : Nat → List Char → TokenKind Token → Prop}
variable {start : Nat} {u v w : List Char} {t : Token} {ts us : List Token}

/-- A single slice. -/
theorem singleton (hne : u ≠ []) (hspan : At t.span start (start + Text.byteLength u))
    (hkind : R start u t.kind) : Tiles At R start u [t] := by
  have h := cons hne hspan hkind nil
  rwa [List.append_nil] at h

/-- **One text after the other.** -/
theorem append (h : Tiles At R start u ts) (h' : Tiles At R (start + Text.byteLength u) v us) :
    Tiles At R start (u ++ v) (ts ++ us) := by
  induction h with
  | nil => exact h'
  | @cons start u w t ts hne hspan hkind _ ih =>
    rw [Text.byteLength_append, ← Nat.add_assoc] at h'
    rw [List.append_assoc]
    exact cons hne hspan hkind (ih h')

/-- **A text falls into two where its tokens do.** -/
theorem exists_append (h : Tiles At R start w (ts ++ us)) :
    ∃ u v, w = u ++ v ∧ Tiles At R start u ts
      ∧ Tiles At R (start + Text.byteLength u) v us := by
  induction ts generalizing start w with
  | nil => exact ⟨[], w, rfl, nil, h⟩
  | cons t ts ih =>
    cases h with
    | @cons _ u w _ _ hne hspan hkind h =>
      obtain ⟨u', v, rfl, hu, hv⟩ := ih h
      refine ⟨u ++ u', v, (List.append_assoc _ _ _).symm, cons hne hspan hkind hu, ?_⟩
      rwa [Text.byteLength_append, ← Nat.add_assoc]

/-- The first token tiles a text of its own. -/
theorem exists_cons (h : Tiles At R start w (t :: ts)) :
    ∃ u v, w = u ++ v ∧ Tiles At R start u [t] ∧ Tiles At R (start + Text.byteLength u) v ts :=
  exists_append (show Tiles At R start w ([t] ++ ts) from h)

end Tiles

end Token

end Regexp
