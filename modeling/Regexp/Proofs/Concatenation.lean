import Regexp.Proofs.Embedding
import Regexp.Proofs.FaultPlaces

/-!
# Lexing one text behind another

The tokens of two texts, one behind the other, are those of the first and
those of the second, the latter shifted by the length of the first; and if
the second has an error, this is the error, shifted
(`Pattern.lex_concatenated`). All that may go wrong is that a question
mark at the start of the second text belongs to the last token of the
first, or that an operator there stands behind an opening parenthesis.
Nothing else reaches from one text into the other, once the first can be
read on its own: its escapes, sets and bounded quantifiers are closed.

As numbers the offsets just grow by the length of the first text, as long
as both texts together are shorter than `2 ^ 32` bytes
(`Span.ShiftsExactly`).
-/

namespace Regexp

open Piece (placeFrom scan)
open LexResult (relocate)

/-! ## Reading on behind a text -/

namespace Token

variable {s t : List Char} {ts : List Token}

/-- The last token decides whether an opening parenthesis stands right
behind the tokens. -/
theorem endsOpen_eq (afterOpen : Bool) (ts : List Token) :
    endsOpen afterOpen ts = (ts.getLast?.map (·.isEntity '(')).getD afterOpen := by
  induction ts generalizing afterOpen with
  | nil => rfl
  | cons t ts ih =>
    rw [endsOpen, ih, List.getLast?_cons]
    cases ts.getLast? <;> rfl

/-- **An opening parenthesis in front does not change the tokens** of a
text that does not start with an operator. -/
theorem lexPieces_scan_afterOpen (h : ∀ op : Operator, t.head? ≠ some op.char) (afterOpen : Bool)
    (start : Nat) : lexPieces afterOpen (placeFrom start (scan t))
      = lexPieces false (placeFrom start (scan t)) := by
  cases t with
  | nil => rw [Piece.scan_nil, placeFrom, lexPieces_nil, lexPieces_nil]
  | cons c t =>
    rw [Piece.scan_cons, placeFrom]
    refine lexPieces_afterOpen (fun op hop => h op ?_) afterOpen
    exact (Piece.head?_text_of_cut hop).symm

/-- **A text behind one that can be read** has its own tokens or its own
error, shifted. -/
theorem lex_append (hs : lex s = .ok ts) (hmark : t.head? ≠ some '?')
    (hopen : endsOpen false ts = true → t.head? ≠ some '*' ∧ t.head? ≠ some '+') :
    lex (s ++ t) = relocate (Text.byteLength s)
      (fun us => ts ++ us.map (shift (Text.byteLength s))) (lex t) := by
  -- behind an opening parenthesis nothing but an operator is read in another way
  have hbehind : lexPieces (endsOpen false ts) (placeFrom (Text.byteLength s) (scan t))
      = lexPieces false (placeFrom (Text.byteLength s) (scan t)) := by
    cases hends : endsOpen false ts with
    | false => rfl
    | true =>
      obtain ⟨hstar, hplus⟩ := hopen hends
      have hop : ∀ op : Operator, t.head? ≠ some op.char
        | .star => hstar
        | .plus => hplus
        | .question => hmark
      exact lexPieces_scan_afterOpen hop _ _
  unfold lex Piece.scanPlaced at hs ⊢
  rw [Piece.scan_append (isComplete_of_lex hs) hmark, Piece.placeFrom_append,
    lexPieces_append (Expr.not_startsWithMark hmark _) hs, Nat.zero_add, Piece.join_scan, hbehind,
    lexPieces_placeFrom, LexResult.map_relocate]

end Token

/-! ## Spans, also of tokens inside of tokens -/

/-- **Shifting the span loses nothing**: as numbers, both offsets grow by
`d`. -/
def Span.ShiftsExactly (d : Nat) (a : Span) : Prop :=
  (a.shift d).offsets = (a.offsets.1 + d, a.offsets.2 + d)

/-- Behind a text of `d` bytes the parts of another one are found `d`
bytes later, if both texts together are short enough. -/
theorem Span.Within.shiftsExactly {text : String} {a : Span} {d : Nat}
    (h : a.Within 0 text.toList) (hsize : d + text.utf8ByteSize < UInt32.size) :
    a.ShiftsExactly d := by
  obtain ⟨hlt, hle, -⟩ := h.bounds
  have hd : d.toUInt32.toNat = d := UInt32.toNat_ofNat_of_lt' (by omega)
  have add_exact {x : UInt32} (hx : x.toNat ≤ text.utf8ByteSize) :
      (x + d.toUInt32).toNat = x.toNat + d := by
    rw [UInt32.toNat_add, hd]
    exact Nat.mod_eq_of_lt (show x.toNat + d < UInt32.size by omega)
  exact Prod.ext (add_exact (Nat.le_trans (Nat.le_of_lt hlt) hle)) (add_exact hle)

namespace Token

mutual

/-- The spans of the token and of those that it holds, at any depth. -/
def spans : Token → List Span
  | ⟨.charSet members, span⟩ => span :: spansOfAll members
  | ⟨.group tokens, span⟩ => span :: spansOfAll tokens
  | ⟨_, span⟩ => [span]

/-- The spans of all tokens. -/
def spansOfAll : List Token → List Span
  | [] => []
  | t :: ts => spans t ++ spansOfAll ts

end

variable {a : Span} {t : Token} {ts : List Token} {start : Nat} {text u : List Char} {inSet : Bool}

theorem exists_mem_spans (h : a ∈ spansOfAll ts) : ∃ t ∈ ts, a ∈ t.spans := by
  induction ts with
  | nil => cases h
  | cons t ts ih =>
    obtain h | h := List.mem_append.1 h
    · exact ⟨t, List.mem_cons_self, h⟩
    · obtain ⟨u, hu, ha⟩ := ih h
      exact ⟨u, List.mem_cons_of_mem t hu, ha⟩

/-- A single character holds nothing. -/
theorem spans_of_glyph (h : Glyph inSet u t.kind) : t.spans = [t.span] := by
  obtain ⟨kind, span⟩ := t
  cases h <;> rfl

theorem within_of_tiles_glyph (h : Tiles Span.Covers (fun _ => Glyph inSet) start text ts)
    (ha : a ∈ spansOfAll ts) : a.Within start text := by
  obtain ⟨t, ht, ha⟩ := exists_mem_spans ha
  obtain ⟨_, _, hne, hcovers, hglyph, hpart⟩ := h.exists_slice ht
  rw [spans_of_glyph hglyph] at ha
  obtain rfl := List.mem_singleton.1 ha
  exact hpart _ (hcovers.within hne)

/-- **Every span in the tokens of a text is that of a part of it.** -/
theorem within_of_tiles (h : Tiles Span.Covers (Slice Span.Covers) start text ts)
    (ha : a ∈ spansOfAll ts) : a.Within start text := by
  obtain ⟨⟨kind, span⟩, ht, ha⟩ := exists_mem_spans ha
  obtain ⟨_, _, hne, hcovers, hslice, hpart⟩ := h.exists_slice ht
  refine hpart a ?_
  cases hslice with
  | glyph hglyph =>
    rw [spans_of_glyph hglyph] at ha
    obtain rfl := List.mem_singleton.1 ha
    exact hcovers.within hne
  | set hmembers =>
    obtain rfl | ha := List.mem_cons.1 ha
    · exact hcovers.within hne
    · exact (within_of_tiles_glyph hmembers ha).enclosed ']'
  | _ =>
    obtain rfl := List.mem_singleton.1 ha
    exact hcovers.within hne

end Token

/-! ## Two patterns -/

namespace Pattern

variable {a b : String} {ta : List Token}

/-- **Lexing is compositional.** Let `a` have the tokens `ta`, let `b` not
start with a question mark, and if the last token of `ta` is an opening
parenthesis, let `b` start with no operator. Then `b` behind `a` has the
tokens of `b` behind those of `a`, or the error of `b`, in both cases
shifted by the length of `a`. Shifting changes no span but by this
length, also of tokens that others hold. -/
theorem lex_concatenated (hsize : (a ++ b).utf8ByteSize < UInt32.size) (ha : lex a = .ok ta)
    (hmark : b.toList.head? ≠ some '?')
    (hopen : ∀ t, ta.getLast? = some t → t.isEntity '(' = true →
      b.toList.head? ≠ some '*' ∧ b.toList.head? ≠ some '+') :
    (∀ tb, lex b = .ok tb →
        lex (a ++ b) = .ok (ta ++ tb.map (Token.shift a.utf8ByteSize))
          ∧ ∀ s ∈ Token.spansOfAll tb, s.ShiftsExactly a.utf8ByteSize)
      ∧ ∀ err, lex b = .error err → ∃ e, err = .lex e
          ∧ lex (a ++ b) = .error (.lex (e.shift a.utf8ByteSize))
          ∧ e.span.ShiftsExactly a.utf8ByteSize := by
  rw [String.utf8ByteSize_append] at hsize
  have hb : b.utf8ByteSize < UInt32.size := Nat.lt_of_le_of_lt (Nat.le_add_left _ _) hsize
  have hends : Token.endsOpen false ta = true →
      b.toList.head? ≠ some '*' ∧ b.toList.head? ≠ some '+' := by
    rw [Token.endsOpen_eq]
    cases hlast : ta.getLast? with
    | none => exact nofun
    | some t => exact hopen t hlast
  have hab := Token.lex_append (lex_eq_ok_iff.1 ha) hmark hends
  rw [← String.toList_append, Text.byteLength_toList] at hab
  constructor
  · intro tb htb
    rw [lex_eq_ok_iff] at htb
    have htiles := slices_of_lex hb htb
    refine ⟨?_, fun s hs => (Token.within_of_tiles htiles hs).shiftsExactly hsize⟩
    rw [lex_eq_ok_iff, hab, htb, relocate]
  · intro err herr
    obtain ⟨e, he, rfl⟩ := mapError_eq_error_iff.1 herr
    refine ⟨e, rfl, ?_, (within_of_lex hb he).shiftsExactly hsize⟩
    rw [lex, hab, he]
    rfl

/-- The text `é(` ends with an opening parenthesis and takes three bytes.
Behind it the tokens of `[é-z])` are shifted by three, the members of the
set too, and so is the error of `é{1,x}` about the second bound. -/
theorem lex_concatenated_paren :
    let a := "é("
    let b := "[é-z])"
    let bad := "é\x7b1,x\x7d"
    let ta : List Token := [⟨.char 'é', ⟨0, 2⟩⟩, ⟨.entity '(', ⟨2, 3⟩⟩]
    let tb (d : UInt32) : List Token := [⟨.charSet [⟨.char 'é', ⟨d + 1, d + 3⟩⟩,
      ⟨.entity '-', ⟨d + 3, d + 4⟩⟩, ⟨.char 'z', ⟨d + 4, d + 5⟩⟩], ⟨d, d + 6⟩⟩,
      ⟨.entity ')', ⟨d + 6, d + 7⟩⟩]
    let err (d : UInt32) : PatternError := .lex ⟨.invalidDecimalDigits, ⟨d + 5, d + 6⟩⟩
    lex a = .ok ta
      ∧ ((a ++ b).utf8ByteSize < UInt32.size ∧ b.toList.head? ≠ some '?'
        ∧ b.toList.head? ≠ some '*' ∧ b.toList.head? ≠ some '+'
        ∧ lex b = .ok (tb 0) ∧ lex (a ++ b) = .ok (ta ++ tb 3))
      ∧ (a ++ bad).utf8ByteSize < UInt32.size ∧ bad.toList.head? ≠ some '?'
        ∧ bad.toList.head? ≠ some '*' ∧ bad.toList.head? ≠ some '+'
        ∧ lex bad = .error (err 0) ∧ lex (a ++ bad) = .error (err 3) := by
  intro a b bad ta tb err
  have hatext : a.toList = ['é', '('] := by decide
  have hbtext : b.toList = ['[', 'é', '-', 'z', ']', ')'] := by decide
  have hbadtext : bad.toList = ['é', '\x7b', '1', ',', 'x', '\x7d'] := by decide
  have ha : lex a = .ok ta := by
    rw [lex, hatext]
    with_unfolding_all rfl
  have hb : lex b = .ok (tb 0) := by
    rw [lex, hbtext]
    with_unfolding_all rfl
  have hbad : lex bad = .error (err 0) := by
    rw [lex, hbadtext]
    with_unfolding_all rfl
  have hsize : (a ++ b).utf8ByteSize < UInt32.size := by decide
  have hbadSize : (a ++ bad).utf8ByteSize < UInt32.size := by decide
  have hlen : a.utf8ByteSize = 3 := by decide
  have hbheads : b.toList.head? ≠ some '?' ∧ b.toList.head? ≠ some '*'
      ∧ b.toList.head? ≠ some '+' := by
    rw [hbtext]
    decide
  have hbadHeads : bad.toList.head? ≠ some '?' ∧ bad.toList.head? ≠ some '*'
      ∧ bad.toList.head? ≠ some '+' := by
    rw [hbadtext]
    decide
  obtain ⟨hok, -⟩ := lex_concatenated hsize ha hbheads.1 fun _ _ _ => hbheads.2
  obtain ⟨-, herror⟩ := lex_concatenated hbadSize ha hbadHeads.1 fun _ _ _ => hbadHeads.2
  obtain ⟨e, he, hshifted, -⟩ := herror _ hbad
  obtain rfl := PatternError.lex.inj he
  rw [hlen] at hok hshifted
  exact ⟨ha, ⟨hsize, hbheads.1, hbheads.2.1, hbheads.2.2, hb, (hok _ hb).1⟩, hbadSize,
    hbadHeads.1, hbadHeads.2.1, hbadHeads.2.2, hbad, hshifted⟩

end Pattern

end Regexp
