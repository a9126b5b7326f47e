import Regexp.Proofs.RoundTrip

/-!
# Texts that are not read back

An escape of width zero is rendered with as few digits as possible. If
these are neither four nor six, it is malformed where it is read again
(`Letter.IsShort`).

A malformed text is one that reading stops at, wherever it stands
(`Token.Malformed`). It stays malformed in front of any text, and behind
any text that is read. In a set the items in front of the escape have to
be read as well, and the brackets have to be found, which is why all
items of the set matter (`Token.malformed_set`).
-/

namespace Regexp

open Piece (placeFrom scan singles single plain)

/-- **The code point is short**: as few digits as possible are neither
four nor six. -/
def Letter.IsShort (codePoint : UInt32) : Prop :=
  isEscapeWidth (Numeral.write 16 0 codePoint.toNat).length = false

/-! ## Items that break off -/

namespace CharSet

variable {is js : List SetItem}

/-- **The items break off**: behind some that a pattern can write stands
the escape of a short code point. -/
inductive BreaksOff : List SetItem → Prop where
  /-- The escape is in front. -/
  | short {p : UInt32} {is : List SetItem} (h : Letter.IsShort p) :
      BreaksOff (.member (.letter (.ofCodePoint p)) :: is)
  /-- An item in front of those that break off. -/
  | cons {i : SetItem} {is : List SetItem} (hi : i.IsWritten) (h : BreaksOff is) :
      BreaksOff (i :: is)

theorem BreaksOff.append (h : BreaksOff is) (js : List SetItem) : BreaksOff (is ++ js) := by
  induction h with
  | short h => exact .short h
  | cons hi _ ih => exact .cons hi ih

theorem BreaksOff.behind (h : BreaksOff js) (his : ∀ i ∈ is, i.IsWritten) :
    BreaksOff (is ++ js) := by
  induction is with
  | nil => exact h
  | cons i is ih =>
    obtain ⟨hi, his⟩ := List.forall_mem_cons.1 his
    exact .cons hi (ih his)

theorem BreaksOff.ne_nil (h : BreaksOff is) : is ≠ [] := by
  rintro rfl
  cases h

end CharSet

namespace Token

variable {s s' : List Char} {p : Piece} {codePoint : UInt32} {is : List SetItem}

/-! ## Malformed texts -/

/-- The outcome is that a unicode escape is malformed. -/
def IsMalformed {α : Type} (r : LexResult α) : Prop :=
  ∃ span, r = .error ⟨.malformedUnicodeEscape, span⟩

theorem IsMalformed.map {α β : Type} {r : LexResult α} (h : IsMalformed r) (f : α → β) :
    IsMalformed (r.map f) := by
  obtain ⟨span, rfl⟩ := h
  exact ⟨span, rfl⟩

/-- **The text is malformed**: whatever stands before it and whatever
follows, a unicode escape in it is the first fault. -/
def Malformed (s : List Char) : Prop :=
  ∀ afterOpen start rest, IsMalformed (lexFrom afterOpen start (s ++ rest))

theorem Malformed.append (h : Malformed s) (s' : List Char) : Malformed (s ++ s') := by
  intro afterOpen start rest
  rw [List.append_assoc]
  exact h afterOpen start (s' ++ rest)

/-- On its own the text is not read. -/
theorem Malformed.lex (h : Malformed s) : IsMalformed (lex s) := by
  have halone := h false 0 []
  rwa [List.append_nil] at halone

/-- The first token decides. -/
theorem malformed_of_lexOne {afterOpen : Bool} {start : Nat} {ps : List Piece}
    (hcut : scan s = p :: ps)
    (hlex : IsMalformed (lexOne afterOpen ⟨p, start⟩
      (placeFrom (start + Text.byteLength p.text) ps))) :
    IsMalformed (lexFrom afterOpen start s) := by
  obtain ⟨span, hlex⟩ := hlex
  refine ⟨span, ?_⟩
  unfold lexFrom
  rw [hcut, placeFrom, lexPieces_cons, hlex]

/-- A lexeme in front is read. -/
theorem Lexeme.malformed {P : Token → Prop} (h : Lexeme s P) (h' : Malformed s') :
    Malformed (s ++ s') := by
  intro afterOpen start rest
  obtain ⟨t, -, hlex⟩ := h afterOpen start (s' ++ rest)
  rw [List.append_assoc, hlex]
  exact (h' _ _ rest).map _

/-! ## Escapes and sets -/

theorem isMalformed_ofUnicodeEscape (h : Letter.IsShort codePoint) (p : PlacedPiece) :
    IsMalformed (ofUnicodeEscape p (Numeral.write 16 0 codePoint.toNat)) := by
  refine ⟨p.span, ?_⟩
  unfold ofUnicodeEscape
  rw [h]
  rfl

/-- **The escape of a short code point is malformed.** -/
theorem malformed_letter (h : Letter.IsShort codePoint) :
    Malformed (Letter.ofCodePoint codePoint).render := by
  intro afterOpen start rest
  exact malformed_of_lexOne (scan_unicodeEscape_append (brace_notMem_write _ _) rest)
    ((isMalformed_ofUnicodeEscape h _).map _)

/-- Items that break off are not read. -/
theorem isMalformed_ofMembers (h : CharSet.BreaksOff is) (first : Bool) (start : Nat) :
    IsMalformed (ofMembers first (placeFrom start (singles (CharSet.renderItems first is)))) := by
  induction h generalizing first start with
  | @short p is h =>
    obtain ⟨span, hspan⟩ := (isMalformed_ofUnicodeEscape h ⟨.unicodeEscape _, start⟩).map ([·])
    refine ⟨span, ?_⟩
    show ofMembers first (placeFrom start (singles (Letter.renderEscape p 0 ++ _))) = _
    rw [singles_renderEscape, placeFrom]
    unfold ofMembers ofMember
    dsimp only
    rw [hspan]
  | @cons i is hi h ih =>
    have hlast : is.isEmpty = true → CharSet.renderItems false is = [] :=
      fun hempty => absurd (List.isEmpty_iff.1 hempty) h.ne_nil
    obtain ⟨ts, stop, -, hread⟩ := ofMembers_renderItem hi first hlast start
    show IsMalformed (ofMembers first (placeFrom start
      (singles (CharSet.renderItem first is.isEmpty i ++ CharSet.renderItems false is))))
    rw [hread]
    exact (ih false stop).map _

/-- A circumflex in front does not matter. -/
theorem isMalformed_ofSetInterior {cs : CharSet} (h : CharSet.BreaksOff cs.items) (start : Nat) :
    IsMalformed (ofSetInterior (placeFrom start
      (scan ((if cs.negative then ['^'] else []) ++ CharSet.renderItems true cs.items)))) := by
  match cs with
  | ⟨is, false⟩ =>
    show IsMalformed (ofSetInterior (placeFrom start (scan (CharSet.renderItems true is))))
    rw [ofSetInterior_placeFrom (head?_renderItems_ne is)]
    exact isMalformed_ofMembers h true start
  | ⟨is, true⟩ =>
    show IsMalformed (ofSetInterior (placeFrom start (scan ('^' :: CharSet.renderItems true is))))
    rw [ofSetInterior_scan_circumflex]
    exact (isMalformed_ofMembers h true _).map _

/-- **A set whose items break off is malformed.** -/
theorem malformed_set {cs : CharSet} (h : CharSet.BreaksOff cs.items)
    (hdot : ∀ i ∈ cs.items, i ≠ .metaChar .dot) : Malformed cs.render := by
  intro afterOpen start rest
  have hscan := forall_isInner_interior (forall_isInner_renderItems true hdot)
  have hset := lexSet_eq hscan start rest
  obtain ⟨span, hspan⟩ := (isMalformed_ofSetInterior h (start + Text.byteLength ['['])).map _
  exact malformed_of_lexOne (scan_brackets hscan rest) ⟨span, hset.trans hspan⟩

end Token

end Regexp
