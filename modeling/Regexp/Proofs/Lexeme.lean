import Regexp.Proofs.Lexing

/-!
# Lexemes

A lexeme is a text that is read as one token, whatever stands before and
behind it (`Token.Lexeme`). What a letter, a meta character or a
structuring character is rendered as is a lexeme.
-/

namespace Regexp

open Piece (placeFrom scan plain)

namespace Token

variable {c : Char}

/-! ## Lexemes -/

/-- The tokens of a text that starts at an offset. `afterOpen` says
whether an opening parenthesis stands right before it. -/
def lexFrom (afterOpen : Bool) (start : Nat) (s : List Char) : LexResult (List Token) :=
  lexPieces afterOpen (placeFrom start (scan s))

/-- **A lexeme**: whatever stands before and behind it, the text `s` is
read as one token, and the token satisfies `P`. -/
def Lexeme (s : List Char) (P : Token → Prop) : Prop :=
  ∀ afterOpen start rest, ∃ t, P t ∧ lexFrom afterOpen start (s ++ rest)
    = (lexFrom (t.isEntity '(') (start + Text.byteLength s) rest).map (t :: ·)

theorem Lexeme.imp {P Q : Token → Prop} {s : List Char} (h : Lexeme s P) (hPQ : ∀ t, P t → Q t) :
    Lexeme s Q := by
  intro afterOpen start rest
  obtain ⟨t, ht, hlex⟩ := h afterOpen start rest
  exact ⟨t, hPQ t ht, hlex⟩

/-- What the first piece of a text and those behind it are read as, if the
token ends where the text does. -/
theorem lexFrom_append {afterOpen : Bool} {start : Nat} {s rest : List Char} {p : Piece}
    {ps : List Piece} {t : Token} (hcut : scan (s ++ rest) = p :: ps)
    (hlex : lexOne afterOpen ⟨p, start⟩ (placeFrom (start + Text.byteLength p.text) ps)
      = .ok (t, placeFrom (start + Text.byteLength s) (scan rest))) :
    lexFrom afterOpen start (s ++ rest)
      = (lexFrom (t.isEntity '(') (start + Text.byteLength s) rest).map (t :: ·) := by
  unfold lexFrom
  rw [hcut, placeFrom, lexPieces_cons, hlex]

/-- A piece that is a token on its own is a lexeme. -/
theorem Lexeme.of_piece {P : Token → Prop} {p : Piece} {k : TokenKind Token}
    (hcut : ∀ rest, scan (p.text ++ rest) = p :: scan rest) (hP : ∀ span, P ⟨k, span⟩)
    (hlex : ∀ afterOpen start ps, lexOne afterOpen ⟨p, start⟩ ps
      = .ok (⟨k, PlacedPiece.span ⟨p, start⟩⟩, ps)) : Lexeme p.text P := by
  intro afterOpen start rest
  exact ⟨⟨k, PlacedPiece.span ⟨p, start⟩⟩, hP _, lexFrom_append (hcut rest) (hlex _ _ _)⟩

theorem scan_plain_append (hc : c ≠ '\\') (hop : Operator.ofChar? c = none) (rest : List Char) :
    scan ((plain c).text ++ rest) = plain c :: scan rest := by
  show scan (c :: rest) = _
  rw [Piece.scan_plain hc hop]

theorem scan_escape_append (hc : c ≠ 'u') (rest : List Char) :
    scan ((Piece.escape c).text ++ rest) = .escape c :: scan rest := by
  show scan ('\\' :: c :: rest) = _
  rw [Piece.scan_cons, Piece.cut_escape hc]

theorem scan_unicodeEscape_append {digits : List Char} (h : '\x7d' ∉ digits) (rest : List Char) :
    scan ((Piece.unicodeEscape digits).text ++ rest) = .unicodeEscape digits :: scan rest := by
  have htext : (Piece.unicodeEscape digits).text ++ rest
      = '\\' :: 'u' :: '\x7b' :: (digits ++ '\x7d' :: rest) := by
    show '\\' :: 'u' :: '\x7b' :: (digits ++ ['\x7d'] ++ rest) = _
    rw [List.append_assoc]
    rfl
  rw [htext, Piece.scan_cons, Piece.cut_unicodeEscape h]

/-- The first plain piece is found where the first text ends. -/
theorem splitAt?_placeFrom {close : Char} {ps qs : List Piece} (h : ∀ p ∈ ps, p ≠ plain close)
    (start : Nat) :
    PlacedPiece.splitAt? close (placeFrom start (ps ++ plain close :: qs))
      = some (placeFrom start ps, ⟨plain close, start + Text.byteLength (ps.flatMap Piece.text)⟩,
        placeFrom (start + Text.byteLength (ps.flatMap Piece.text) + Text.byteLength [close])
          qs) := by
  induction ps generalizing start with
  | nil => exact if_pos rfl
  | cons p ps ih =>
    obtain ⟨hp, hps⟩ := List.forall_mem_cons.1 h
    rw [List.cons_append, placeFrom, PlacedPiece.splitAt?, if_neg hp, ih hps, List.flatMap_cons,
      Text.byteLength_append, ← Nat.add_assoc, placeFrom]
    rfl

/-! ## Letters and meta characters -/

/-- The escape of a letter that a pattern can write reads back. -/
theorem ofUnicodeEscape_write {codePoint : UInt32} {width : Nat}
    (h : (Letter.unicode codePoint width).IsWritten) (p : PlacedPiece) :
    ofUnicodeEscape p (Numeral.write 16 width codePoint.toNat)
      = .ok ⟨.unicode codePoint width, p.span⟩ := by
  have hle : codePoint.toNat ≤ 0x10ffff := by
    obtain ⟨-, h⟩ | ⟨-, h⟩ := h
    · exact Nat.le_trans (UInt32.le_iff_toNat_le.1 h) (by decide)
    · exact UInt32.le_iff_toNat_le.1 h
  have hlen : (Numeral.write 16 width codePoint.toNat).length = width := by
    obtain ⟨rfl, h⟩ | ⟨rfl, h⟩ := h
    · exact Numeral.length_write (by decide) (by decide)
        (Nat.lt_of_le_of_lt (UInt32.le_iff_toNat_le.1 h) (by decide))
    · exact Numeral.length_write (by decide) (by decide)
        (Nat.lt_of_le_of_lt (UInt32.le_iff_toNat_le.1 h) (by decide))
  have hwidth : isEscapeWidth width = true := by
    obtain ⟨rfl, -⟩ | ⟨rfl, -⟩ := h <;> rfl
  unfold ofUnicodeEscape
  rw [hlen, if_pos hwidth, Numeral.read_write (by decide) (by decide)]
  dsimp only
  rw [if_pos hle, Nat.toUInt32_eq, UInt32.ofNat_toNat]

theorem brace_notMem_write (width n : Nat) : '\x7d' ∉ Numeral.write 16 width n := by
  intro h
  obtain ⟨d, hd⟩ := Numeral.exists_digit?_of_mem
    (Numeral.value?_write (by decide) (by decide) width n) _ h
  cases hd

theorem ofChar?_eq_none (h : reservedChars.contains c = false) : Operator.ofChar? c = none := by
  unfold Operator.ofChar?
  split
  · cases h
  · cases h
  · cases h
  · rfl

/-- What does not need an escape stands for itself. -/
theorem lexOne_plain (h : reservedChars.contains c = false) (afterOpen : Bool) (start : Nat)
    (ps : List PlacedPiece) : lexOne afterOpen ⟨plain c, start⟩ ps
      = .ok (⟨.char c, PlacedPiece.span ⟨plain c, start⟩⟩, ps) := by
  have hne : ∀ d ∈ reservedChars, c ≠ d := by
    rintro d hd rfl
    rw [List.contains_iff_mem.2 hd] at h
    cases h
  unfold lexOne
  dsimp only
  rw [if_neg (hne '[' (by decide)), if_neg (hne '\x7b' (by decide)), if_neg,
    if_neg (hne '.' (by decide))]
  simp only [Bool.or_eq_true, decide_eq_true_eq, not_or]
  exact ⟨⟨hne '(' (by decide), hne ')' (by decide)⟩, hne '|' (by decide)⟩

theorem ofEscape_escapable {inSet : Bool} (h : c ∈ escapableChars) (p : PlacedPiece) :
    ofEscape inSet p c = .ok ⟨.char c, p.span⟩ := by
  unfold ofEscape
  rw [List.contains_iff_mem.2 h, Bool.true_or, if_pos rfl]

/-- What is written with a backslash is just what is read behind one. -/
theorem reservedChars_eq : reservedChars = escapableChars := rfl

/-- The letter of a meta character is not reserved. -/
theorem ofEscape_metaChar {m : MetaChar} (inSet : Bool) (h : m.escape? = some c) (p : PlacedPiece) :
    ofEscape inSet p c = .ok ⟨.metaChar m, p.span⟩ := by
  cases m <;> cases h <;> cases inSet <;> rfl

/-- How a literal letter is written outside a set. -/
theorem render_literal (c : Char) : (Letter.literal c).render
    = if reservedChars.contains c then ['\\', c] else [c] := rfl

theorem escape_ne_u {m : MetaChar} (h : m.escape? = some c) : c ≠ 'u' := by
  rintro rfl
  cases m <;> cases h

/-- **A letter is a lexeme.** -/
theorem lexeme_letter {a : Letter} (ha : a.IsWritten) : Lexeme a.render (·.letter? = some a) := by
  cases a with
  | literal c =>
    rw [render_literal]
    by_cases hc : reservedChars.contains c = true
    · rw [if_pos hc]
      have hu : c ≠ 'u' := by
        rintro rfl
        cases hc
      refine Lexeme.of_piece (p := .escape c) (k := .char c) (scan_escape_append hu) (fun _ => rfl)
        fun afterOpen start ps => ?_
      show (ofEscape false _ c).map (·, ps) = _
      rw [ofEscape_escapable (reservedChars_eq ▸ List.contains_iff_mem.1 hc)]
      rfl
    · rw [if_neg hc]
      have hc := Bool.of_not_eq_true hc
      have hne : c ≠ '\\' := by
        rintro rfl
        cases hc
      exact Lexeme.of_piece (scan_plain_append hne (ofChar?_eq_none hc)) (fun _ => rfl)
        fun afterOpen start ps => lexOne_plain hc afterOpen start ps
  | unicode codePoint width =>
    refine Lexeme.of_piece (k := .unicode codePoint width)
      (scan_unicodeEscape_append (brace_notMem_write _ _)) (fun _ => rfl)
      fun afterOpen start ps => ?_
    show (ofUnicodeEscape _ _).map (·, ps) = _
    rw [ofUnicodeEscape_write ha]
    rfl

/-- **A meta character is a lexeme.** -/
theorem lexeme_metaChar (m : MetaChar) : Lexeme m.render (·.kind = .metaChar m) := by
  unfold MetaChar.render
  cases hm : m.escape? with
  | none =>
    obtain rfl : m = .dot := by cases m <;> first | rfl | cases hm
    exact Lexeme.of_piece (p := plain '.') (scan_plain_append (by decide) rfl) (fun _ => rfl)
      fun afterOpen start ps => rfl
  | some c =>
    refine Lexeme.of_piece (p := .escape c) (scan_escape_append (escape_ne_u hm)) (fun _ => rfl)
      fun afterOpen start ps => ?_
    show (ofEscape false _ c).map (·, ps) = _
    rw [ofEscape_metaChar false hm]
    rfl

/-- **A structuring character is a lexeme.** -/
theorem lexeme_entity (hc : c = '(' ∨ c = ')' ∨ c = '|') : Lexeme [c] (·.isEntity c = true) := by
  obtain rfl | rfl | rfl := hc
  · exact Lexeme.of_piece (p := plain '(') (scan_plain_append (by decide) rfl) (fun _ => rfl)
      fun afterOpen start ps => rfl
  · exact Lexeme.of_piece (p := plain ')') (scan_plain_append (by decide) rfl) (fun _ => rfl)
      fun afterOpen start ps => rfl
  · exact Lexeme.of_piece (p := plain '|') (scan_plain_append (by decide) rfl) (fun _ => rfl)
      fun afterOpen start ps => rfl

end Token

end Regexp
