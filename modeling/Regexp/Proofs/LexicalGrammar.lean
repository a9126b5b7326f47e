import Regexp.Proofs.QuantifierRendering
import Regexp.Proofs.SetRendering
import Regexp.Proofs.Tiling

/-!
# The lexical grammar

Which texts can be read as tokens at all? Those that fall into lexemes
(`Pattern.exists_lex_eq_ok_iff`). A lexeme is a character, an escape, a
text between brackets or bounds between braces, and what it is does not
depend on what stands around it (`Lexical.IsLexeme`).

The lexer does not work lexeme by lexeme. It cuts the pattern into pieces
without regard to context and then reads a token off one or several of
them. Two lexemes may share a piece, an operator and a question mark, and
a token may take two lexemes, a quantifier and the question mark that
makes it lazy. With operators taken apart (`Piece.singles`) the pieces of
a lexeme are its own, whatever follows.

That a text falls into lexemes if it is read follows from its tiling.
-/

namespace Regexp

open Piece (placeFrom scan singles single plain)

namespace Lexical

/-- The letters that make a meta character behind a backslash. -/
def metaLetters : List Char :=
  ['f', 'r', 'n', 't', 'v', '0', 'b', 's', 'S', 'w', 'W', 'd', 'D']

/-- **An escape**: a backslash with a special character or a letter, or
a code point of four or six characters. Inside a set a dash may be escaped
too. -/
inductive IsEscape (inSet : Bool) : List Char → Prop where
  /-- A character behind a backslash. -/
  | char {c : Char} (h : c ∈ Token.specialChars ∨ c ∈ metaLetters ∨ inSet = true ∧ c = '-') :
      IsEscape inSet ['\\', c]
  /-- A code point. -/
  | unicode {digits : List Char} {n : Nat} (hlen : digits.length = 4 ∨ digits.length = 6)
      (h : Numeral.Spells 16 digits n) (hle : n ≤ 0x10ffff) :
      IsEscape inSet ('\\' :: 'u' :: '\x7b' :: (digits ++ ['\x7d']))

/-- **What may stand between brackets**: characters other than the closing
bracket and the backslash, and escapes. -/
inductive IsSetText : List Char → Prop where
  /-- Nothing. -/
  | nil : IsSetText []
  /-- A character in front. -/
  | char {c : Char} {s : List Char} (hclose : c ≠ ']') (hback : c ≠ '\\') (h : IsSetText s) :
      IsSetText (c :: s)
  /-- An escape in front. -/
  | escape {u s : List Char} (hu : IsEscape true u) (h : IsSetText s) : IsSetText (u ++ s)

/-- **A bound**: decimal digits of a number less than `2 ^ 32`, and blanks
behind them. -/
def IsBound (s : List Char) : Prop :=
  ∃ n < UInt32.size, Numeral.Spells 10 s n

/-- **What may stand between braces.** -/
inductive IsBounds : List Char → Prop where
  /-- One bound. -/
  | exactly {s : List Char} (h : IsBound s) : IsBounds s
  /-- A bound and a comma. -/
  | atLeast {s : List Char} (h : IsBound s) : IsBounds (s ++ [','])
  /-- Two bounds with a comma between. -/
  | between {s s' : List Char} (h : IsBound s) (h' : IsBound s') : IsBounds (s ++ ',' :: s')

/-- **A lexeme.** -/
inductive IsLexeme : List Char → Prop where
  /-- A character that opens nothing. -/
  | char {c : Char} (h : c ∉ ['\\', '[', '\x7b']) : IsLexeme [c]
  /-- An escape. -/
  | escape {u : List Char} (h : IsEscape false u) : IsLexeme u
  /-- A set. -/
  | set {s : List Char} (h : IsSetText s) : IsLexeme ('[' :: (s ++ [']']))
  /-- A bounded quantifier. -/
  | bounds {s : List Char} (h : IsBounds s) : IsLexeme ('\x7b' :: (s ++ ['\x7d']))

/-! ## What is read falls into lexemes -/

theorem mem_metaLetters_iff {c : Char} : c ∈ metaLetters ↔ ∃ m : MetaChar, m.escape? = some c := by
  constructor
  · intro h
    have hall : metaLetters.all (fun c => (MetaChar.ofEscape? c).isSome) = true := by decide
    obtain ⟨m, hm⟩ := Option.isSome_iff_exists.1 (List.all_eq_true.1 hall c h)
    exact ⟨m, MetaChar.ofEscape?_eq_some_iff.1 hm⟩
  · rintro ⟨m, hm⟩
    cases m <;> cases hm <;> decide

variable {At : Span → Nat → Nat → Prop} {inSet : Bool} {start : Nat} {u s t : List Char}
variable {k : TokenKind Token} {ts : List Token} {c : Char} {us : List (List Char)}

/-- Behind a backslash a single character is an escape. -/
theorem isEscape_of_glyph (h : Token.Glyph inSet u k) :
    IsEscape inSet u ∨ ∃ c, u = [c] ∧ (Token.IsBare inSet c ∨ Token.IsStructure inSet c) := by
  cases h with
  | bare h => exact .inr ⟨_, rfl, .inl h⟩
  | escaped h => exact .inl (.char (h.imp_right .inr))
  | metaChar h => exact .inl (.char (.inr (.inl (mem_metaLetters_iff.2 ⟨_, h⟩))))
  | unicode hlen h hle => exact .inl (.unicode hlen h (UInt32.le_iff_toNat_le.1 hle))
  | «structure» h => exact .inr ⟨_, rfl, .inr h⟩

theorem isLexeme_of_glyph (h : Token.Glyph false u k) : IsLexeme u := by
  have hbare : ∀ c ∈ ['\\', '[', '\x7b'],
      c ∈ ['\\', '[', '\x7b', '(', ')', '|', '.', '*', '+', '?'] := by simp
  have hstructure : ∀ c ∈ ['(', ')', '|', '*', '+', '?'], c ∉ ['\\', '[', '\x7b'] := by simp
  obtain h | ⟨c, rfl, h | h⟩ := isEscape_of_glyph h
  · exact .escape h
  · exact .char fun hc => h (hbare c hc)
  · exact .char (hstructure c h)

/-- What the members of a set tile may stand between brackets. -/
theorem isSetText_of_tiles (h : Token.Tiles At (fun _ => Token.Glyph true) start s ts) :
    IsSetText s := by
  have hstructure : ∀ c ∈ ['^', '-'], c ∉ ['\\', ']'] := by simp
  induction h with
  | nil => exact .nil
  | cons _ _ hkind _ ih =>
    obtain hu | ⟨c, rfl, hc⟩ := isEscape_of_glyph hkind
    · exact .escape hu ih
    · have hne : c ∉ ['\\', ']'] := hc.elim id (hstructure c)
      rw [List.mem_cons, List.mem_singleton, not_or] at hne
      exact .char hne.2 hne.1 ih

theorem isBound_of_spells {n : UInt32} (h : Numeral.Spells 10 s n.toNat) : IsBound s :=
  ⟨n.toNat, n.toNat_lt, h⟩

/-- How a count is written is a lexeme. -/
theorem isLexeme_of_writtenAs {count : Count} (h : count.WrittenAs u) : IsLexeme u := by
  cases h with
  | zeroOrOne => exact .char (by decide)
  | oneOrMore => exact .char (by decide)
  | zeroOrMore => exact .char (by decide)
  | exactly h => exact .bounds (.exactly (isBound_of_spells h))
  | @atLeast s n h =>
    have hbounds := IsLexeme.bounds (.atLeast (isBound_of_spells h))
    rwa [List.append_assoc] at hbounds
  | @between s s' m n h h' =>
    have hbounds := IsLexeme.bounds (.between (isBound_of_spells h) (isBound_of_spells h'))
    rwa [List.append_assoc] at hbounds

/-- The slice of a token falls into lexemes: a quantifier that is lazy
into two, any other one is a lexeme. -/
theorem exists_flatten_of_slice (h : Token.Slice At start u k) :
    ∃ us : List (List Char), (∀ v ∈ us, IsLexeme v) ∧ us.flatten = u := by
  have single {v : List Char} (hv : IsLexeme v) :
      ∃ us : List (List Char), (∀ w ∈ us, IsLexeme w) ∧ us.flatten = v :=
    ⟨[v], List.forall_mem_singleton.2 hv, List.flatten_singleton⟩
  cases h with
  | glyph h => exact single (isLexeme_of_glyph h)
  | dot => exact single (.char (by decide))
  | set h => exact single (.set (isSetText_of_tiles h))
  | @quantity v q h =>
    have hv := isLexeme_of_writtenAs h
    cases hgreedy : q.greedy with
    | true => exact single (by rwa [Token.lazyMark, if_pos rfl, List.append_nil])
    | false =>
      refine ⟨[v, ['?']], List.forall_mem_cons.2 ⟨hv, ?_⟩, rfl⟩
      exact List.forall_mem_singleton.2 (.char (by decide))

/-- **What tokens tile falls into lexemes.** -/
theorem exists_flatten_of_tiles (h : Token.Tiles At (Token.Slice At) start s ts) :
    ∃ us : List (List Char), (∀ u ∈ us, IsLexeme u) ∧ us.flatten = s := by
  induction h with
  | nil => exact ⟨[], nofun, rfl⟩
  | cons _ _ hkind _ ih =>
    obtain ⟨vs, hvs, rfl⟩ := exists_flatten_of_slice hkind
    obtain ⟨us, hus, rfl⟩ := ih
    exact ⟨vs ++ us, List.forall_mem_append.2 ⟨hvs, hus⟩, List.flatten_append⟩

/-! ## The pieces of a lexeme -/

/-- The character as a piece of its own. -/
def ofChar (c : Char) : Piece :=
  match Operator.ofChar? c with
  | some op => .operator op false
  | none => plain c

theorem eq_char_of_ofChar {op : Operator} (h : ofChar c = .operator op false) : c = op.char := by
  unfold ofChar at h
  split at h
  next op' hop =>
    obtain ⟨rfl, -⟩ := Piece.operator.inj h
    exact (Piece.char_of_ofChar? hop).symm
  next => cases h

theorem singles_cons (hc : c ≠ '\\') (s : List Char) :
    singles (c :: s) = ofChar c :: singles s := by
  unfold ofChar
  split
  next op hop =>
    obtain rfl := Piece.char_of_ofChar? hop
    exact Piece.singles_operator op s
  next hop => exact Piece.singles_plain hc hop s

/-- **The piece of an escape**, which is read wherever it stands. -/
def IsEscapePiece (inSet : Bool) : Piece → Prop
  | .escape c => ∀ p, ∃ t, Token.ofEscape inSet p c = .ok t
  | .unicodeEscape digits => ∀ p, ∃ t, Token.ofUnicodeEscape p digits = .ok t
  | _ => False

/-- A bound holds digits and blanks only. -/
theorem ne_of_mem_of_spells {base n : Nat} {d : Char} (h : Numeral.Spells base s n)
    (hdigit : Numeral.digit? base d = none) (hblank : d ≠ ' ') : ∀ c ∈ s, c ≠ d := by
  obtain ⟨digits, k, rfl, -, hvalue⟩ := Numeral.spells_iff.1 h
  intro c hc
  obtain hc | hc := List.mem_append.1 hc
  · rintro rfl
    obtain ⟨e, he⟩ := Numeral.exists_digit?_of_mem hvalue c hc
    rw [hdigit] at he
    cases he
  · rw [List.eq_of_mem_replicate hc]
    exact hblank.symm

/-- **An escape is one piece**, whatever follows. -/
theorem exists_piece_of_isEscape (h : IsEscape inSet u) :
    ∃ p, IsEscapePiece inSet p ∧ ∀ s, singles (u ++ s) = p :: singles s := by
  cases h with
  | @char c h =>
    have hc : c ≠ 'u' := by
      rintro rfl
      revert h
      cases inSet <;> decide
    refine ⟨.escape c, fun p => ?_, Piece.singles_escape hc⟩
    obtain h | h | ⟨rfl, rfl⟩ := h
    · exact ⟨_, Token.ofEscape_escapable (Token.specialChars_eq ▸ h) p⟩
    · obtain ⟨m, hm⟩ := mem_metaLetters_iff.1 h
      exact ⟨_, Token.ofEscape_metaChar inSet hm p⟩
    · exact ⟨_, rfl⟩
  | @unicode digits n hlen h hle =>
    refine ⟨.unicodeEscape digits, fun p => ?_, fun s => ?_⟩
    · have hwidth : isEscapeWidth digits.length = true := by
        rwa [isEscapeWidth, Bool.or_eq_true, beq_iff_eq, beq_iff_eq]
      unfold Token.ofUnicodeEscape
      rw [if_pos hwidth, Numeral.read_eq_ok_iff.2 h]
      exact ⟨_, if_pos hle⟩
    · have hbrace : '\x7d' ∉ digits := fun hmem => ne_of_mem_of_spells h rfl (by decide) _ hmem rfl
      have hcut := Piece.singles_unicodeEscape hbrace s
      rwa [List.cons_append, List.cons_append, List.cons_append, List.append_assoc]

/-- A piece that may stand between brackets and is read wherever it stands
there. -/
def IsSetPiece (p : Piece) : Prop :=
  p ≠ plain ']' ∧ ∀ inner start, ∃ ts, Token.ofMember inner ⟨p, start⟩ = .ok ts

theorem isSetPiece_of_isEscapePiece {p : Piece} (h : IsEscapePiece true p) : IsSetPiece p := by
  cases p with
  | escape c =>
    refine ⟨nofun, fun inner start => ?_⟩
    obtain ⟨t, ht⟩ := h ⟨.escape c, start⟩
    exact ⟨[t], map_eq_ok_iff.2 ⟨t, ht, rfl⟩⟩
  | unicodeEscape digits =>
    refine ⟨nofun, fun inner start => ?_⟩
    obtain ⟨t, ht⟩ := h ⟨.unicodeEscape digits, start⟩
    exact ⟨[t], map_eq_ok_iff.2 ⟨t, ht, rfl⟩⟩
  | backslash => exact h.elim
  | operator _ _ => exact h.elim
  | plain _ => exact h.elim

theorem isSetPiece_operator (op : Operator) (isLazy : Bool) :
    IsSetPiece (.operator op isLazy) := by
  refine ⟨nofun, fun inner start => ?_⟩
  cases isLazy <;> exact ⟨_, rfl⟩

theorem isSetPiece_ofChar (hc : c ≠ ']') : IsSetPiece (ofChar c) := by
  unfold ofChar
  split
  next op hop => exact isSetPiece_operator op false
  next hop => exact ⟨fun h => hc (Piece.plain.inj h), fun inner start => ⟨_, rfl⟩⟩

/-- **The pieces between brackets** are cut as if nothing followed. -/
theorem singles_append_of_isSetText (h : IsSetText s) (t : List Char) :
    singles (s ++ t) = singles s ++ singles t := by
  induction h with
  | nil =>
    rw [Piece.singles_nil]
    rfl
  | char _ hback _ ih => rw [List.cons_append, singles_cons hback, singles_cons hback, ih]; rfl
  | escape hu _ ih =>
    obtain ⟨p, -, hcut⟩ := exists_piece_of_isEscape hu
    rw [List.append_assoc, hcut, hcut, ih]
    rfl

theorem isSetPiece_of_mem_singles (h : IsSetText s) : ∀ p ∈ singles s, IsSetPiece p := by
  induction h with
  | nil =>
    rw [Piece.singles_nil]
    exact nofun
  | char hclose hback _ ih =>
    rw [singles_cons hback]
    exact List.forall_mem_cons.2 ⟨isSetPiece_ofChar hclose, ih⟩
  | escape hu _ ih =>
    obtain ⟨p, hp, hcut⟩ := exists_piece_of_isEscape hu
    rw [hcut]
    exact List.forall_mem_cons.2 ⟨isSetPiece_of_isEscapePiece hp, ih⟩

/-- Characters that are no operators and no backslashes are pieces. -/
theorem singles_append_of_plain (h : ∀ c ∈ s, c ≠ '\\' ∧ Operator.ofChar? c = none)
    (t : List Char) : singles (s ++ t) = s.map plain ++ singles t := by
  have hsingle : (s.map plain).flatMap single = s.map plain := by
    rw [List.flatMap_map, List.map_eq_flatMap]
    rfl
  unfold singles
  rw [Piece.scan_append_of_plain h, List.flatMap_append, hsingle]

/-! ## Bounds -/

theorem readBound_of_spells {n : UInt32} (h : Numeral.Spells 10 s n.toNat) (start : Nat) :
    Token.readBound start s = .ok n := by
  unfold Token.readBound
  rw [Numeral.read_eq_ok_iff.2 h]
  dsimp only
  rw [if_pos n.toNat_lt, Nat.toUInt32_eq, UInt32.ofNat_toNat]

/-- A bound spells a number of 32 bits. -/
theorem IsBound.exists_spells (h : IsBound s) : ∃ n : UInt32, Numeral.Spells 10 s n.toNat := by
  obtain ⟨n, hn, hspells⟩ := h
  refine ⟨n.toUInt32, ?_⟩
  rwa [Nat.toUInt32_eq, UInt32.toNat_ofNat_of_lt' hn]

theorem IsBound.ne_nil (h : IsBound s) : s ≠ [] := by
  obtain ⟨n, -, digits, ds, k, rfl, hne, -⟩ := h
  exact List.append_ne_nil_of_left_ne_nil hne _

theorem IsBound.ne_of_mem {d : Char} (h : IsBound s) (hdigit : Numeral.digit? 10 d = none)
    (hblank : d ≠ ' ') : ∀ c ∈ s, c ≠ d := by
  obtain ⟨n, -, hspells⟩ := h
  exact ne_of_mem_of_spells hspells hdigit hblank

theorem IsBounds.ne_of_mem {d : Char} (h : IsBounds s) (hdigit : Numeral.digit? 10 d = none)
    (hblank : d ≠ ' ') (hcomma : d ≠ ',') : ∀ c ∈ s, c ≠ d := by
  cases h with
  | exactly h => exact h.ne_of_mem hdigit hblank
  | atLeast h =>
    exact List.forall_mem_append.2
      ⟨h.ne_of_mem hdigit hblank, List.forall_mem_singleton.2 hcomma.symm⟩
  | between h h' =>
    exact List.forall_mem_append.2 ⟨h.ne_of_mem hdigit hblank,
      List.forall_mem_cons.2 ⟨hcomma.symm, h'.ne_of_mem hdigit hblank⟩⟩

/-- Between braces bounds write a count. -/
theorem IsBounds.exists_writtenAs (h : IsBounds s) :
    ∃ count : Count, count.WrittenAs ('\x7b' :: (s ++ ['\x7d'])) := by
  cases h with
  | exactly h =>
    obtain ⟨n, hn⟩ := h.exists_spells
    exact ⟨_, .exactly hn⟩
  | atLeast h =>
    obtain ⟨n, hn⟩ := h.exists_spells
    rw [List.append_assoc]
    exact ⟨_, .atLeast hn⟩
  | between h h' =>
    obtain ⟨m, hm⟩ := h.exists_spells
    obtain ⟨n, hn⟩ := h'.exists_spells
    rw [List.append_assoc]
    exact ⟨_, .between hm hn⟩

/-- **What writes a count between braces** are bounds, and they are read
as that count. -/
theorem readCount_of_writtenAs {count : Count}
    (h : count.WrittenAs ('\x7b' :: (s ++ ['\x7d']))) :
    IsBounds s ∧ ∀ whole start, Token.readCount whole start s = .ok count := by
  have hne {s : List Char} {n : UInt32} (h : Numeral.Spells 10 s n.toNat) : s ≠ [] :=
    (isBound_of_spells h).ne_nil
  have hcomma {s : List Char} {n : UInt32} (h : Numeral.Spells 10 s n.toNat) : ∀ c ∈ s, c ≠ ',' :=
    (isBound_of_spells h).ne_of_mem rfl (by decide)
  generalize hu : '\x7b' :: (s ++ ['\x7d']) = u at h
  cases h with
  | zeroOrOne => cases hu
  | oneOrMore => cases hu
  | zeroOrMore => cases hu
  | @exactly s' n h =>
    obtain rfl : s = s' := List.append_cancel_right (List.cons.inj hu).2
    exact ⟨.exactly (isBound_of_spells h),
      fun _ _ => Token.readCount_bound (hne h) (hcomma h) (readBound_of_spells h _)⟩
  | @atLeast s' n h =>
    have htext : s ++ ['\x7d'] = s' ++ [','] ++ ['\x7d'] := by
      rw [List.append_assoc]
      exact (List.cons.inj hu).2
    obtain rfl := List.append_cancel_right htext
    exact ⟨.atLeast (isBound_of_spells h),
      fun _ _ => Token.readCount_comma (hne h) (hcomma h) (readBound_of_spells h _) []⟩
  | @between lower upper m n h h' =>
    have htext : s ++ ['\x7d'] = lower ++ ',' :: upper ++ ['\x7d'] := by
      rw [List.append_assoc]
      exact (List.cons.inj hu).2
    obtain rfl := List.append_cancel_right htext
    have hupper : upper.isEmpty = false :=
      Bool.eq_false_iff.2 fun he => hne h' (List.isEmpty_iff.1 he)
    refine ⟨.between (isBound_of_spells h) (isBound_of_spells h'), fun _ _ => ?_⟩
    rw [Token.readCount_comma (hne h) (hcomma h) (readBound_of_spells h _), hupper,
      readBound_of_spells h']
    rfl

/-- Bounds hold no operators and no backslashes. -/
theorem IsBounds.forall_plain (h : IsBounds s) : ∀ c ∈ s, c ≠ '\\' ∧ Operator.ofChar? c = none := by
  refine fun c hc => ⟨?_, Piece.ofChar?_eq_none_iff.2 fun op => ?_⟩
  · exact h.ne_of_mem rfl (by decide) (by decide) c hc
  · cases op <;> exact h.ne_of_mem rfl (by decide) (by decide) c hc

/-- **The pieces between braces** are cut as if nothing followed. -/
theorem singles_append_of_isBounds (h : IsBounds s) (t : List Char) :
    singles (s ++ t) = s.map plain ++ singles t :=
  singles_append_of_plain h.forall_plain t

/-! ## Pieces, cut together and apart -/

variable {p : Piece} {ps qs xs ys : List Piece} {op : Operator}

/-- A piece that is no operator is cut by itself. -/
theorem exists_of_flatMap_single_eq_cons (hp : ∀ op isLazy, p ≠ .operator op isLazy)
    (h : ps.flatMap single = p :: xs) : ∃ qs, ps = p :: qs ∧ qs.flatMap single = xs := by
  cases ps with
  | nil => cases h
  | cons q qs =>
    cases q with
    | operator op isLazy =>
      cases isLazy <;> exact (hp _ _ (List.cons.inj h).1.symm).elim
    | _ =>
      obtain ⟨rfl, hqs⟩ := List.cons.inj h
      exact ⟨qs, rfl, hqs⟩

/-- An operator may be cut together with a question mark behind it. -/
theorem exists_of_flatMap_single_eq_operator (h : ps.flatMap single = .operator op false :: xs) :
    ∃ qs, ps = .operator op false :: qs ∧ qs.flatMap single = xs
      ∨ ps = .operator op true :: qs ∧ xs = .operator .question false :: qs.flatMap single := by
  cases ps with
  | nil => cases h
  | cons q qs =>
    cases q with
    | operator op' isLazy =>
      cases isLazy with
      | false =>
        obtain ⟨hop, hqs⟩ := List.cons.inj h
        obtain ⟨rfl, -⟩ := Piece.operator.inj hop
        exact ⟨qs, .inl ⟨rfl, hqs⟩⟩
      | true =>
        obtain ⟨hop, hqs⟩ := List.cons.inj h
        obtain ⟨rfl, -⟩ := Piece.operator.inj hop
        exact ⟨qs, .inr ⟨rfl, hqs.symm⟩⟩
    | _ => cases (List.cons.inj h).1

/-- A plain piece is found where it is if operators are taken apart. -/
theorem exists_of_flatMap_single_eq_append (h : ps.flatMap single = xs ++ plain c :: ys) :
    ∃ is qs, ps = is ++ plain c :: qs ∧ is.flatMap single = xs ∧ qs.flatMap single = ys := by
  induction ps generalizing xs with
  | nil => cases xs <;> cases h
  | cons p ps ih =>
    rw [List.flatMap_cons] at h
    by_cases hfused : ∃ op, p = .operator op true
    · obtain ⟨op, rfl⟩ := hfused
      -- both halves stand before the plain piece
      match xs, h with
      | [], h => cases (List.cons.inj h).1
      | [_], h => cases (List.cons.inj (List.cons.inj h).2).1
      | _ :: _ :: xs, h =>
        obtain ⟨rfl, hmark⟩ := List.cons.inj h
        obtain ⟨rfl, hrest⟩ := List.cons.inj hmark
        obtain ⟨is, qs, rfl, rfl, rfl⟩ := ih hrest
        exact ⟨.operator op true :: is, qs, rfl, rfl, rfl⟩
    · have hsingle := Piece.single_of_ne fun op hop => hfused ⟨op, hop⟩
      rw [hsingle] at h
      match xs, h with
      | [], h =>
        obtain ⟨rfl, hrest⟩ := List.cons.inj h
        exact ⟨[], ps, rfl, rfl, hrest⟩
      | _ :: xs, h =>
        obtain ⟨rfl, hrest⟩ := List.cons.inj h
        obtain ⟨is, qs, rfl, rfl, rfl⟩ := ih hrest
        exact ⟨p :: is, qs, rfl, by rw [List.flatMap_cons, hsingle]; rfl, rfl⟩

/-- Pieces that are no operators are cut by themselves. -/
theorem eq_of_flatMap_single_eq_map (h : ps.flatMap single = s.map plain) : ps = s.map plain := by
  induction s generalizing ps with
  | nil =>
    cases ps with
    | nil => rfl
    | cons p ps =>
      cases p with
      | operator _ isLazy => cases isLazy <;> cases h
      | _ => cases h
  | cons c s ih =>
    obtain ⟨qs, rfl, hqs⟩ := exists_of_flatMap_single_eq_cons (p := plain c) nofun h
    rw [ih hqs]
    rfl

/-- Between brackets every piece is read if it is with operators taken
apart. -/
theorem forall_isSetPiece (h : ∀ p ∈ ps.flatMap single, IsSetPiece p) : ∀ p ∈ ps, IsSetPiece p := by
  intro p hp
  by_cases hfused : ∃ op, p = .operator op true
  · obtain ⟨op, rfl⟩ := hfused
    exact isSetPiece_operator op true
  · refine h p (List.mem_flatMap.2 ⟨p, hp, ?_⟩)
    rw [Piece.single_of_ne fun op hop => hfused ⟨op, hop⟩]
    exact List.mem_singleton_self p

/-! ## Reading lexemes -/

theorem exists_ofMembers (h : ∀ p ∈ ps, IsSetPiece p) (first : Bool) (start : Nat) :
    ∃ ts, Token.ofMembers first (placeFrom start ps) = .ok ts := by
  induction ps generalizing first start with
  | nil => exact ⟨[], rfl⟩
  | cons p ps ih =>
    obtain ⟨hp, hps⟩ := List.forall_mem_cons.1 h
    obtain ⟨us, hus⟩ := hp.2 (!first && !(placeFrom _ ps).isEmpty) start
    obtain ⟨vs, hvs⟩ := ih hps false (start + Text.byteLength p.text)
    refine ⟨us ++ vs, ?_⟩
    rw [placeFrom, Token.ofMembers_cons _ _ _ hus, hvs]
    rfl

theorem exists_ofSetInterior (h : ∀ p ∈ ps, IsSetPiece p) (start : Nat) :
    ∃ ts, Token.ofSetInterior (placeFrom start ps) = .ok ts := by
  unfold Token.ofSetInterior
  split
  next place qs heq =>
    cases ps with
    | nil => cases heq
    | cons p ps =>
      obtain ⟨-, rfl⟩ := List.cons.inj heq
      obtain ⟨ts, hts⟩ := exists_ofMembers (List.forall_mem_cons.1 h).2 true _
      exact ⟨_, map_eq_ok_iff.2 ⟨ts, hts, rfl⟩⟩
  next => exact exists_ofMembers h true start

/-! ## One lexeme -/

theorem ne_of_char (h : c ∉ ['\\', '[', '\x7b']) : c ≠ '\\' ∧ c ≠ '[' ∧ c ≠ '\x7b' := by
  simp only [List.mem_cons, List.not_mem_nil, or_false, not_or] at h
  exact h

theorem singles_set (h : IsSetText s) (t : List Char) : singles ('[' :: (s ++ [']']) ++ t)
    = plain '[' :: (singles s ++ plain ']' :: singles t) := by
  rw [List.cons_append, List.append_assoc, Piece.singles_plain (by decide) rfl,
    singles_append_of_isSetText h, List.singleton_append, Piece.singles_plain (by decide) rfl]

theorem singles_bounds (h : IsBounds s) (t : List Char) :
    singles ('\x7b' :: (s ++ ['\x7d']) ++ t)
      = plain '\x7b' :: (s.map plain ++ plain '\x7d' :: singles t) := by
  rw [List.cons_append, List.append_assoc, Piece.singles_plain (by decide) rfl,
    singles_append_of_isBounds h, List.singleton_append, Piece.singles_plain (by decide) rfl]

/-- **Only the question mark starts with a question mark.** -/
theorem exists_of_singles_flatten_eq (hus : ∀ u ∈ us, IsLexeme u)
    (h : singles us.flatten = .operator .question false :: xs) :
    ∃ vs, us = ['?'] :: vs ∧ singles vs.flatten = xs := by
  cases us with
  | nil =>
    rw [List.flatten_nil, Piece.singles_nil] at h
    cases h
  | cons u us =>
    rw [List.flatten_cons] at h
    cases (List.forall_mem_cons.1 hus).1 with
    | char hc =>
      rw [List.singleton_append, singles_cons (ne_of_char hc).1] at h
      obtain ⟨hmark, hrest⟩ := List.cons.inj h
      rw [eq_char_of_ofChar hmark]
      exact ⟨us, rfl, hrest⟩
    | escape hu =>
      obtain ⟨p, hp, hcut⟩ := exists_piece_of_isEscape hu
      rw [hcut] at h
      obtain ⟨rfl, -⟩ := List.cons.inj h
      exact hp.elim
    | set hs =>
      rw [singles_set hs] at h
      cases (List.cons.inj h).1
    | bounds hs =>
      rw [singles_bounds hs] at h
      cases (List.cons.inj h).1

/-- **The pieces of the last lexemes are left**, whatever operators were
cut together. -/
def Leaves (us : List (List Char)) (rest : List PlacedPiece) : Prop :=
  ∃ vs start ps, vs <:+ us ∧ rest = placeFrom start ps ∧ ps.flatMap single = singles vs.flatten

theorem leaves_of_eq (h : ps.flatMap single = singles us.flatten) (start : Nat) :
    Leaves us (placeFrom start ps) :=
  ⟨us, start, ps, List.suffix_rfl, rfl, h⟩

/-- A question mark that was taken is a lexeme. -/
theorem leaves_of_mark (hus : ∀ u ∈ us, IsLexeme u)
    (h : singles us.flatten = .operator .question false :: ps.flatMap single) (start : Nat) :
    Leaves us (placeFrom start ps) := by
  obtain ⟨vs, rfl, hvs⟩ := exists_of_singles_flatten_eq hus h
  exact ⟨vs, start, ps, List.suffix_cons _ _, rfl, hvs.symm⟩

theorem leaves_takeLazyMark (hus : ∀ u ∈ us, IsLexeme u)
    (h : ps.flatMap single = singles us.flatten) (start : Nat) :
    Leaves us (Token.takeLazyMark start (placeFrom start ps)).2.2 := by
  obtain ⟨isLazy, qs, rfl, htake⟩ | htake := Token.takeLazyMark_placeFrom_cases start ps
  · rw [htake]
    cases isLazy with
    | false => exact leaves_of_mark hus h.symm _
    | true =>
      have hmark : singles us.flatten = .operator .question false
        :: (.operator .question false :: qs).flatMap single := h.symm
      exact leaves_of_mark hus hmark _
  · rw [htake]
    exact leaves_of_eq h start

/-- **A token is read** off the pieces, and the pieces of lexemes are
left. -/
def Reads (us : List (List Char)) (ps : List Piece) : Prop :=
  ∀ afterOpen start, ∃ p qs, placeFrom start ps = p :: qs
    ∧ ∃ t rest, Token.lexOne afterOpen p qs = .ok (t, rest) ∧ Leaves us rest

theorem exists_lexOne_plain (hset : c ≠ '[') (hbrace : c ≠ '\x7b') (afterOpen : Bool)
    (start : Nat) (qs : List PlacedPiece) :
    ∃ t, Token.lexOne afterOpen ⟨plain c, start⟩ qs = .ok (t, qs) := by
  unfold Token.lexOne
  dsimp only
  rw [if_neg hset, if_neg hbrace]
  split
  next => exact ⟨_, rfl⟩
  next => split <;> exact ⟨_, rfl⟩

theorem exists_lexOne_of_isEscapePiece (hp : IsEscapePiece false p) (afterOpen : Bool)
    (start : Nat) (qs : List PlacedPiece) :
    ∃ t, Token.lexOne afterOpen ⟨p, start⟩ qs = .ok (t, qs) := by
  cases p with
  | escape c =>
    obtain ⟨t, ht⟩ := hp ⟨.escape c, start⟩
    exact ⟨t, map_eq_ok_iff.2 ⟨t, ht, rfl⟩⟩
  | unicodeEscape digits =>
    obtain ⟨t, ht⟩ := hp ⟨.unicodeEscape digits, start⟩
    exact ⟨t, map_eq_ok_iff.2 ⟨t, ht, rfl⟩⟩
  | backslash => exact hp.elim
  | operator _ _ => exact hp.elim
  | plain _ => exact hp.elim

/-- A character is read alone, or as an operator with the question mark
behind it. -/
theorem reads_char (hc : c ∉ ['\\', '[', '\x7b']) (hus : ∀ v ∈ us, IsLexeme v)
    (h : ps.flatMap single = singles (c :: us.flatten)) : Reads us ps := by
  intro afterOpen start
  obtain ⟨hback, hset, hbrace⟩ := ne_of_char hc
  rw [singles_cons hback, ofChar] at h
  split at h
  next op _ =>
    obtain ⟨qs, ⟨rfl, hqs⟩ | ⟨rfl, hqs⟩⟩ := exists_of_flatMap_single_eq_operator h
    · exact ⟨_, _, rfl, _, _, rfl, leaves_of_eq hqs _⟩
    · exact ⟨_, _, rfl, _, _, rfl, leaves_of_mark hus hqs _⟩
  next =>
    obtain ⟨qs, rfl, hqs⟩ := exists_of_flatMap_single_eq_cons (p := plain c) nofun h
    obtain ⟨t, ht⟩ := exists_lexOne_plain hset hbrace afterOpen start (placeFrom _ qs)
    exact ⟨_, _, rfl, t, _, ht, leaves_of_eq hqs _⟩

theorem reads_escape (hu : IsEscape false u) (h : ps.flatMap single = singles (u ++ us.flatten)) :
    Reads us ps := by
  intro afterOpen start
  obtain ⟨p, hp, hcut⟩ := exists_piece_of_isEscape hu
  have hne : ∀ op isLazy, p ≠ .operator op isLazy := by
    rintro op isLazy rfl
    exact hp
  rw [hcut] at h
  obtain ⟨qs, rfl, hqs⟩ := exists_of_flatMap_single_eq_cons hne h
  obtain ⟨t, ht⟩ := exists_lexOne_of_isEscapePiece hp afterOpen start (placeFrom _ qs)
  exact ⟨_, _, rfl, t, _, ht, leaves_of_eq hqs _⟩

theorem reads_set (hs : IsSetText s)
    (h : ps.flatMap single = singles ('[' :: (s ++ [']']) ++ us.flatten)) : Reads us ps := by
  intro afterOpen start
  rw [singles_set hs] at h
  obtain ⟨qs, rfl, hqs⟩ := exists_of_flatMap_single_eq_cons (p := plain '[') nofun h
  obtain ⟨is, rs, rfl, his, hrs⟩ := exists_of_flatMap_single_eq_append hqs
  have hmembers : ∀ p ∈ is, IsSetPiece p :=
    forall_isSetPiece (his ▸ isSetPiece_of_mem_singles hs)
  obtain ⟨ts, hts⟩ := exists_ofSetInterior hmembers (start + Text.byteLength (plain '[').text)
  refine ⟨_, _, rfl, ?_⟩
  show ∃ t rest, Token.lexSet _ _ = .ok (t, rest) ∧ Leaves us rest
  unfold Token.lexSet
  rw [Token.splitAt?_placeFrom fun p hp => (hmembers p hp).1]
  dsimp only
  rw [hts]
  exact ⟨_, _, rfl, leaves_of_eq hrs _⟩

theorem reads_bounds (hs : IsBounds s) (hus : ∀ v ∈ us, IsLexeme v)
    (h : ps.flatMap single = singles ('\x7b' :: (s ++ ['\x7d']) ++ us.flatten)) : Reads us ps := by
  intro afterOpen start
  rw [singles_bounds hs] at h
  obtain ⟨qs, rfl, hqs⟩ := exists_of_flatMap_single_eq_cons (p := plain '\x7b') nofun h
  obtain ⟨is, rs, rfl, his, hrs⟩ := exists_of_flatMap_single_eq_append hqs
  obtain rfl := eq_of_flatMap_single_eq_map his
  obtain ⟨count, hwritten⟩ := hs.exists_writtenAs
  have hbrace : ∀ c ∈ s, c ≠ '\x7d' := hs.ne_of_mem rfl (by decide) (by decide)
  have hlex := Token.lexQuantity_eq hbrace (readCount_of_writtenAs hwritten).2 start rs
  exact ⟨_, _, rfl, _, _, hlex, leaves_takeLazyMark hus hrs _⟩

/-- **A token is read where a lexeme stands.** -/
theorem reads_of_isLexeme (hu : IsLexeme u) (hus : ∀ v ∈ us, IsLexeme v)
    (h : ps.flatMap single = singles (u ++ us.flatten)) : Reads us ps := by
  cases hu with
  | char hc => exact reads_char hc hus h
  | escape hu => exact reads_escape hu h
  | set hs => exact reads_set hs h
  | bounds hs => exact reads_bounds hs hus h

/-! ## The whole pattern -/

/-- **Lexemes are read.** -/
theorem exists_lexPieces (hus : ∀ u ∈ us, IsLexeme u) (h : ps.flatMap single = singles us.flatten)
    (afterOpen : Bool) (start : Nat) :
    ∃ ts, Token.lexPieces afterOpen (placeFrom start ps) = .ok ts := by
  -- a token may take two lexemes, so the induction is on their number
  induction hn : us.length using Nat.strongRecOn generalizing us ps afterOpen start with
  | ind n ih =>
    cases us with
    | nil =>
      rw [List.flatten_nil, Piece.singles_nil] at h
      obtain rfl : ps = [] := eq_of_flatMap_single_eq_map (s := []) h
      exact ⟨[], Token.lexPieces_nil _⟩
    | cons u us =>
      obtain ⟨hu, hus⟩ := List.forall_mem_cons.1 hus
      obtain ⟨p, qs, hps, t, rest, hone, vs, stop, rs, hsuffix, rfl, hrs⟩ :=
        reads_of_isLexeme hu hus h afterOpen start
      have hlt : vs.length < n := hn ▸ Nat.lt_succ_of_le hsuffix.length_le
      have hvs : ∀ v ∈ vs, IsLexeme v := fun v hv => hus v (hsuffix.subset hv)
      obtain ⟨ts, hts⟩ := ih _ hlt hvs hrs (t.isEntity '(') stop rfl
      refine ⟨t :: ts, ?_⟩
      rw [hps, Token.lexPieces_cons, hone]
      dsimp only
      rw [hts]
      rfl

/-! ## Lexemes do not wait for more -/

theorem isComplete_of_isEscapePiece (h : IsEscapePiece inSet p) : p.IsComplete := by
  cases p with
  | backslash => exact h.elim
  | escape c =>
    refine ⟨nofun, fun hu => ?_⟩
    obtain rfl := Piece.escape.inj hu
    obtain ⟨t, ht⟩ := h ⟨plain 'u', 0⟩
    cases inSet <;> cases ht
  | _ => exact ⟨nofun, nofun⟩

theorem isComplete_of_isSetPiece (h : IsSetPiece p) : p.IsComplete := by
  obtain ⟨-, h⟩ := h
  obtain ⟨ts, hts⟩ := h false 0
  cases p with
  | backslash => cases hts
  | escape c =>
    refine ⟨nofun, fun hu => ?_⟩
    obtain rfl := Piece.escape.inj hu
    cases hts
  | _ => exact ⟨nofun, nofun⟩

theorem isComplete_ofChar (c : Char) : (ofChar c).IsComplete := by
  unfold ofChar
  split <;> exact ⟨nofun, nofun⟩

/-- The pieces of lexemes are complete. -/
theorem isComplete_of_mem_singles (hus : ∀ u ∈ us, IsLexeme u) :
    ∀ p ∈ singles us.flatten, p.IsComplete := by
  have complete_plain (c : Char) : (plain c).IsComplete := ⟨nofun, nofun⟩
  induction us with
  | nil =>
    rw [List.flatten_nil, Piece.singles_nil]
    exact nofun
  | cons u us ih =>
    obtain ⟨hu, htail⟩ := List.forall_mem_cons.1 hus
    rw [List.flatten_cons]
    cases hu with
    | char hc =>
      rw [List.singleton_append, singles_cons (ne_of_char hc).1]
      exact List.forall_mem_cons.2 ⟨isComplete_ofChar _, ih htail⟩
    | escape hu =>
      obtain ⟨p, hp, hcut⟩ := exists_piece_of_isEscape hu
      rw [hcut]
      exact List.forall_mem_cons.2 ⟨isComplete_of_isEscapePiece hp, ih htail⟩
    | set hs =>
      rw [singles_set hs]
      refine List.forall_mem_cons.2 ⟨complete_plain _, List.forall_mem_append.2 ⟨?_, ?_⟩⟩
      · exact fun p hp => isComplete_of_isSetPiece (isSetPiece_of_mem_singles hs p hp)
      · exact List.forall_mem_cons.2 ⟨complete_plain _, ih htail⟩
    | bounds hs =>
      rw [singles_bounds hs]
      refine List.forall_mem_cons.2 ⟨complete_plain _, List.forall_mem_append.2 ⟨?_, ?_⟩⟩
      · intro p hp
        obtain ⟨c, -, rfl⟩ := List.mem_map.1 hp
        exact complete_plain c
      · exact List.forall_mem_cons.2 ⟨complete_plain _, ih htail⟩

end Lexical

namespace Token

/-- **A text that is read falls into lexemes.** -/
theorem exists_lexemes_of_lex {s : List Char} {ts : List Token} (h : lex s = .ok ts) :
    ∃ us : List (List Char), (∀ u ∈ us, Lexical.IsLexeme u) ∧ us.flatten = s := by
  -- the spans do not matter here
  let At : Span → Nat → Nat → Prop := fun _ _ _ => True
  have hAt : ∀ a b, a ≤ b → b ≤ 0 + Text.byteLength ((scan s).flatMap Piece.text) →
      At (.ofOffsets a b) a b := fun _ _ _ _ => trivial
  have htiles := tiles_of_lexPieces hAt (Piece.isCut_of_mem_scan s) (Nat.le_refl _) h
  rw [Piece.join_scan] at htiles
  exact Lexical.exists_flatten_of_tiles htiles

/-- A text that is read does not end in the middle of an escape. -/
theorem isComplete_of_lex {s : List Char} {ts : List Token} (h : lex s = .ok ts) :
    ∀ p ∈ scan s, p.IsComplete := by
  obtain ⟨us, hus, rfl⟩ := exists_lexemes_of_lex h
  intro p hp
  by_cases hop : ∃ op isLazy, p = .operator op isLazy
  · obtain ⟨op, isLazy, rfl⟩ := hop
    exact ⟨nofun, nofun⟩
  · have hne : ∀ op isLazy, p ≠ .operator op isLazy := fun op isLazy heq => hop ⟨op, isLazy, heq⟩
    exact Lexical.isComplete_of_mem_singles hus p ((Piece.mem_scan_of_mem_singles hne).1 hp)

end Token

namespace Pattern

/-- **The patterns that can be read as tokens** are the texts that fall
into lexemes. -/
theorem exists_lex_eq_ok_iff {pattern : String} : (∃ ts, lex pattern = .ok ts) ↔
    ∃ us : List (List Char), (∀ u ∈ us, Lexical.IsLexeme u) ∧ us.flatten = pattern.toList := by
  constructor
  · rintro ⟨ts, hts⟩
    exact Token.exists_lexemes_of_lex (lex_eq_ok_iff.1 hts)
  · rintro ⟨us, hus, hflatten⟩
    have hsingles : (scan pattern.toList).flatMap single = singles us.flatten := by
      rw [hflatten]
      rfl
    obtain ⟨ts, hts⟩ := Lexical.exists_lexPieces hus hsingles false 0
    exact ⟨ts, lex_eq_ok_iff.2 hts⟩

end Pattern

end Regexp
