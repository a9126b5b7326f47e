import Mathlib.Data.List.TakeDrop
import Regexp.Proofs.Lexeme
import Regexp.Proofs.Spelling

/-!
# Reading rendered quantifiers

What a quantifier is rendered as is read as that quantifier
(`Token.lexFrom_quantity`), unless it stands right behind an opening
parenthesis or in front of a question mark. Between braces there are
digits and commas only, so each character is a piece of its own.
-/

namespace Regexp

open Piece (placeFrom scan plain)

/-- A character that may stand between the braces of a quantifier. -/
def IsBoundChar (c : Char) : Prop := c.isDigit = true ∨ c = ','

namespace IsBoundChar

variable {c : Char}

theorem ne_backslash (h : IsBoundChar c) : c ≠ '\\' := by
  rintro rfl
  exact h.elim (fun h => nomatch h) fun h => nomatch h

theorem ne_brace (h : IsBoundChar c) : c ≠ '\x7d' := by
  rintro rfl
  exact h.elim (fun h => nomatch h) fun h => nomatch h

theorem ofChar?_eq_none (h : IsBoundChar c) : Operator.ofChar? c = none := by
  cases hop : Operator.ofChar? c with
  | none => rfl
  | some op =>
    obtain rfl := Piece.char_of_ofChar? hop
    cases op <;> exact h.elim (fun h => nomatch h) fun h => nomatch h

end IsBoundChar

namespace Token

variable {s rest : List Char} {lower upper : List Char} {m n : UInt32} {whole : Span} {start : Nat}

/-! ## Bounds -/

theorem isDigit_of_mem_decimal : ∀ c ∈ Count.render.decimal n, c.isDigit = true :=
  fun _ hc => Nat.isDigit_of_mem_toDigits (by decide) (by decide) hc

/-- **A rendered bound reads back.** -/
theorem readBound_decimal (start : Nat) (n : UInt32) :
    readBound start (Count.render.decimal n) = .ok n := by
  have hwrite : Count.render.decimal n = Numeral.write 10 0 n.toNat := by
    rw [Numeral.write, Nat.zero_sub]
    rfl
  unfold readBound
  rw [hwrite, Numeral.read_write (by decide) (by decide)]
  dsimp only
  rw [if_pos n.toNat_lt_size, Nat.toUInt32_eq, UInt32.ofNat_toNat]

theorem decimal_ne_nil (n : UInt32) : Count.render.decimal n ≠ [] := Nat.toDigits_ne_nil

theorem ne_comma_of_mem_decimal : ∀ c ∈ Count.render.decimal n, c ≠ ',' := by
  rintro c hc rfl
  cases isDigit_of_mem_decimal _ hc

/-- A bound reaches up to a comma, or up to the end. -/
theorem span_comma (hlower : ∀ c ∈ lower, c ≠ ',') (hs : s.takeWhile (· != ',') = []) :
    (lower ++ s).span (· != ',') = (lower, s) := by
  have hne : ∀ c ∈ lower, (c != ',') = true := fun c hc => bne_iff_ne.2 (hlower c hc)
  have hdrop := List.takeWhile_append_dropWhile (p := (· != ',')) (l := s)
  rw [hs, List.nil_append] at hdrop
  rw [List.span_eq_takeWhile_dropWhile, List.takeWhile_append_of_pos hne,
    List.dropWhile_append_of_pos hne, hs, hdrop, List.append_nil]

/-- A bound alone is an exact count. -/
theorem readCount_bound (hne : s ≠ []) (hs : ∀ c ∈ s, c ≠ ',') (h : readBound start s = .ok n) :
    readCount whole start s = .ok (.exactly n) := by
  have hspan := span_comma hs (s := []) rfl
  rw [List.append_nil] at hspan
  unfold readCount
  split
  next => exact (hne rfl).elim
  next =>
    rw [hspan]
    dsimp only
    rw [h]
    rfl

/-- What a bound and a comma are read as depends on what stands behind the
comma. -/
theorem readCount_comma (hne : lower ≠ []) (hlower : ∀ c ∈ lower, c ≠ ',')
    (h : readBound start lower = .ok n) (upper : List Char) :
    readCount whole start (lower ++ ',' :: upper)
      = if upper.isEmpty then .ok (.atLeast n)
        else (readBound (start + Text.byteLength lower + 1) upper).map (.between n) := by
  have hspan := span_comma hlower (s := ',' :: upper) rfl
  obtain ⟨c, s, rfl⟩ := List.exists_cons_of_ne_nil hne
  rw [List.cons_append] at hspan ⊢
  unfold readCount
  dsimp only
  rw [hspan]
  dsimp only
  rw [h]

theorem readCount_exactly : readCount whole start (Count.render.decimal n) = .ok (.exactly n) :=
  readCount_bound (decimal_ne_nil n) ne_comma_of_mem_decimal (readBound_decimal _ _)

theorem readCount_atLeast :
    readCount whole start (Count.render.decimal n ++ [',']) = .ok (.atLeast n) :=
  readCount_comma (decimal_ne_nil n) ne_comma_of_mem_decimal (readBound_decimal _ _) []

theorem readCount_between :
    readCount whole start (Count.render.decimal m ++ ',' :: Count.render.decimal n)
      = .ok (.between m n) := by
  have hupper : (Count.render.decimal n).isEmpty = false :=
    Bool.eq_false_iff.2 fun h => decimal_ne_nil n (List.isEmpty_iff.1 h)
  rw [readCount_comma (decimal_ne_nil m) ne_comma_of_mem_decimal (readBound_decimal _ _),
    readBound_decimal, hupper]
  rfl

/-! ## Braces -/

/-- Between braces each character is a piece. -/
theorem scan_append_brace (h : ∀ c ∈ s, IsBoundChar c) (rest : List Char) :
    scan (s ++ '\x7d' :: rest) = s.map plain ++ plain '\x7d' :: scan rest := by
  rw [Piece.scan_append_of_plain fun c hc => ⟨(h c hc).ne_backslash, (h c hc).ofChar?_eq_none⟩,
    Piece.scan_plain (by decide) rfl]

theorem flatMap_text_map_plain (s : List Char) : (s.map plain).flatMap Piece.text = s := by
  induction s with
  | nil => rfl
  | cons c s ih =>
    rw [List.map_cons, List.flatMap_cons, ih]
    rfl

/-- The mark of a lazy quantity is taken, and nothing else is if no
question mark follows. -/
theorem takeLazyMark_placeFrom (greedy : Bool) (hrest : rest.head? ≠ some '?') (stop : Nat) :
    takeLazyMark stop (placeFrom stop (scan (lazyMark greedy ++ rest)))
      = (!greedy, stop + Text.byteLength (lazyMark greedy),
        placeFrom (stop + Text.byteLength (lazyMark greedy)) (scan rest)) := by
  cases greedy with
  | false =>
    show takeLazyMark stop (placeFrom stop (scan (Operator.question.char :: rest))) = _
    rw [Piece.scan_operator _ hrest]
    rfl
  | true =>
    show takeLazyMark stop (placeFrom stop (scan rest)) = (false, stop, placeFrom stop (scan rest))
    unfold takeLazyMark
    split
    next hps =>
      cases rest with
      | nil =>
        rw [Piece.scan_nil] at hps
        cases hps
      | cons c s =>
        rw [Piece.scan_cons, placeFrom] at hps
        -- the text would start with a question mark
        have hcut := congrArg PlacedPiece.piece (List.cons.inj hps).1
        exact (hrest (Piece.head?_text_of_cut hcut).symm).elim
    next => rfl

/-! ## Quantities -/

/-- An operator in front of anything but a question mark. -/
theorem lexFrom_operator (op : Operator) (greedy : Bool) (hrest : rest.head? ≠ some '?')
    (start : Nat) :
    ∃ t : Token, t.kind = ofOperator false op (!greedy) ∧
      lexFrom false start (op.char :: lazyMark greedy ++ rest)
        = (lexFrom (t.isEntity '(') (start + Text.byteLength (op.char :: lazyMark greedy)) rest).map
          (t :: ·) := by
  have hcut : scan (op.char :: lazyMark greedy ++ rest) = .operator op (!greedy) :: scan rest := by
    cases greedy with
    | false => exact Piece.scan_operator_mark op rest
    | true => exact Piece.scan_operator op hrest
  refine ⟨⟨ofOperator false op (!greedy), PlacedPiece.span ⟨.operator op (!greedy), start⟩⟩, rfl,
    lexFrom_append hcut ?_⟩
  cases greedy <;> rfl

/-- **The quantity between a brace and the next one**, in front of any
pieces. A question mark may be the first of them, or half of it. -/
theorem lexQuantity_eq {count : Count} (hs : ∀ c ∈ s, c ≠ '\x7d')
    (hcount : ∀ whole start, readCount whole start s = .ok count) (start : Nat) (ps : List Piece) :
    lexQuantity ⟨plain '\x7b', start⟩
        (placeFrom (start + Text.byteLength ['\x7b']) (s.map plain ++ plain '\x7d' :: ps))
      = (let stop := start + Text.byteLength ('\x7b' :: (s ++ ['\x7d']))
        let (isLazy, stop, rest) := takeLazyMark stop (placeFrom stop ps)
        .ok (⟨.quantity ⟨count, !isLazy⟩, .ofOffsets start stop⟩, rest)) := by
  have hclose : ∀ p ∈ s.map plain, p ≠ plain '\x7d' := by
    intro p hp
    obtain ⟨c, hc, rfl⟩ := List.mem_map.1 hp
    exact fun h => hs c hc (Piece.plain.inj h)
  have hstop : PlacedPiece.stop
      ⟨plain '\x7d', start + Text.byteLength ['\x7b'] + Text.byteLength s⟩
        = start + Text.byteLength ['\x7b'] + Text.byteLength s + Text.byteLength ['\x7d'] := rfl
  unfold lexQuantity
  rw [splitAt?_placeFrom hclose, flatMap_text_map_plain, Text.add_byteLength_enclosed]
  dsimp only
  rw [Piece.flatMap_text_placeFrom, flatMap_text_map_plain, hcount, hstop]
  rfl

/-- The quantity in front of anything but a question mark that is not its
own. -/
theorem lexQuantity_placeFrom {count : Count} (hs : ∀ c ∈ s, IsBoundChar c)
    (hcount : ∀ whole start, readCount whole start s = .ok count) (greedy : Bool)
    (hrest : rest.head? ≠ some '?') (start : Nat) :
    ∃ t : Token, t.kind = .quantity ⟨count, greedy⟩ ∧
      lexQuantity ⟨plain '\x7b', start⟩ (placeFrom (start + Text.byteLength ['\x7b'])
        (s.map plain ++ plain '\x7d' :: scan (lazyMark greedy ++ rest)))
        = .ok (t, placeFrom (start + Text.byteLength ('\x7b' :: (s ++ ['\x7d']) ++ lazyMark greedy))
          (scan rest)) := by
  rw [lexQuantity_eq (fun c hc => (hs c hc).ne_brace) hcount]
  dsimp only
  rw [takeLazyMark_placeFrom greedy hrest, Bool.not_not, Text.byteLength_append, Nat.add_assoc]
  exact ⟨_, rfl, rfl⟩

/-- A text between braces that is read as a count. -/
theorem lexFrom_braces {count : Count} (hs : ∀ c ∈ s, IsBoundChar c)
    (hcount : ∀ whole start, readCount whole start s = .ok count) (greedy : Bool)
    (hrest : rest.head? ≠ some '?') (start : Nat) :
    ∃ t : Token, t.kind = .quantity ⟨count, greedy⟩ ∧
      lexFrom false start ('\x7b' :: (s ++ ['\x7d']) ++ lazyMark greedy ++ rest)
        = (lexFrom (t.isEntity '(')
          (start + Text.byteLength ('\x7b' :: (s ++ ['\x7d']) ++ lazyMark greedy)) rest).map
          (t :: ·) := by
  obtain ⟨t, ht, hlex⟩ := lexQuantity_placeFrom hs hcount greedy hrest start
  have hcut : scan ('\x7b' :: (s ++ ['\x7d']) ++ lazyMark greedy ++ rest)
      = plain '\x7b' :: (s.map plain ++ plain '\x7d' :: scan (lazyMark greedy ++ rest)) := by
    rw [List.append_assoc, List.cons_append, List.append_assoc, Piece.scan_plain (by decide) rfl]
    exact congrArg (plain '\x7b' :: ·) (scan_append_brace hs _)
  exact ⟨t, ht, lexFrom_append hcut hlex⟩

theorem isBoundChar_decimal : ∀ c ∈ Count.render.decimal n, IsBoundChar c :=
  fun c hc => .inl (isDigit_of_mem_decimal c hc)

/-- **A rendered quantity reads back**, unless it stands right behind an
opening parenthesis or in front of a question mark. -/
theorem lexFrom_quantity (q : Quantity) (hrest : rest.head? ≠ some '?') (start : Nat) :
    ∃ t : Token, t.kind = .quantity q ∧
      lexFrom false start (q.render ++ rest)
        = (lexFrom false (start + Text.byteLength q.render) rest).map (t :: ·) := by
  suffices h : ∃ t : Token, t.kind = .quantity q ∧
      lexFrom false start (q.render ++ rest)
        = (lexFrom (t.isEntity '(') (start + Text.byteLength q.render) rest).map (t :: ·) by
    obtain ⟨t, ht, h⟩ := h
    have hnot : t.isEntity '(' = false := by rw [isEntity, ht]
    rw [hnot] at h
    exact ⟨t, ht, h⟩
  obtain ⟨count, greedy⟩ := q
  cases count with
  | zeroOrOne =>
    obtain ⟨t, ht, h⟩ := lexFrom_operator .question greedy hrest start
    exact ⟨t, by rw [ht, ofOperator, Bool.not_not]; rfl, h⟩
  | oneOrMore =>
    obtain ⟨t, ht, h⟩ := lexFrom_operator .plus greedy hrest start
    exact ⟨t, by rw [ht, ofOperator, Bool.not_not]; rfl, h⟩
  | zeroOrMore =>
    obtain ⟨t, ht, h⟩ := lexFrom_operator .star greedy hrest start
    exact ⟨t, by rw [ht, ofOperator, Bool.not_not]; rfl, h⟩
  | exactly n =>
    exact lexFrom_braces isBoundChar_decimal (fun _ _ => readCount_exactly) greedy hrest start
  | between lower upper =>
    have hs : ∀ c ∈ Count.render.decimal lower ++ ',' :: Count.render.decimal upper,
        IsBoundChar c :=
      List.forall_mem_append.2
        ⟨isBoundChar_decimal, List.forall_mem_cons.2 ⟨.inr rfl, isBoundChar_decimal⟩⟩
    have hrender : Quantity.render ⟨.between lower upper, greedy⟩
        = '\x7b' :: (Count.render.decimal lower ++ ',' :: Count.render.decimal upper ++ ['\x7d'])
          ++ lazyMark greedy := by
      rw [List.append_assoc]
      rfl
    rw [hrender]
    exact lexFrom_braces hs (fun _ _ => readCount_between) greedy hrest start
  | atLeast n =>
    have hs : ∀ c ∈ Count.render.decimal n ++ [','], IsBoundChar c :=
      List.forall_mem_append.2 ⟨isBoundChar_decimal, List.forall_mem_singleton.2 (.inr rfl)⟩
    have hrender : Quantity.render ⟨.atLeast n, greedy⟩
        = '\x7b' :: (Count.render.decimal n ++ [','] ++ ['\x7d']) ++ lazyMark greedy := by
      rw [List.append_assoc]
      rfl
    rw [hrender]
    exact lexFrom_braces hs (fun _ _ => readCount_atLeast) greedy hrest start

end Token

end Regexp
