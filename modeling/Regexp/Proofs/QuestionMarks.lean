import Regexp.Proofs.LexicalGrammar

/-!
# Runs of question marks

A run of question marks is cut into pairs from its front. On its own, and
behind an operator that has taken the first mark, each pair is lazy and a
last single mark is greedy (`Token.kindsOfMarks`).

A bounded quantifier takes the first mark as well, but by then the marks
are paired, the first one with the second. The second mark is left behind
as a greedy operator, and the pairs behind it stay as they are
(`Token.kindsBehindBounds`). From three marks on a run behind bounds is
therefore split otherwise than behind an operator
(`Pattern.lexesAs_marks`).
-/

namespace Regexp

open Piece (placeFrom scan plain)

/-! ## The kinds of tokens -/

/-- **The pattern lexes as tokens of these kinds**, in this order. -/
def Pattern.LexesAs (pattern : String) (ks : List (TokenKind Token)) : Prop :=
  ∃ ts, lex pattern = .ok ts ∧ ts.map (·.kind) = ks

theorem Pattern.LexesAs.unique {pattern : String} {ks ks' : List (TokenKind Token)}
    (h : LexesAs pattern ks) (h' : LexesAs pattern ks') : ks = ks' := by
  obtain ⟨ts, hts, rfl⟩ := h
  obtain ⟨us, hus, rfl⟩ := h'
  obtain rfl := Except.ok.inj (hts.symm.trans hus)
  rfl

namespace Token

/-- A run of question marks. -/
def marks (k : Nat) : List Char := List.replicate k '?'

/-- **What a run of question marks is read as**: each pair is a lazy
quantity, and a single one at the end is a greedy one. -/
def kindsOfMarks : Nat → List (TokenKind Token)
  | 0 => []
  | 1 => [.quantity ⟨.zeroOrOne, true⟩]
  | k + 2 => .quantity ⟨.zeroOrOne, false⟩ :: kindsOfMarks k

/-- **What is read behind bounds that have taken the first mark.** The
second one, which was its pair, is a greedy quantity. -/
def kindsBehindBounds : Nat → List (TokenKind Token)
  | 0 => []
  | k + 1 => .quantity ⟨.zeroOrOne, true⟩ :: kindsOfMarks k

/-- Up to one mark left, it makes no difference what took the first. -/
theorem kindsBehindBounds_eq_kindsOfMarks_iff {k : Nat} :
    kindsBehindBounds k = kindsOfMarks k ↔ k ≤ 1 := by
  match k with
  | 0 => exact iff_of_true rfl (Nat.zero_le 1)
  | 1 => exact iff_of_true rfl (Nat.le_refl 1)
  | k + 2 =>
    refine iff_of_false (fun h => ?_) (by omega)
    have hfirst := TokenKind.quantity.inj (List.cons.inj h).1
    cases hfirst

/-- The pieces are read as tokens of these kinds. -/
def HasKinds (ps : List PlacedPiece) (ks : List (TokenKind Token)) : Prop :=
  ∃ ts, lexPieces false ps = .ok ts ∧ ts.map (·.kind) = ks

variable {p : PlacedPiece} {ps qs : List PlacedPiece} {ks : List (TokenKind Token)} {t : Token}
variable {s : List Char} {count : Count}

theorem HasKinds.nil : HasKinds [] [] := ⟨[], lexPieces_nil false, rfl⟩

/-- One token in front, which is no opening parenthesis. -/
theorem HasKinds.cons (h : lexOne false p ps = .ok (t, qs)) (ht : t.kind ≠ .entity '(')
    (hqs : HasKinds qs ks) : HasKinds (p :: ps) (t.kind :: ks) := by
  obtain ⟨ts, hts, rfl⟩ := hqs
  have hnot : t.isEntity '(' = false := by
    unfold isEntity
    split
    next d hd => exact beq_false_of_ne fun h => ht (h ▸ hd)
    next => rfl
  exact ⟨t :: ts, lexPieces_eq_ok_cons_iff.2 ⟨p, ps, qs, rfl, h, hnot ▸ hts⟩, rfl⟩

/-- An operator is one token. -/
theorem HasKinds.operator (op : Operator) (isLazy : Bool) (start : Nat) (hps : HasKinds ps ks) :
    HasKinds (⟨.operator op isLazy, start⟩ :: ps) (ofOperator false op isLazy :: ks) :=
  .cons (t := ⟨ofOperator false op isLazy, PlacedPiece.span ⟨.operator op isLazy, start⟩⟩) rfl
    nofun hps

/-! ## Runs of marks -/

theorem scan_marks (k : Nat) :
    scan (marks (k + 2)) = .operator .question true :: scan (marks k) :=
  Piece.scan_operator_mark .question (marks k)

theorem scan_mark : scan (marks 1) = [.operator .question false] := by
  show scan (Operator.question.char :: []) = _
  rw [Piece.scan_operator _ (by simp), Piece.scan_nil]

theorem hasKinds_marks (k : Nat) (start : Nat) :
    HasKinds (placeFrom start (scan (marks k))) (kindsOfMarks k) := by
  induction k using kindsOfMarks.induct generalizing start with
  | case1 =>
    rw [show marks 0 = [] from rfl, Piece.scan_nil]
    exact .nil
  | case2 =>
    rw [scan_mark]
    exact .operator .question false start .nil
  | case3 k ih =>
    rw [scan_marks]
    exact .operator .question true start (ih _)

/-- An operator takes the first of the marks behind it. -/
theorem hasKinds_operator_marks (op : Operator) (k : Nat) (start : Nat) :
    HasKinds (placeFrom start (scan (op.char :: marks (k + 1))))
      (ofOperator false op true :: kindsOfMarks k) := by
  show HasKinds (placeFrom start (scan (op.char :: '?' :: marks k))) _
  rw [Piece.scan_operator_mark]
  exact .operator op true start (hasKinds_marks k _)

/-- A quantity takes half of the first pair. -/
theorem takeLazyMark_marks (k stop : Nat) :
    ∃ rest, takeLazyMark stop (placeFrom stop (scan (marks (k + 1)))) = (true, stop + 1, rest)
      ∧ HasKinds rest (kindsBehindBounds k) := by
  cases k with
  | zero =>
    rw [scan_mark]
    exact ⟨[], rfl, .nil⟩
  | succ k =>
    rw [scan_marks]
    exact ⟨_, rfl, .operator .question false (stop + 1) (hasKinds_marks k _)⟩

/-- Bounds take the first of the marks behind them. -/
theorem hasKinds_bounds_marks (hs : count.WrittenAs ('\x7b' :: (s ++ ['\x7d']))) (k start : Nat) :
    HasKinds (placeFrom start (scan ('\x7b' :: (s ++ '\x7d' :: marks (k + 1)))))
      (.quantity ⟨count, false⟩ :: kindsBehindBounds k) := by
  obtain ⟨hbounds, hcount⟩ := Lexical.readCount_of_writtenAs hs
  have hbrace : ∀ c ∈ s, c ≠ '\x7d' := hbounds.ne_of_mem rfl (by decide) (by decide)
  have hscan : scan ('\x7b' :: (s ++ '\x7d' :: marks (k + 1)))
      = plain '\x7b' :: (s.map plain ++ plain '\x7d' :: scan (marks (k + 1))) := by
    rw [Piece.scan_plain (by decide) rfl, Piece.scan_append_of_plain hbounds.forall_plain,
      Piece.scan_plain (by decide) rfl]
  obtain ⟨rest, htake, hrest⟩ :=
    takeLazyMark_marks k (start + Text.byteLength ('\x7b' :: (s ++ ['\x7d'])))
  have hlex := lexQuantity_eq hbrace hcount start (scan (marks (k + 1)))
  dsimp only at hlex
  rw [htake] at hlex
  rw [hscan]
  exact HasKinds.cons (t := ⟨.quantity ⟨count, false⟩, _⟩) hlex nofun hrest

end Token

/-! ## Whole patterns -/

namespace Pattern

open Token (HasKinds marks kindsOfMarks kindsBehindBounds)

variable {s : List Char} {ks : List (TokenKind Token)}

theorem lexesAs_of_hasKinds (h : HasKinds (placeFrom 0 (scan s)) ks) :
    LexesAs (String.ofList s) ks := by
  obtain ⟨ts, hts, hks⟩ := h
  refine ⟨ts, lex_eq_ok_iff.2 ?_, hks⟩
  rw [String.toList_ofList]
  exact hts

/-- A letter in front is a token of its own. -/
theorem lexesAs_letter (h : HasKinds (placeFrom 1 (scan s)) ks) :
    LexesAs (String.ofList ('a' :: s)) (.char 'a' :: ks) := by
  apply lexesAs_of_hasKinds
  rw [Piece.scan_plain (by decide) rfl]
  exact HasKinds.cons (t := ⟨.char 'a', PlacedPiece.span ⟨plain 'a', 0⟩⟩) rfl nofun h

/-- **How a run of question marks is split**, alone, behind an operator
and behind bounds. An operator takes the first mark and leaves the others
as they are on their own. Bounds take the first mark, and leave the others
as they are on their own just if there is at most one of them. -/
theorem lexesAs_marks {count : Count} (hs : count.WrittenAs ('\x7b' :: (s ++ ['\x7d'])))
    (k : Nat) :
    LexesAs (String.ofList (marks k)) (kindsOfMarks k)
    ∧ (∀ op : Operator, LexesAs (String.ofList ('a' :: op.char :: marks (k + 1)))
        (.char 'a' :: Token.ofOperator false op true :: kindsOfMarks k))
    ∧ LexesAs (String.ofList ('a' :: '\x7b' :: (s ++ '\x7d' :: marks (k + 1))))
        (.char 'a' :: .quantity ⟨count, false⟩ :: kindsBehindBounds k)
    ∧ (LexesAs (String.ofList ('a' :: '\x7b' :: (s ++ '\x7d' :: marks (k + 1))))
        (.char 'a' :: .quantity ⟨count, false⟩ :: kindsOfMarks k) ↔ k ≤ 1) := by
  have hbounds := lexesAs_letter (Token.hasKinds_bounds_marks hs k 1)
  have hop (op : Operator) := lexesAs_letter (Token.hasKinds_operator_marks op k 1)
  refine ⟨lexesAs_of_hasKinds (Token.hasKinds_marks k 0), hop, hbounds, fun h => ?_, fun h => ?_⟩
  · have hkinds := (List.cons.inj (List.cons.inj (hbounds.unique h)).2).2
    exact Token.kindsBehindBounds_eq_kindsOfMarks_iff.1 hkinds
  · rwa [Token.kindsBehindBounds_eq_kindsOfMarks_iff.2 h] at hbounds

theorem lexesAs_marks_two :
    Count.WrittenAs (.exactly 2) ['\x7b', '2', '\x7d']
    ∧ LexesAs "a\x7b2\x7d??"
        [.char 'a', .quantity ⟨.exactly 2, false⟩, .quantity ⟨.zeroOrOne, true⟩] := by
  have hspells : Numeral.Spells 10 ['2'] (2 : UInt32).toNat :=
    Numeral.IsDigit.spells ⟨by decide, .inl rfl⟩
  exact ⟨.exactly hspells, (lexesAs_marks (s := ['2']) (.exactly hspells) 1).2.2.2.2 (by decide)⟩

/-- Two marks are a lazy quantity, but behind bounds that have taken a
mark they are two greedy ones. -/
theorem not_lexesAs_marks_three :
    LexesAs "??" [.quantity ⟨.zeroOrOne, false⟩]
    ∧ LexesAs "a\x7b2\x7d???"
        [.char 'a', .quantity ⟨.exactly 2, false⟩, .quantity ⟨.zeroOrOne, true⟩,
          .quantity ⟨.zeroOrOne, true⟩]
    ∧ ¬LexesAs "a\x7b2\x7d???"
        [.char 'a', .quantity ⟨.exactly 2, false⟩, .quantity ⟨.zeroOrOne, false⟩] := by
  have hspells : Numeral.Spells 10 ['2'] (2 : UInt32).toNat :=
    Numeral.IsDigit.spells ⟨by decide, .inl rfl⟩
  have h := lexesAs_letter (Token.hasKinds_bounds_marks (s := ['2']) (.exactly hspells) 2 1)
  refine ⟨lexesAs_of_hasKinds (Token.hasKinds_marks 2 0), h, fun h' => ?_⟩
  have hlength := congrArg List.length (h.unique h')
  cases hlength

end Pattern

end Regexp
