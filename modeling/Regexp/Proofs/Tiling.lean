import Mathlib.Data.List.TakeDrop
import Regexp.Proofs.Bracketing
import Regexp.Proofs.Passes
import Regexp.Proofs.Scanning
import Regexp.Proofs.Spelling

/-!
# Tokens tile their pattern

Reading tokens loses no text: the tokens of a pattern tile it, each one
says what its slice says, and so it is between the brackets of a set.
Matching parentheses keeps the tiling and makes one of what stands between
two parentheses (`Pattern.tiles_of_lex`).

One lemma says all that reading a single token can do (`Token.Takes`): it
takes a slice from the front of the text and leaves pieces of what is
left. A further induction on the pieces is all that the whole pattern
needs.
-/

namespace Regexp

open Piece (placeFrom scan plain)

namespace Piece

variable {p : Piece} {c : Char} {s : List Char}

/-- The piece may have been cut: a backslash and the operators are never
plain. -/
def IsCut (p : Piece) : Prop :=
  ∀ c, p = plain c → c ≠ '\\' ∧ Operator.ofChar? c = none

theorem isCut_operator (op : Operator) (isLazy : Bool) : (operator op isLazy).IsCut := nofun

theorem isCut_cut (c : Char) (s : List Char) : (cut c s).1.IsCut := by
  intro d h
  unfold cut at h
  split at h
  next =>
    split at h
    next => cases h
    next =>
      split at h
      next => cases h
      next => cases h
    next => cases h
  next hc =>
    split at h
    next =>
      split at h
      next => cases h
      next => cases h
    next hop =>
      obtain rfl := plain.inj h
      exact ⟨hc, hop⟩

theorem isCut_of_mem_scan (s : List Char) : ∀ p ∈ scan s, p.IsCut := by
  induction s using scan.induct with
  | case1 =>
    rw [scan_nil]
    exact List.forall_mem_nil _
  | case2 c s ih =>
    rw [scan_cons]
    exact List.forall_mem_cons.2 ⟨isCut_cut c s, ih⟩

end Piece

namespace PlacedPiece

/-- **Where pieces are split**: in front of the first one that closes. -/
theorem exists_of_splitAt? {close : Char} {ps : List Piece} {start : Nat}
    {inner rest : List PlacedPiece} {q : PlacedPiece}
    (h : splitAt? close (placeFrom start ps) = some (inner, q, rest)) :
    ∃ is qs, ps = is ++ plain close :: qs ∧ (∀ p ∈ is, p ≠ plain close)
      ∧ inner = placeFrom start is
      ∧ q = ⟨plain close, start + Text.byteLength (is.flatMap Piece.text)⟩
      ∧ rest = placeFrom q.stop qs := by
  induction ps generalizing start inner with
  | nil => cases h
  | cons p ps ih =>
    rw [placeFrom, splitAt?] at h
    split at h
    next hp =>
      obtain rfl : p = plain close := hp
      obtain ⟨rfl, hq⟩ := Prod.mk.inj (Option.some.inj h)
      obtain ⟨rfl, rfl⟩ := Prod.mk.inj hq
      exact ⟨[], ps, rfl, List.forall_mem_nil _, rfl, rfl, rfl⟩
    next hp =>
      obtain ⟨⟨inner', q', rest'⟩, h', heq⟩ := Option.map_eq_some_iff.1 h
      obtain ⟨rfl, hq⟩ := Prod.mk.inj heq
      obtain ⟨rfl, rfl⟩ := Prod.mk.inj hq
      obtain ⟨is, qs, rfl, his, rfl, rfl, rfl⟩ := ih h'
      refine ⟨p :: is, qs, rfl, List.forall_mem_cons.2 ⟨hp, his⟩, rfl, ?_, rfl⟩
      rw [List.flatMap_cons, Text.byteLength_append, ← Nat.add_assoc]

end PlacedPiece

namespace Token

variable {At : Span → Nat → Nat → Prop} {limit : Nat}
variable {p : Piece} {ps : List Piece} {start : Nat} {t : Token} {ts us : List Token}
variable {inSet inner first afterOpen : Bool} {c : Char} {digits text : List Char}

/-! ## Characters -/

/-- What an escape is read as. -/
theorem glyph_of_ofEscape {q : PlacedPiece} (h : ofEscape inSet q c = .ok t) :
    t.span = q.span ∧ Glyph inSet ['\\', c] t.kind := by
  unfold ofEscape at h
  split at h
  next hc =>
    obtain rfl := Except.ok.inj h
    rw [Bool.or_eq_true, List.contains_iff_mem, Bool.and_eq_true, beq_iff_eq,
      ← specialChars_eq] at hc
    exact ⟨rfl, .escaped hc⟩
  next =>
    split at h
    next m hm =>
      obtain rfl := Except.ok.inj h
      exact ⟨rfl, .metaChar (MetaChar.ofEscape?_eq_some_iff.1 hm)⟩
    next => split at h <;> cases h

/-- What a unicode escape is read as. -/
theorem glyph_of_ofUnicodeEscape {q : PlacedPiece} (h : ofUnicodeEscape q digits = .ok t) :
    t.span = q.span ∧ Glyph inSet (Piece.unicodeEscape digits).text t.kind := by
  unfold ofUnicodeEscape at h
  split at h
  next hlen =>
    split at h
    next => cases h
    next => cases h
    next n hn =>
      split at h
      next hle =>
        obtain rfl := Except.ok.inj h
        have hnat : n.toUInt32.toNat = n :=
          UInt32.toNat_ofNat_of_lt' (Nat.lt_of_le_of_lt hle (by decide))
        rw [isEscapeWidth, Bool.or_eq_true, beq_iff_eq, beq_iff_eq] at hlen
        refine ⟨rfl, .unicode hlen ?_ (UInt32.le_iff_toNat_le.2 ?_)⟩
        · rw [hnat]
          exact Numeral.read_eq_ok_iff.1 hn
        · rw [hnat]
          exact hle
      next => cases h
  next => cases h

theorem isBare_char_operator (op : Operator) : IsBare true op.char := by
  cases op with
  | star => exact (by decide : '*' ∉ ['\\', ']'])
  | plus => exact (by decide : '+' ∉ ['\\', ']'])
  | question => exact (by decide : '?' ∉ ['\\', ']'])

/-! ## Bounds -/

theorem spells_of_readBound {n : UInt32} (h : readBound start text = .ok n) :
    Numeral.Spells 10 text n.toNat := by
  unfold readBound at h
  dsimp only at h
  split at h
  next => cases h
  next => cases h
  next m hm =>
    split at h
    next hlt =>
      obtain rfl := Except.ok.inj h
      rw [Nat.toUInt32_eq, UInt32.toNat_ofNat_of_lt' hlt]
      exact Numeral.read_eq_ok_iff.1 hm
    next => cases h

/-- A text with a comma in it, split at the first one. -/
theorem eq_append_of_span_comma {lower upper : List Char}
    (h : text.span (· != ',') = (lower, c :: upper)) : text = lower ++ ',' :: upper := by
  rw [List.span_eq_takeWhile_dropWhile] at h
  obtain ⟨rfl, hdrop⟩ := Prod.mk.inj h
  have hc : (c != ',') = false := by
    have hhead := List.head?_dropWhile_not (· != ',') text
    rw [hdrop] at hhead
    exact hhead
  obtain rfl := bne_eq_false_iff_eq.1 hc
  rw [← hdrop, List.takeWhile_append_dropWhile]

/-- **What stands between braces writes the count that is read.** -/
theorem writtenAs_of_readCount {whole : Span} {count : Count}
    (h : readCount whole start text = .ok count) :
    count.WrittenAs ('\x7b' :: (text ++ ['\x7d'])) := by
  unfold readCount at h
  split at h
  next => cases h
  next =>
    split at h
    next digits hspan =>
      obtain ⟨n, hn, rfl⟩ := map_eq_ok_iff.1 h
      exact .exactly (spells_of_readBound hn)
    next => cases h
    next lower d upper _ hspan =>
      rw [eq_append_of_span_comma hspan, List.append_assoc]
      split at h
      next => cases h
      next m hm =>
        split at h
        next hnil =>
          obtain rfl := Except.ok.inj h
          rw [List.isEmpty_iff.1 hnil]
          exact .atLeast (spells_of_readBound hm)
        next =>
          obtain ⟨n, hn, rfl⟩ := map_eq_ok_iff.1 h
          exact .between (spells_of_readBound hm) (spells_of_readBound hn)

/-- **Taking the mark of a lazy quantifier** takes a question mark if
there is one, also half of a piece. -/
theorem takeLazyMark_placeFrom_cases (start : Nat) (ps : List Piece) :
    (∃ isLazy qs, ps = .operator .question isLazy :: qs
      ∧ takeLazyMark start (placeFrom start ps) = (true, start + 1, placeFrom (start + 1)
        (if isLazy then .operator .question false :: qs else qs)))
    ∨ takeLazyMark start (placeFrom start ps) = (false, start, placeFrom start ps) := by
  by_cases hmark : ∃ isLazy qs, ps = .operator .question isLazy :: qs
  · obtain ⟨isLazy, qs, rfl⟩ := hmark
    refine .inl ⟨isLazy, qs, rfl, ?_⟩
    cases isLazy <;> rfl
  · refine .inr ?_
    cases ps with
    | nil => rfl
    | cons p ps =>
      unfold takeLazyMark
      split
      next isLazy _ _ hps =>
        obtain ⟨hp, -⟩ := List.cons.inj hps
        obtain ⟨rfl, -⟩ := PlacedPiece.mk.inj hp
        exact (hmark ⟨isLazy, ps, rfl⟩).elim
      next => rfl

/-- The mark is taken off the front of the text. -/
theorem exists_of_takeLazyMark (hcut : ∀ p ∈ ps, p.IsCut) :
    ∃ isLazy qs, takeLazyMark start (placeFrom start ps)
        = (isLazy, start + Text.byteLength (lazyMark !isLazy),
          placeFrom (start + Text.byteLength (lazyMark !isLazy)) qs)
      ∧ ps.flatMap Piece.text = lazyMark (!isLazy) ++ qs.flatMap Piece.text
      ∧ ∀ q ∈ qs, q.IsCut := by
  obtain ⟨isLazy, qs, rfl, htake⟩ | htake := takeLazyMark_placeFrom_cases start ps
  · have hqs := (List.forall_mem_cons.1 hcut).2
    cases isLazy with
    | true =>
      exact ⟨true, _, htake, rfl, List.forall_mem_cons.2 ⟨Piece.isCut_operator _ _, hqs⟩⟩
    | false => exact ⟨true, _, htake, rfl, hqs⟩
  · exact ⟨false, ps, htake, rfl, hcut⟩

/-! ## Slices -/

theorem isStructure_of_or (h : (c = '(' || c = ')' || c = '|') = true) : IsStructure false c := by
  show c ∈ ['(', ')', '|', '*', '+', '?']
  simp only [Bool.or_eq_true, decide_eq_true_eq] at h
  obtain (rfl | rfl) | rfl := h <;> decide

/-- A plain character that starts nothing stands for itself. -/
theorem isBare_of_ne (hcut : c ≠ '\\' ∧ Operator.ofChar? c = none) (hset : c ≠ '[')
    (hbrace : c ≠ '\x7b') (hstruct : ¬(c = '(' || c = ')' || c = '|') = true) (hdot : c ≠ '.') :
    IsBare false c := by
  obtain ⟨hback, hop⟩ := hcut
  simp only [Bool.or_eq_true, decide_eq_true_eq, not_or] at hstruct
  obtain ⟨⟨hopen, hclose⟩, hpipe⟩ := hstruct
  have hoperator := Piece.ofChar?_eq_none_iff.1 hop
  show c ∉ ['\\', '[', '\x7b', '(', ')', '|', '.', '*', '+', '?']
  simp only [List.mem_cons, List.not_mem_nil, or_false, not_or]
  exact ⟨hback, hset, hbrace, hopen, hclose, hpipe, hdot, hoperator .star, hoperator .plus,
    hoperator .question⟩

/-- What an operator is where it does not stand in a set. -/
theorem slice_ofOperator (op : Operator) (isLazy : Bool) :
    Slice At start (Piece.operator op isLazy).text (ofOperator afterOpen op isLazy) := by
  have hquantity : Slice At start (Piece.operator op isLazy).text
      (ofOperator false op isLazy) := by
    cases isLazy <;> cases op
    · exact .quantity (q := ⟨.zeroOrMore, true⟩) .zeroOrMore
    · exact .quantity (q := ⟨.oneOrMore, true⟩) .oneOrMore
    · exact .quantity (q := ⟨.zeroOrOne, true⟩) .zeroOrOne
    · exact .quantity (q := ⟨.zeroOrMore, false⟩) .zeroOrMore
    · exact .quantity (q := ⟨.oneOrMore, false⟩) .oneOrMore
    · exact .quantity (q := ⟨.zeroOrOne, false⟩) .zeroOrOne
  cases afterOpen with
  | false => exact hquantity
  | true =>
    cases isLazy with
    | true => exact hquantity
    | false =>
      refine .glyph (.structure (show op.char ∈ ['(', ')', '|', '*', '+', '?'] from ?_))
      cases op <;> decide

/-- **All that reading one token can do**: it takes its slice from the
front of the text and leaves the pieces of what is left. -/
inductive Takes (At : Span → Nat → Nat → Prop) (start : Nat) :
    List Char → Token → List PlacedPiece → Prop where
  /-- The slice `u` is taken, the pieces `qs` are left. -/
  | mk {u : List Char} {t : Token} {qs : List Piece} (hne : u ≠ [])
      (hspan : At t.span start (start + Text.byteLength u)) (hkind : Slice At start u t.kind)
      (hcut : ∀ q ∈ qs, q.IsCut) :
      Takes At start (u ++ qs.flatMap Piece.text) t (placeFrom (start + Text.byteLength u) qs)

/-- A text between the character of a piece and a piece that closes. -/
theorem flatMap_text_enclosed (o c : Char) (is qs : List Piece) :
    (plain o :: (is ++ plain c :: qs)).flatMap Piece.text
      = o :: (is.flatMap Piece.text ++ [c]) ++ qs.flatMap Piece.text := by
  rw [List.flatMap_cons, List.flatMap_append, List.flatMap_cons, List.cons_append,
    List.append_assoc]
  rfl

/-- Where a piece ends that closes what a single byte opened. -/
theorem stop_enclosed {o : Char} (ho : Text.byteLength [o] = 1) (start : Nat) (c : Char)
    (s : List Char) : PlacedPiece.stop ⟨plain c, start + 1 + Text.byteLength s⟩
      = start + Text.byteLength (o :: (s ++ [c])) := by
  rw [Text.add_byteLength_enclosed, ho]
  rfl

/-- What stands between two characters of a short text is short. -/
theorem le_of_enclosed {o : Char} {s s' : List Char}
    (h : start + Text.byteLength (o :: (s ++ [c]) ++ s') ≤ limit) :
    start + Text.byteLength [o] + Text.byteLength s ≤ limit := by
  rw [Text.byteLength_append, ← Nat.add_assoc, Text.add_byteLength_enclosed] at h
  exact Nat.le_of_add_right_le (Nat.le_of_add_right_le h)

section Tilings

variable (hAt : ∀ a b, a ≤ b → b ≤ limit → At (.ofOffsets a b) a b)
include hAt

/-! ## Sets -/

/-- **The tokens of a piece between brackets tile it.** -/
theorem tiles_of_ofMember
    (hcut : p.IsCut) (hclose : p ≠ plain ']')
    (hlimit : start + Text.byteLength p.text ≤ limit) (h : ofMember inner ⟨p, start⟩ = .ok ts) :
    Tiles At (fun _ => Glyph true) start p.text ts := by
  have hspan : At (PlacedPiece.span ⟨p, start⟩) start (start + Text.byteLength p.text) :=
    hAt _ _ (Nat.le_add_right _ _) hlimit
  unfold ofMember at h
  cases p with
  | escape c =>
    obtain ⟨t, ht, rfl⟩ := map_eq_ok_iff.1 h
    obtain ⟨hplace, hglyph⟩ := glyph_of_ofEscape ht
    exact .singleton nofun (hplace ▸ hspan) hglyph
  | unicodeEscape digits =>
    obtain ⟨t, ht, rfl⟩ := map_eq_ok_iff.1 h
    obtain ⟨hplace, hglyph⟩ := glyph_of_ofUnicodeEscape ht
    exact .singleton nofun (hplace ▸ hspan) hglyph
  | backslash => cases h
  | operator op isLazy =>
    have hsize : op.char.utf8Size = 1 := by cases op <;> rfl
    cases isLazy with
    | false =>
      obtain rfl := Except.ok.inj h
      exact .singleton nofun hspan (.bare (isBare_char_operator op))
    | true =>
      obtain rfl := Except.ok.inj h
      have hlen : Text.byteLength [op.char] = 1 := by rw [Text.byteLength_cons, hsize]; rfl
      have hall : Text.byteLength (Piece.operator op true).text = 2 := by
        show Text.byteLength ([op.char] ++ ['?']) = 2
        rw [Text.byteLength_append, hlen]
        rfl
      rw [hall] at hlimit hspan
      have hfirst :
          At (.ofOffsets start (start + 1)) start (start + Text.byteLength [op.char]) := by
        rw [hlen]
        exact hAt _ _ (Nat.le_add_right _ _) (by omega)
      have hmark : At (.ofOffsets (start + 1) (PlacedPiece.stop ⟨.operator op true, start⟩))
          (start + Text.byteLength [op.char])
          (start + Text.byteLength [op.char] + Text.byteLength ['?']) := by
        rw [hlen, PlacedPiece.stop, hall, Nat.add_assoc]
        exact hAt _ _ (Nat.add_le_add_left (by decide) start) hlimit
      exact .cons (u := [op.char]) (v := ['?']) nofun hfirst (.bare (isBare_char_operator op))
        (.singleton nofun hmark (.bare (isBare_char_operator .question)))
  | plain c =>
    obtain rfl := Except.ok.inj h
    refine .singleton nofun hspan ?_
    split
    next hdash =>
      rw [Bool.and_eq_true, beq_iff_eq] at hdash
      exact .structure (hdash.1 ▸ (by decide : '-' ∈ ['^', '-']))
    next =>
      refine .bare (show c ∉ ['\\', ']'] from ?_)
      rw [List.mem_cons, List.mem_singleton, not_or]
      exact ⟨(hcut c rfl).1, fun hc => hclose (congrArg plain hc)⟩

/-- The tokens of pieces between brackets tile them. -/
theorem tiles_of_ofMembers
    (hcut : ∀ p ∈ ps, p.IsCut) (hclose : ∀ p ∈ ps, p ≠ plain ']')
    (hlimit : start + Text.byteLength (ps.flatMap Piece.text) ≤ limit)
    (h : ofMembers first (placeFrom start ps) = .ok ts) :
    Tiles At (fun _ => Glyph true) start (ps.flatMap Piece.text) ts := by
  induction ps generalizing first start ts with
  | nil =>
    obtain rfl := Except.ok.inj h
    exact .nil
  | cons p ps ih =>
    obtain ⟨hp, hps⟩ := List.forall_mem_cons.1 hcut
    obtain ⟨hpclose, hpsclose⟩ := List.forall_mem_cons.1 hclose
    rw [List.flatMap_cons, Text.byteLength_append, ← Nat.add_assoc] at hlimit
    rw [placeFrom, ofMembers] at h
    split at h
    next => cases h
    next us hus =>
      obtain ⟨vs, hvs, rfl⟩ := map_eq_ok_iff.1 h
      rw [List.flatMap_cons]
      exact (tiles_of_ofMember hAt hp hpclose (by omega) hus).append (ih hps hpsclose hlimit hvs)

/-- The tokens of what stands between brackets tile it. -/
theorem tiles_of_ofSetInterior
    (hcut : ∀ p ∈ ps, p.IsCut) (hclose : ∀ p ∈ ps, p ≠ plain ']')
    (hlimit : start + Text.byteLength (ps.flatMap Piece.text) ≤ limit)
    (h : ofSetInterior (placeFrom start ps) = .ok ts) :
    Tiles At (fun _ => Glyph true) start (ps.flatMap Piece.text) ts := by
  unfold ofSetInterior at h
  split at h
  next place qs heq =>
    cases ps with
    | nil => cases heq
    | cons p ps =>
      obtain ⟨hp, rfl⟩ := List.cons.inj heq
      obtain ⟨rfl, rfl⟩ := PlacedPiece.mk.inj hp
      obtain ⟨us, hus, rfl⟩ := map_eq_ok_iff.1 h
      rw [List.flatMap_cons, Text.byteLength_append, ← Nat.add_assoc] at hlimit
      rw [List.flatMap_cons]
      have hspan := hAt start (start + Text.byteLength (plain '^').text) (Nat.le_add_right _ _)
        (by omega)
      exact .cons nofun hspan (.structure (by decide : '^' ∈ ['^', '-']))
        (tiles_of_ofMembers hAt (List.forall_mem_cons.1 hcut).2 (List.forall_mem_cons.1 hclose).2
          hlimit hus)
  next => exact tiles_of_ofMembers hAt hcut hclose hlimit h

/-! ## One token -/

/-- The slice is taken, as it may be found. -/
theorem Takes.of_eq {u : List Char} {qs : List Piece} {stop : Nat} (hne : u ≠ [])
    (htext : text = u ++ qs.flatMap Piece.text) (hstop : stop = start + Text.byteLength u)
    (hlimit : start + Text.byteLength text ≤ limit) (hspan : t.span = .ofOffsets start stop)
    (hkind : Slice At start u t.kind) (hcut : ∀ q ∈ qs, q.IsCut) :
    Takes At start text t (placeFrom stop qs) := by
  subst htext hstop
  rw [Text.byteLength_append, ← Nat.add_assoc] at hlimit
  refine .mk hne ?_ hkind hcut
  rw [hspan]
  exact hAt _ _ (Nat.le_add_right _ _) (Nat.le_of_add_right_le hlimit)

/-- A set is taken up to its closing bracket. -/
theorem takes_of_lexSet (hcut : ∀ p ∈ ps, p.IsCut)
    (hlimit : start + Text.byteLength ((plain '[' :: ps).flatMap Piece.text) ≤ limit)
    (h : lexSet ⟨plain '[', start⟩ (placeFrom (start + 1) ps) = .ok (t, rest)) :
    Takes At start ((plain '[' :: ps).flatMap Piece.text) t rest := by
  unfold lexSet at h
  split at h
  next => cases h
  next inner close rest hsplit =>
    obtain ⟨members, hmembers, heq⟩ := map_eq_ok_iff.1 h
    obtain ⟨rfl, rfl⟩ := Prod.mk.inj heq
    obtain ⟨is, qs, rfl, hclose, rfl, rfl, rfl⟩ := PlacedPiece.exists_of_splitAt? hsplit
    obtain ⟨his, hqs⟩ := List.forall_mem_append.1 hcut
    have hstop := stop_enclosed (o := '[') rfl start ']' (is.flatMap Piece.text)
    have hset := tiles_of_ofSetInterior hAt his hclose
      (le_of_enclosed (flatMap_text_enclosed '[' ']' is qs ▸ hlimit)) hmembers
    exact .of_eq hAt (List.cons_ne_nil _ _) (flatMap_text_enclosed _ _ _ _) hstop hlimit rfl
      (.set hset) (List.forall_mem_cons.1 hqs).2

/-- A bounded quantifier is taken up to its closing brace, or up to the
question mark behind it. -/
theorem takes_of_lexQuantity (hcut : ∀ p ∈ ps, p.IsCut)
    (hlimit : start + Text.byteLength ((plain '\x7b' :: ps).flatMap Piece.text) ≤ limit)
    (h : lexQuantity ⟨plain '\x7b', start⟩ (placeFrom (start + 1) ps) = .ok (t, rest)) :
    Takes At start ((plain '\x7b' :: ps).flatMap Piece.text) t rest := by
  unfold lexQuantity at h
  split at h
  next => cases h
  next inner close rest hsplit =>
    obtain ⟨count, hcount, heq⟩ := map_eq_ok_iff.1 h
    obtain ⟨is, qs, rfl, hclose, rfl, rfl, rfl⟩ := PlacedPiece.exists_of_splitAt? hsplit
    have hqs := (List.forall_mem_cons.1 (List.forall_mem_append.1 hcut).2).2
    obtain ⟨isLazy, qs', htake, htext, hqs'⟩ := exists_of_takeLazyMark hqs
    rw [htake] at heq
    obtain ⟨rfl, rfl⟩ := Prod.mk.inj heq
    rw [Piece.flatMap_text_placeFrom] at hcount
    have hslice : Slice At start _ (.quantity ⟨count, !isLazy⟩) :=
      .quantity (writtenAs_of_readCount hcount)
    refine .of_eq hAt (List.append_ne_nil_of_left_ne_nil (List.cons_ne_nil _ _) _) ?_ ?_ hlimit rfl
      hslice hqs'
    · rw [flatMap_text_enclosed, htext, ← List.append_assoc]
    · rw [stop_enclosed (o := '\x7b') rfl, Text.byteLength_append, Nat.add_assoc]

/-- A piece that is a token on its own. -/
theorem takes_of_span (hcut : ∀ q ∈ ps, q.IsCut)
    (hlimit : start + Text.byteLength ((p :: ps).flatMap Piece.text) ≤ limit)
    (hspan : t.span = PlacedPiece.span ⟨p, start⟩) (hkind : Slice At start p.text t.kind) :
    Takes At start ((p :: ps).flatMap Piece.text) t
      (placeFrom (start + Text.byteLength p.text) ps) := by
  have hne : p.text ≠ [] := by cases p <;> exact nofun
  exact .of_eq hAt hne List.flatMap_cons rfl hlimit hspan hkind hcut

/-- **Reading one token takes its slice**, whatever it is. -/
theorem takes_of_lexOne (hcut : ∀ q ∈ p :: ps, q.IsCut)
    (hlimit : start + Text.byteLength ((p :: ps).flatMap Piece.text) ≤ limit)
    (h : lexOne afterOpen ⟨p, start⟩ (placeFrom (start + Text.byteLength p.text) ps)
      = .ok (t, rest)) :
    Takes At start ((p :: ps).flatMap Piece.text) t rest := by
  obtain ⟨hp, hps⟩ := List.forall_mem_cons.1 hcut
  unfold lexOne at h
  cases p with
  | escape c =>
    obtain ⟨u, hu, heq⟩ := map_eq_ok_iff.1 h
    obtain ⟨rfl, rfl⟩ := Prod.mk.inj heq
    obtain ⟨hspan, hglyph⟩ := glyph_of_ofEscape hu
    exact takes_of_span hAt hps hlimit hspan (.glyph hglyph)
  | unicodeEscape digits =>
    obtain ⟨u, hu, heq⟩ := map_eq_ok_iff.1 h
    obtain ⟨rfl, rfl⟩ := Prod.mk.inj heq
    obtain ⟨hspan, hglyph⟩ := glyph_of_ofUnicodeEscape hu
    exact takes_of_span hAt hps hlimit hspan (.glyph hglyph)
  | backslash => cases h
  | operator op isLazy =>
    obtain ⟨rfl, rfl⟩ := Prod.mk.inj (Except.ok.inj h)
    exact takes_of_span hAt hps hlimit rfl (slice_ofOperator op isLazy)
  | plain c =>
    dsimp only at h
    split at h
    next hset =>
      subst hset
      exact takes_of_lexSet hAt hps hlimit h
    next hset =>
      split at h
      next hbrace =>
        subst hbrace
        exact takes_of_lexQuantity hAt hps hlimit h
      next hbrace =>
        split at h
        next hstruct =>
          obtain ⟨rfl, rfl⟩ := Prod.mk.inj (Except.ok.inj h)
          exact takes_of_span hAt hps hlimit rfl (.glyph (.structure (isStructure_of_or hstruct)))
        next hstruct =>
          split at h
          next hdot =>
            obtain ⟨rfl, rfl⟩ := Prod.mk.inj (Except.ok.inj h)
            subst hdot
            exact takes_of_span hAt hps hlimit rfl .dot
          next hdot =>
            obtain ⟨rfl, rfl⟩ := Prod.mk.inj (Except.ok.inj h)
            exact takes_of_span hAt hps hlimit rfl
              (.glyph (.bare (isBare_of_ne (hp c rfl) hset hbrace hstruct hdot)))

/-! ## The whole pattern -/

/-- **Every token of a text takes its slice**, so the tokens tile it. -/
theorem tiles_of_lexPieces (hcut : ∀ q ∈ ps, q.IsCut)
    (hlimit : start + Text.byteLength (ps.flatMap Piece.text) ≤ limit)
    (h : lexPieces afterOpen (placeFrom start ps) = .ok ts) :
    Tiles At (Slice At) start (ps.flatMap Piece.text) ts := by
  -- a token may take several pieces, so the induction is on the tokens
  induction ts generalizing afterOpen start ps with
  | nil =>
    cases ps with
    | nil => exact .nil
    | cons p ps => cases lexPieces_eq_ok_nil_iff.1 h
  | cons t ts ih =>
    obtain ⟨p, qs, rest, hps, hone, hrest⟩ := lexPieces_eq_ok_cons_iff.1 h
    cases ps with
    | nil => cases hps
    | cons p ps =>
      obtain ⟨rfl, rfl⟩ := List.cons.inj hps
      have htakes := takes_of_lexOne hAt hcut hlimit hone
      generalize (p :: ps).flatMap Piece.text = text at hlimit htakes
      cases htakes with
      | mk hne hspan hkind hqs =>
        rw [Text.byteLength_append, ← Nat.add_assoc] at hlimit
        exact .cons hne hspan hkind (ih hqs hlimit hrest)

end Tilings

/-! ## Groups -/

variable {ns : List Token}

/-- A span covers all from the start of the first to the end of the last
one. -/
theorem covers_cover {o c : Span} {stop start' stop' : Nat} (ho : o.Covers start stop)
    (hc : c.Covers start' stop') (hstart : start ≤ start') (hstop : stop ≤ stop') :
    (o.cover c).Covers start stop' := by
  obtain ⟨hostart, hostop⟩ := Prod.mk.inj ho
  obtain ⟨hcstart, hcstop⟩ := Prod.mk.inj hc
  refine Prod.ext ?_ ?_
  · show (min o.start c.start).toNat = start
    rw [UInt32.toNat_min, hostart, hcstart, Nat.min_eq_left hstart]
  · show (max o.stop c.stop).toNat = stop'
    rw [UInt32.toNat_max, hostop, hcstop, Nat.max_eq_right hstop]

/-- The slice of a structuring character is this character. -/
theorem eq_singleton_of_slice (h : Slice At start text (.entity c)) : text = [c] := by
  cases h with
  | glyph h =>
    cases h
    rfl

theorem kind_ne_entity (h : t.isEntity c = false) : t.kind ≠ .entity c := by
  intro hkind
  rw [isEntity, hkind] at h
  exact Bool.eq_false_iff.1 h (beq_self_eq_true c)

/-- **Matching parentheses keeps the tiling.** -/
theorem tiles_of_nests (h : Nests ts ns)
    (htiles : Tiles Span.Covers (Slice Span.Covers) start text ts) :
    Tiles Span.Covers (NestedSlice Span.Covers) start text ns := by
  induction h generalizing start text with
  | nil =>
    cases htiles
    exact .nil
  | keep ho hc _ ih =>
    cases htiles with
    | cons hne hspan hkind htiles =>
      exact .cons hne hspan (.slice (kind_ne_entity ho) (kind_ne_entity hc) hkind) (ih htiles)
  | @group o c _ _ _ _ ho hc _ _ ihin ih =>
    cases htiles with
    | @cons _ w _ _ _ _ hopen hparen htiles =>
      obtain ⟨u, v, rfl, hin, hout⟩ := htiles.exists_append
      cases hout with
      | @cons _ w' v _ _ _ hclose hparen' hrest =>
        rw [kind_of_isEntity ho] at hparen
        rw [kind_of_isEntity hc] at hparen'
        obtain rfl := eq_singleton_of_slice hparen
        obtain rfl := eq_singleton_of_slice hparen'
        have htext : ['('] ++ (u ++ ([')'] ++ v)) = '(' :: (u ++ [')']) ++ v := by
          rw [← List.append_assoc u, ← List.append_assoc]
          rfl
        rw [← Text.add_byteLength_enclosed] at hclose hrest
        have hspan := covers_cover hopen hclose (by omega)
          (by rw [Text.add_byteLength_enclosed]; omega)
        rw [htext]
        exact .cons (List.cons_ne_nil _ _) hspan (.group (ihin hin)) (ih hrest)

end Token

namespace Pattern

open Token (Tiles Slice NestedSlice)

variable {pattern : String} {ts : List Token}

/-- **Lexing loses no text**, and neither does matching parentheses: the
tokens of a pattern tile it, each has the span of its slice, and each says
what its slice says. -/
theorem tiles_of_lex (hsize : pattern.utf8ByteSize < UInt32.size) (h : lex pattern = .ok ts) :
    Tiles Span.Covers (Slice Span.Covers) 0 pattern.toList ts
      ∧ ∀ ns, Token.nest ts = .ok ns →
        Tiles Span.Covers (NestedSlice Span.Covers) 0 pattern.toList ns := by
  rw [← Text.byteLength_toList] at hsize
  have hAt : ∀ a b, a ≤ b → b ≤ Text.byteLength pattern.toList → (Span.ofOffsets a b).Covers a b :=
    fun a b hab hb => Span.offsets_ofOffsets
      (Nat.lt_of_le_of_lt (Nat.le_trans hab hb) hsize) (Nat.lt_of_le_of_lt hb hsize)
  have htext := Piece.join_scan pattern.toList
  have hlimit : 0 + Text.byteLength ((scan pattern.toList).flatMap Piece.text)
      ≤ Text.byteLength pattern.toList :=
    Nat.le_of_eq (by rw [htext, Nat.zero_add])
  have htiles := Token.tiles_of_lexPieces hAt (Piece.isCut_of_mem_scan pattern.toList) hlimit
    (lex_eq_ok_iff.1 h)
  rw [htext] at htiles
  exact ⟨htiles, fun ns hns => Token.tiles_of_nests (Token.nest_eq_ok_iff.1 hns) htiles⟩

/-- A character of two bytes, two pieces that are cut apart again, and a
group. -/
theorem tiles_of_lex_fused :
    let pattern := "é[*?-z](\\w\x7b2\x7d??)"
    let inner : List Token := [⟨.metaChar .word, ⟨9, 11⟩⟩,
      ⟨.quantity ⟨.exactly 2, false⟩, ⟨11, 15⟩⟩, ⟨.quantity ⟨.zeroOrOne, true⟩, ⟨15, 16⟩⟩]
    let set : Token := ⟨.charSet [⟨.char '*', ⟨3, 4⟩⟩, ⟨.char '?', ⟨4, 5⟩⟩, ⟨.entity '-', ⟨5, 6⟩⟩,
      ⟨.char 'z', ⟨6, 7⟩⟩], ⟨2, 8⟩⟩
    let ts := ⟨.char 'é', ⟨0, 2⟩⟩ :: set :: ⟨.entity '(', ⟨8, 9⟩⟩
      :: (inner ++ [⟨.entity ')', ⟨16, 17⟩⟩])
    let ns := [⟨.char 'é', ⟨0, 2⟩⟩, set, ⟨.group inner, ⟨8, 17⟩⟩]
    pattern.utf8ByteSize < UInt32.size ∧ lex pattern = .ok ts ∧ Token.nest ts = .ok ns
      ∧ Tiles Span.Covers (Slice Span.Covers) 0 pattern.toList ts
      ∧ Tiles Span.Covers (NestedSlice Span.Covers) 0 pattern.toList ns := by
  intro pattern inner set ts ns
  have hsize : pattern.utf8ByteSize < UInt32.size := by decide
  have htext : pattern.toList = ['é', '[', '*', '?', '-', 'z', ']', '(', '\\', 'w', '\x7b', '2',
      '\x7d', '?', '?', ')'] := by decide
  have hlex : Token.lex pattern.toList = .ok ts := by
    rw [htext]
    with_unfolding_all rfl
  have hlex := lex_eq_ok_iff.2 hlex
  have hnest : Token.nest ts = .ok ns := rfl
  obtain ⟨htiles, hnested⟩ := tiles_of_lex hsize hlex
  exact ⟨hsize, hlex, hnest, htiles, hnested ns hnest⟩

end Pattern

end Regexp
