import Regexp.Token.Lexer

/-!
# Reading tokens somewhere else

Where a text stands changes nothing but the offsets: the tokens of pieces
that are shifted are the same tokens, shifted, and so is the error if they
cannot be read (`Token.lexPieces_shift`). Nor do the pieces behind a text
change its tokens, unless the first of them is a question mark
(`Token.lexPieces_append`), nor does an opening parenthesis in front,
unless an operator follows (`Token.lexPieces_afterOpen`).
-/

namespace Regexp

/-! ## Shifting -/

/-- The span, shifted. -/
def Span.shift (d : Nat) (a : Span) : Span :=
  ⟨a.start + d.toUInt32, a.stop + d.toUInt32⟩

@[simp] theorem Span.shift_ofOffsets (d start stop : Nat) :
    (ofOffsets start stop).shift d = ofOffsets (start + d) (stop + d) := by
  unfold shift ofOffsets
  simp only [Nat.toUInt32_eq, UInt32.ofNat_add]

/-- The fault at a shifted place. -/
def Located.shift {φ : Type} (d : Nat) (e : Located φ) : Located φ :=
  ⟨e.fault, e.span.shift d⟩

namespace Token

mutual

/-- The token at a shifted place, together with the tokens that it
holds. -/
def shift (d : Nat) : Token → Token
  | ⟨.charSet members, span⟩ => ⟨.charSet (shiftAll d members), span.shift d⟩
  | ⟨.group tokens, span⟩ => ⟨.group (shiftAll d tokens), span.shift d⟩
  | ⟨.char c, span⟩ => ⟨.char c, span.shift d⟩
  | ⟨.unicode codePoint width, span⟩ => ⟨.unicode codePoint width, span.shift d⟩
  | ⟨.metaChar m, span⟩ => ⟨.metaChar m, span.shift d⟩
  | ⟨.entity c, span⟩ => ⟨.entity c, span.shift d⟩
  | ⟨.quantity q, span⟩ => ⟨.quantity q, span.shift d⟩

/-- The tokens at a shifted place. -/
def shiftAll (d : Nat) : List Token → List Token
  | [] => []
  | t :: ts => shift d t :: shiftAll d ts

end

theorem shiftAll_eq_map (d : Nat) (ts : List Token) : shiftAll d ts = ts.map (shift d) := by
  induction ts with
  | nil => rfl
  | cons t ts ih => rw [shiftAll, ih, List.map_cons]

/-- The token structures the pattern as it did. -/
@[simp] theorem isEntity_shift (d : Nat) (t : Token) (c : Char) :
    (t.shift d).isEntity c = t.isEntity c := by
  obtain ⟨kind, span⟩ := t
  cases kind <;> rfl

end Token

namespace PlacedPiece

/-- The piece at a shifted place. -/
def shift (d : Nat) (p : PlacedPiece) : PlacedPiece :=
  ⟨p.piece, p.start + d⟩

variable {d : Nat} {p : PlacedPiece}

@[simp] theorem piece_shift : (p.shift d).piece = p.piece := rfl

@[simp] theorem start_shift : (p.shift d).start = p.start + d := rfl

@[simp] theorem stop_shift : (p.shift d).stop = p.stop + d :=
  Nat.add_right_comm _ _ _

@[simp] theorem span_shift : (p.shift d).span = p.span.shift d := by
  unfold span
  rw [Span.shift_ofOffsets, stop_shift, start_shift]

end PlacedPiece

theorem Piece.placeFrom_add (d start : Nat) (ps : List Piece) :
    placeFrom (start + d) ps = (placeFrom start ps).map (PlacedPiece.shift d) := by
  induction ps generalizing start with
  | nil => rfl
  | cons p ps ih =>
    rw [placeFrom, placeFrom, List.map_cons, ← ih, Nat.add_right_comm]
    rfl

namespace LexResult

variable {α β γ : Type} {d : Nat} {r : LexResult α}

/-- **The outcome at a shifted place**: an error is shifted, and what is
read is changed by `f`. -/
def relocate (d : Nat) (f : α → β) : LexResult α → LexResult β
  | .ok a => .ok (f a)
  | .error e => .error (e.shift d)

theorem relocate_ok (f : α → β) (a : α) : relocate d f (.ok a) = .ok (f a) := rfl

theorem map_relocate (f : α → β) (g : β → γ) (r : LexResult α) :
    (relocate d f r).map g = relocate d (fun a => g (f a)) r := by
  cases r <;> rfl

theorem relocate_map (f : α → β) (g : β → γ) (r : LexResult α) :
    relocate d g (r.map f) = relocate d (fun a => g (f a)) r := by
  cases r <;> rfl

end LexResult

open LexResult (relocate relocate_ok map_relocate relocate_map)

namespace Token

variable {d : Nat} {inSet inner first afterOpen : Bool} {p : PlacedPiece} {ps qs : List PlacedPiece}
variable {c : Char} {digits text : List Char}

/-! ## Shifted characters -/

theorem reject_shift {α β : Type} (f : α → β) (fault : LexFault) :
    (p.shift d).reject fault = relocate d f (p.reject fault) := by
  unfold PlacedPiece.reject
  rw [PlacedPiece.span_shift]
  rfl

theorem ofEscape_shift :
    ofEscape inSet (p.shift d) c = relocate d (shift d) (ofEscape inSet p c) := by
  unfold ofEscape
  rw [PlacedPiece.span_shift]
  split
  next => rfl
  next =>
    split
    next => rfl
    next => split <;> exact reject_shift _ _

theorem ofUnicodeEscape_shift :
    ofUnicodeEscape (p.shift d) digits = relocate d (shift d) (ofUnicodeEscape p digits) := by
  unfold ofUnicodeEscape
  rw [PlacedPiece.span_shift]
  split
  next =>
    split
    next => exact reject_shift _ _
    next => exact reject_shift _ _
    next =>
      split
      next => rfl
      next => exact reject_shift _ _
  next => exact reject_shift _ _

/-! ## Shifted sets -/

theorem ofMember_shift :
    ofMember inner (p.shift d) = relocate d (List.map (shift d)) (ofMember inner p) := by
  obtain ⟨piece, start⟩ := p
  unfold ofMember
  cases piece with
  | escape c =>
    show (ofEscape true (PlacedPiece.shift d _) c).map _ = relocate d _ ((ofEscape true _ c).map _)
    rw [ofEscape_shift, map_relocate, relocate_map]
    rfl
  | unicodeEscape digits =>
    show (ofUnicodeEscape (PlacedPiece.shift d _) digits).map _
      = relocate d _ ((ofUnicodeEscape _ digits).map _)
    rw [ofUnicodeEscape_shift, map_relocate, relocate_map]
    rfl
  | backslash => exact reject_shift _ _
  | operator op isLazy =>
    cases isLazy with
    | true =>
      dsimp only [PlacedPiece.piece_shift]
      rw [PlacedPiece.start_shift, PlacedPiece.stop_shift, Nat.add_right_comm start d 1]
      simp only [relocate, List.map_cons, List.map_nil, shift, Span.shift_ofOffsets]
    | false =>
      dsimp only [PlacedPiece.piece_shift]
      rw [PlacedPiece.span_shift]
      rfl
  | plain c =>
    dsimp only [PlacedPiece.piece_shift]
    rw [PlacedPiece.span_shift]
    split <;> rfl

theorem ofMembers_shift :
    ofMembers first (ps.map (PlacedPiece.shift d))
      = relocate d (List.map (shift d)) (ofMembers first ps) := by
  induction ps generalizing first with
  | nil => rfl
  | cons p ps ih =>
    rw [List.map_cons, ofMembers, ofMembers, List.isEmpty_map, ofMember_shift, ih]
    cases ofMember (!first && !ps.isEmpty) p with
    | error e => rfl
    | ok ts =>
      show (relocate d _ _).map _ = relocate d _ (Except.map _ _)
      rw [map_relocate, relocate_map]
      simp only [List.map_append]

theorem ofSetInterior_circumflex (start : Nat) (ps : List PlacedPiece) :
    ofSetInterior (⟨.plain '^', start⟩ :: ps)
      = (ofMembers true ps).map (⟨.entity '^', PlacedPiece.span ⟨.plain '^', start⟩⟩ :: ·) := rfl

theorem ofSetInterior_cons_of_ne (h : p.piece ≠ .plain '^') (ps : List PlacedPiece) :
    ofSetInterior (p :: ps) = ofMembers true (p :: ps) := by
  unfold ofSetInterior
  split
  next heq =>
    obtain ⟨rfl, -⟩ := List.cons.inj heq
    exact (h rfl).elim
  next => rfl

theorem ofSetInterior_shift :
    ofSetInterior (ps.map (PlacedPiece.shift d))
      = relocate d (List.map (shift d)) (ofSetInterior ps) := by
  match ps with
  | [] => rfl
  | ⟨piece, start⟩ :: ps =>
    rw [List.map_cons]
    by_cases hpiece : piece = .plain '^'
    · subst hpiece
      have hshift : PlacedPiece.shift d ⟨.plain '^', start⟩ = ⟨.plain '^', start + d⟩ := rfl
      rw [hshift, ofSetInterior_circumflex, ofSetInterior_circumflex, ofMembers_shift, map_relocate,
        relocate_map, ← hshift, PlacedPiece.span_shift]
      rfl
    · rw [ofSetInterior_cons_of_ne hpiece, ofSetInterior_cons_of_ne hpiece, ← List.map_cons,
        ofMembers_shift]

theorem splitAt?_shift (close : Char) :
    PlacedPiece.splitAt? close (ps.map (PlacedPiece.shift d))
      = (PlacedPiece.splitAt? close ps).map fun (inner, q, rest) =>
        (inner.map (PlacedPiece.shift d), q.shift d, rest.map (PlacedPiece.shift d)) := by
  induction ps with
  | nil => rfl
  | cons p ps ih =>
    rw [List.map_cons, PlacedPiece.splitAt?, PlacedPiece.splitAt?, ih, PlacedPiece.piece_shift]
    split
    next => rfl
    next => rw [Option.map_map, Option.map_map]; rfl

theorem stopOfLast_shift :
    (p.shift d).stopOfLast (ps.map (PlacedPiece.shift d)) = p.stopOfLast ps + d := by
  unfold PlacedPiece.stopOfLast
  rw [List.getLastD_map, PlacedPiece.stop_shift]

/-- **What is read and what is left**, shifted. -/
def shiftRead (d : Nat) (r : Token × List PlacedPiece) : Token × List PlacedPiece :=
  (r.1.shift d, r.2.map (PlacedPiece.shift d))

theorem lexSet_shift :
    lexSet (p.shift d) (ps.map (PlacedPiece.shift d)) = relocate d (shiftRead d) (lexSet p ps) := by
  unfold lexSet
  rw [splitAt?_shift]
  cases PlacedPiece.splitAt? ']' ps with
  | none =>
    dsimp only [Option.map_none]
    rw [stopOfLast_shift, PlacedPiece.start_shift, ← Span.shift_ofOffsets]
    rfl
  | some found =>
    obtain ⟨inner, close, rest⟩ := found
    dsimp only [Option.map_some]
    rw [ofSetInterior_shift, map_relocate, relocate_map, PlacedPiece.start_shift,
      PlacedPiece.stop_shift, ← Span.shift_ofOffsets]
    simp only [shiftRead, shift, shiftAll_eq_map]

/-! ## Shifted bounded quantifiers -/

theorem readBound_shift (start : Nat) :
    readBound (start + d) text = relocate d id (readBound start text) := by
  unfold readBound
  rw [Nat.add_right_comm, ← Span.shift_ofOffsets]
  dsimp only
  split
  next => rfl
  next => rfl
  next => split <;> rfl

theorem readCount_shift (whole : Span) (start : Nat) :
    readCount (whole.shift d) (start + d) text = relocate d id (readCount whole start text) := by
  unfold readCount
  split
  next => rfl
  next =>
    split
    next =>
      rw [readBound_shift, map_relocate, relocate_map]
      rfl
    next => rfl
    next =>
      rw [readBound_shift]
      cases readBound start _ with
      | error e => rfl
      | ok m =>
        rw [relocate_ok]
        dsimp only [id]
        split
        next => rfl
        next =>
          rw [Nat.add_right_comm start d, Nat.add_right_comm _ d 1, readBound_shift, map_relocate,
            relocate_map]
          rfl

/-- Whether a quantifier is lazy does not depend on places. -/
theorem takeLazyMark_shift (stop : Nat) :
    takeLazyMark (stop + d) (ps.map (PlacedPiece.shift d))
      = ((takeLazyMark stop ps).1, (takeLazyMark stop ps).2.1 + d,
        (takeLazyMark stop ps).2.2.map (PlacedPiece.shift d)) := by
  match ps with
  | [] => rfl
  | ⟨.operator .question isLazy, start⟩ :: ps =>
    have hplace : start + d + 1 = start + 1 + d := Nat.add_right_comm _ _ _
    cases isLazy with
    | true =>
      exact congrArg (fun n => (true, n, (⟨.operator .question false, n⟩ : PlacedPiece)
        :: ps.map (PlacedPiece.shift d))) hplace
    | false => exact congrArg (fun n => (true, n, ps.map (PlacedPiece.shift d))) hplace
  | ⟨.operator .star _, _⟩ :: _ => rfl
  | ⟨.operator .plus _, _⟩ :: _ => rfl
  | ⟨.unicodeEscape _, _⟩ :: _ => rfl
  | ⟨.escape _, _⟩ :: _ => rfl
  | ⟨.backslash, _⟩ :: _ => rfl
  | ⟨.plain _, _⟩ :: _ => rfl

theorem lexQuantity_shift :
    lexQuantity (p.shift d) (ps.map (PlacedPiece.shift d))
      = relocate d (shiftRead d) (lexQuantity p ps) := by
  unfold lexQuantity
  rw [splitAt?_shift]
  cases PlacedPiece.splitAt? '\x7d' ps with
  | none =>
    dsimp only [Option.map_none]
    rw [stopOfLast_shift, PlacedPiece.start_shift, ← Span.shift_ofOffsets]
    rfl
  | some found =>
    obtain ⟨inner, close, rest⟩ := found
    dsimp only [Option.map_some]
    rw [List.flatMap_map, PlacedPiece.start_shift, PlacedPiece.stop_shift, PlacedPiece.stop_shift,
      ← Span.shift_ofOffsets, readCount_shift, map_relocate, relocate_map, takeLazyMark_shift]
    simp only [shiftRead, shift, Span.shift_ofOffsets, PlacedPiece.piece_shift, id]

/-! ## The whole pattern -/

theorem lexOne_shift :
    lexOne afterOpen (p.shift d) (ps.map (PlacedPiece.shift d))
      = relocate d (shiftRead d) (lexOne afterOpen p ps) := by
  unfold lexOne
  rw [PlacedPiece.piece_shift, PlacedPiece.span_shift]
  split
  next => rw [ofEscape_shift, map_relocate, relocate_map]; rfl
  next => rw [ofUnicodeEscape_shift, map_relocate, relocate_map]; rfl
  next => exact reject_shift _ _
  next op isLazy _ =>
    unfold ofOperator
    split <;> rfl
  next =>
    split
    next => exact lexSet_shift
    next =>
      split
      next => exact lexQuantity_shift
      next =>
        split
        next => rfl
        next => split <;> rfl

/-- **Where the pieces stand changes the offsets only.** -/
theorem lexPieces_shift :
    lexPieces afterOpen (ps.map (PlacedPiece.shift d))
      = relocate d (List.map (shift d)) (lexPieces afterOpen ps) := by
  induction hn : ps.length using Nat.strongRecOn generalizing afterOpen ps with
  | ind n ih =>
    cases ps with
    | nil =>
      rw [List.map_nil, lexPieces_nil]
      rfl
    | cons p ps =>
      rw [List.map_cons, lexPieces_cons, lexPieces_cons, lexOne_shift]
      cases hone : lexOne afterOpen p ps with
      | error e => rfl
      | ok r =>
        obtain ⟨t, rest⟩ := r
        have hlt : rest.length < n := hn ▸ Nat.lt_succ_of_le (length_lexOne hone)
        rw [relocate_ok]
        dsimp only [shiftRead]
        rw [isEntity_shift, ih _ hlt rfl, map_relocate, relocate_map]
        rfl

/-- A text that starts at an offset. -/
theorem lexPieces_placeFrom (afterOpen : Bool) (start : Nat) (ps : List Piece) :
    lexPieces afterOpen (Piece.placeFrom start ps)
      = relocate start (List.map (shift start)) (lexPieces afterOpen (Piece.placeFrom 0 ps)) := by
  have hplace := Piece.placeFrom_add start 0 ps
  rw [Nat.zero_add] at hplace
  rw [hplace, lexPieces_shift]

/-! ## Pieces behind a text -/

variable {inner rest : List PlacedPiece} {q : PlacedPiece} {t : Token} {ts : List Token}

theorem splitAt?_append {close : Char} (h : PlacedPiece.splitAt? close ps = some (inner, q, rest))
    (qs : List PlacedPiece) :
    PlacedPiece.splitAt? close (ps ++ qs) = some (inner, q, rest ++ qs) := by
  induction ps generalizing inner with
  | nil => cases h
  | cons p ps ih =>
    rw [PlacedPiece.splitAt?] at h
    rw [List.cons_append, PlacedPiece.splitAt?]
    split at h
    next hp =>
      obtain ⟨rfl, htail⟩ := Prod.mk.inj (Option.some.inj h)
      obtain ⟨rfl, rfl⟩ := Prod.mk.inj htail
      exact if_pos hp
    next hp =>
      obtain ⟨⟨inner', q', rest'⟩, h', heq⟩ := Option.map_eq_some_iff.1 h
      obtain ⟨rfl, htail⟩ := Prod.mk.inj heq
      obtain ⟨rfl, rfl⟩ := Prod.mk.inj htail
      rw [if_neg hp, ih h']
      rfl

/-- **The pieces start with a question mark**, which would make a
quantifier before them lazy. -/
def StartsWithMark (qs : List PlacedPiece) : Prop :=
  ∃ isLazy start rest, qs = ⟨.operator .question isLazy, start⟩ :: rest

theorem takeLazyMark_of_not (h : ¬ StartsWithMark qs) (stop : Nat) :
    takeLazyMark stop qs = (false, stop, qs) := by
  unfold takeLazyMark
  split
  next isLazy start rest => exact (h ⟨isLazy, start, rest, rfl⟩).elim
  next => rfl

theorem takeLazyMark_append (hqs : ¬ StartsWithMark qs) (stop : Nat) (ps : List PlacedPiece) :
    takeLazyMark stop (ps ++ qs)
      = ((takeLazyMark stop ps).1, (takeLazyMark stop ps).2.1,
        (takeLazyMark stop ps).2.2 ++ qs) := by
  by_cases hps : StartsWithMark ps
  · obtain ⟨isLazy, start, rest, rfl⟩ := hps
    cases isLazy <;> rfl
  · rw [takeLazyMark_of_not hps]
    cases ps with
    | nil => exact takeLazyMark_of_not hqs stop
    | cons p ps =>
      refine takeLazyMark_of_not ?_ stop
      rintro ⟨isLazy, start, rest, heq⟩
      obtain ⟨rfl, -⟩ := List.cons.inj heq
      exact hps ⟨isLazy, start, ps, rfl⟩

theorem lexSet_append (qs : List PlacedPiece) (h : lexSet p ps = .ok (t, rest)) :
    lexSet p (ps ++ qs) = .ok (t, rest ++ qs) := by
  unfold lexSet at h ⊢
  split at h
  next => cases h
  next inner close rest hsplit =>
    obtain ⟨members, hmembers, heq⟩ := map_eq_ok_iff.1 h
    obtain ⟨rfl, rfl⟩ := Prod.mk.inj heq
    rw [splitAt?_append hsplit]
    dsimp only
    rw [hmembers]
    rfl

theorem lexQuantity_append (hqs : ¬ StartsWithMark qs) (h : lexQuantity p ps = .ok (t, rest)) :
    lexQuantity p (ps ++ qs) = .ok (t, rest ++ qs) := by
  unfold lexQuantity at h ⊢
  split at h
  next => cases h
  next inner close rest hsplit =>
    obtain ⟨count, hcount, heq⟩ := map_eq_ok_iff.1 h
    obtain ⟨rfl, rfl⟩ := Prod.mk.inj heq
    rw [splitAt?_append hsplit]
    dsimp only
    rw [hcount, takeLazyMark_append hqs]
    rfl

/-- **What is read as one token is read as this token, whatever
follows.** -/
theorem lexOne_append (hqs : ¬ StartsWithMark qs) (h : lexOne afterOpen p ps = .ok (t, rest)) :
    lexOne afterOpen p (ps ++ qs) = .ok (t, rest ++ qs) := by
  -- all but sets and bounded quantifiers leave the pieces behind them alone
  have alone {r : LexResult Token} (hr : r.map (·, ps) = .ok (t, rest)) :
      r.map (·, ps ++ qs) = .ok (t, rest ++ qs) := by
    obtain ⟨u, rfl, heq⟩ := map_eq_ok_iff.1 hr
    obtain ⟨rfl, rfl⟩ := Prod.mk.inj heq
    rfl
  unfold lexOne at h ⊢
  split at h
  next => exact alone h
  next => exact alone h
  next => cases h
  next => exact alone (r := .ok _) h
  next =>
    split at h
    next hset =>
      rw [if_pos hset]
      exact lexSet_append qs h
    next hset =>
      rw [if_neg hset]
      split at h
      next hbrace =>
        rw [if_pos hbrace]
        exact lexQuantity_append hqs h
      next hbrace =>
        rw [if_neg hbrace]
        split at h
        next hstruct => exact (if_pos hstruct).trans (alone (r := .ok _) h)
        next hstruct =>
          rw [if_neg hstruct]
          split at h
          next hdot => exact (if_pos hdot).trans (alone (r := .ok _) h)
          next hdot => exact (if_neg hdot).trans (alone (r := .ok _) h)

/-- Whether an opening parenthesis stands right behind the tokens, if
`afterOpen` says whether one stands right before. -/
def endsOpen (afterOpen : Bool) : List Token → Bool
  | [] => afterOpen
  | t :: ts => endsOpen (t.isEntity '(') ts

/-- **The pieces behind a text do not change its tokens**, unless the first
one is a question mark. -/
theorem lexPieces_append (hqs : ¬ StartsWithMark qs) (h : lexPieces afterOpen ps = .ok ts) :
    lexPieces afterOpen (ps ++ qs) = (lexPieces (endsOpen afterOpen ts) qs).map (ts ++ ·) := by
  induction ts generalizing afterOpen ps with
  | nil =>
    obtain rfl := lexPieces_eq_ok_nil_iff.1 h
    show lexPieces afterOpen qs = (lexPieces afterOpen qs).map id
    cases lexPieces afterOpen qs <;> rfl
  | cons t ts ih =>
    obtain ⟨p, ps, rest, rfl, hone, hrest⟩ := lexPieces_eq_ok_cons_iff.1 h
    rw [List.cons_append, lexPieces_cons, lexOne_append hqs hone]
    dsimp only
    rw [ih hrest, map_map]
    rfl

/-- **An opening parenthesis in front does not change the tokens** of
pieces that do not start with an operator. -/
theorem lexPieces_afterOpen (h : ∀ op, p.piece ≠ .operator op false) (afterOpen : Bool) :
    lexPieces afterOpen (p :: ps) = lexPieces false (p :: ps) := by
  have hone : lexOne afterOpen p ps = lexOne false p ps := by
    unfold lexOne
    split
    next => rfl
    next => rfl
    next => rfl
    next op isLazy hp =>
      cases isLazy with
      | true =>
        unfold ofOperator
        rw [Bool.not_true, Bool.and_false, Bool.and_false]
      | false => exact (h op hp).elim
    next => rfl
  rw [lexPieces_cons, lexPieces_cons, hone]

end Token

end Regexp
