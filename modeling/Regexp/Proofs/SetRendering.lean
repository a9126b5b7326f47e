import Regexp.Proofs.Lexeme

/-!
# Reading rendered sets

What a set is rendered as is a lexeme (`Token.lexeme_set`). Which
characters need a backslash depends on where an item stands, and the
lexer decides on pieces: the first and the last piece are told apart from
those between, and two operators next to each other are one piece. The
renderer decides item by item instead. With the operators taken apart
(`Piece.singles`) each letter is one piece, and both see the same
positions.
-/

namespace Regexp

open Piece (placeFrom scan singles single plain)

/-- Whether the piece may stand between brackets: it is complete and does
not close the set. -/
def Piece.IsInner (p : Piece) : Prop := p.IsComplete ∧ p ≠ plain ']'

theorem SetItem.IsWritten.ne_dot {i : SetItem} (hi : i.IsWritten) : i ≠ .metaChar .dot := by
  rintro rfl
  exact hi rfl

namespace Token

variable {ts : List Token} {is : List SetItem} {a b : Letter} {c : Char}
variable {inner first edge : Bool} {s rest : List Char}

/-! ## Members of sets, character by character -/

theorem isEmpty_placeFrom (start : Nat) (ps : List Piece) :
    (placeFrom start ps).isEmpty = ps.isEmpty := by
  cases ps <;> rfl

theorem isEmpty_flatMap_single (ps : List Piece) : (ps.flatMap single).isEmpty = ps.isEmpty := by
  cases ps with
  | nil => rfl
  | cons p ps =>
    cases p with
    | operator op isLazy => cases isLazy <;> rfl
    | _ => rfl

theorem ofMembers_cons (first : Bool) (p : PlacedPiece) (ps : List PlacedPiece)
    (h : ofMember (!first && !ps.isEmpty) p = .ok ts) :
    ofMembers first (p :: ps) = (ofMembers false ps).map (ts ++ ·) := by
  rw [ofMembers, h]

/-- **Inside a set an operator and its question mark may as well be cut
apart.** -/
theorem ofMembers_flatMap_single (first : Bool) (start : Nat) (ps : List Piece) :
    ofMembers first (placeFrom start (ps.flatMap single))
      = ofMembers first (placeFrom start ps) := by
  induction ps generalizing first start with
  | nil => rfl
  | cons p ps ih =>
    by_cases hp : ∃ op, p = .operator op true
    · obtain ⟨op, rfl⟩ := hp
      -- two characters either way, and neither is a dash
      show ofMembers first (⟨.operator op false, start⟩
        :: ⟨.operator .question false, _⟩ :: placeFrom _ (ps.flatMap single)) = _
      rw [ofMembers_cons _ _ _ rfl, ofMembers_cons _ _ _ rfl, ih, placeFrom,
        ofMembers_cons first _ _ rfl, map_map]
      cases op <;> rfl
    · rw [List.flatMap_cons, Piece.single_of_ne fun op hop => hp ⟨op, hop⟩, List.singleton_append,
        placeFrom, placeFrom, ofMembers, ofMembers, ih, isEmpty_placeFrom, isEmpty_placeFrom,
        isEmpty_flatMap_single]

/-! ## Members -/

/-- **A member**: between brackets the text `s` is one piece whatever
follows, and read as one token that satisfies `P`. `inner` says whether
it is neither the first piece nor the last. -/
def Member (inner : Bool) (s : List Char) (P : Token → Prop) : Prop :=
  ∃ p : Piece, p.IsInner ∧ (∀ rest, singles (s ++ rest) = p :: singles rest) ∧
    ∀ start, ∃ t, P t ∧ ofMember inner ⟨p, start⟩ = .ok [t]

/-- A piece that is a token on its own is a member. -/
theorem Member.of_piece {p : Piece} {P : Token → Prop} {k : TokenKind Token} (hp : p.IsInner)
    (hcut : ∀ rest, singles (p.text ++ rest) = p :: singles rest) (hP : ∀ span, P ⟨k, span⟩)
    (hread : ∀ start, ofMember inner ⟨p, start⟩ = .ok [⟨k, PlacedPiece.span ⟨p, start⟩⟩]) :
    Member inner p.text P :=
  ⟨p, hp, hcut, fun start => ⟨⟨k, PlacedPiece.span ⟨p, start⟩⟩, hP _, hread start⟩⟩

/-- A character behind a backslash is a member, unless it is a `u`. -/
theorem member_escape {k : TokenKind Token} {P : Token → Prop} (hc : c ≠ 'u')
    (hP : ∀ span, P ⟨k, span⟩) (hread : ∀ p, ofEscape true p c = .ok ⟨k, p.span⟩) :
    Member inner ['\\', c] P := by
  refine Member.of_piece (p := .escape c) ⟨⟨nofun, fun h => hc (Piece.escape.inj h)⟩, nofun⟩
    (Piece.singles_escape hc) hP fun start => ?_
  show (ofEscape true _ c).map _ = _
  rw [hread]
  rfl

/-- Any other character is a member, be it an operator or not, unless it
is a bracket or an inner dash. -/
theorem member_bare (hback : c ≠ '\\') (hclose : c ≠ ']') (hdash : c = '-' → inner = false) :
    Member inner [c] (·.letter? = some (.literal c)) := by
  cases hop : Operator.ofChar? c with
  | none =>
    refine Member.of_piece (p := plain c) (k := .char c)
      ⟨⟨nofun, nofun⟩, fun h => hclose (Piece.plain.inj h)⟩ (Piece.singles_plain hback hop)
      (fun _ => rfl) fun start => ?_
    unfold ofMember
    dsimp only
    rw [if_neg]
    rw [Bool.and_eq_true, beq_iff_eq]
    rintro ⟨rfl, rfl⟩
    cases hdash rfl
  | some op =>
    obtain rfl := Piece.char_of_ofChar? hop
    exact Member.of_piece (p := .operator op false) (k := .char op.char)
      ⟨⟨nofun, nofun⟩, nofun⟩ (Piece.singles_operator op) (fun _ => rfl) fun _ => rfl

/-- How a literal letter is written inside a set. -/
theorem renderInSet_literal (first edge : Bool) (c : Char) :
    (Letter.literal c).renderInSet first edge
      = if c == ']' || c == '\\' || (c == '-' && !edge) || (c == '^' && first) then ['\\', c]
        else [c] := rfl

/-- A unicode escape is one piece, however many digits it has. -/
theorem singles_renderEscape (codePoint : UInt32) (width : Nat) (rest : List Char) :
    singles (Letter.renderEscape codePoint width ++ rest)
      = .unicodeEscape (Numeral.write 16 width codePoint.toNat) :: singles rest := by
  show singles ('\\' :: 'u' :: '\x7b' :: (_ ++ ['\x7d'] ++ rest)) = _
  rw [List.append_assoc]
  exact Piece.singles_unicodeEscape (brace_notMem_write _ _) rest

/-- **A letter is a member**, provided that a bare dash stands at an
edge. -/
theorem member_letter (ha : a.IsWritten) (hedge : edge = true → inner = false) :
    Member inner (a.renderInSet first edge) (·.letter? = some a) := by
  cases a with
  | literal c =>
    rw [renderInSet_literal]
    split
    next hc =>
      have hreserved : (reservedChars.contains c || (true && c == '-')) = true := by
        simp only [Bool.or_eq_true, Bool.and_eq_true, beq_iff_eq] at hc
        obtain ((rfl | rfl) | ⟨rfl, -⟩) | ⟨rfl, -⟩ := hc <;> rfl
      refine member_escape (k := .char c) ?_ (fun _ => rfl) fun p => if_pos hreserved
      rintro rfl
      cases hreserved
    next hc =>
      simp only [Bool.or_eq_true, Bool.and_eq_true, beq_iff_eq, not_or, not_and] at hc
      obtain ⟨⟨⟨hclose, hback⟩, hdash⟩, -⟩ := hc
      refine member_bare hback hclose fun h => hedge ?_
      have hnot := hdash h
      rwa [Bool.not_eq_true', Bool.not_eq_false] at hnot
  | unicode codePoint width =>
    refine Member.of_piece (p := .unicodeEscape _) (k := .unicode codePoint width)
      ⟨⟨nofun, nofun⟩, nofun⟩ (singles_renderEscape codePoint width) (fun _ => rfl)
      fun start => ?_
    show (ofUnicodeEscape _ _).map _ = _
    rw [ofUnicodeEscape_write ha]
    rfl

/-- **A meta character other than the dot is a member.** -/
theorem member_metaChar {m : MetaChar} (hm : m ≠ .dot) :
    Member inner m.render (·.kind = .metaChar m) := by
  unfold MetaChar.render
  cases hc : m.escape? with
  | none =>
    cases m with
    | dot => exact (hm rfl).elim
    | _ => cases hc
  | some c => exact member_escape (escape_ne_u hc) (fun _ => rfl) (ofEscape_metaChar true hc)

/-- The dash between two letters is a member. -/
theorem member_dash : Member true ['-'] (·.isEntity '-' = true) :=
  Member.of_piece (p := plain '-') (k := .entity '-') ⟨⟨nofun, nofun⟩, nofun⟩
    (Piece.singles_plain (by decide) rfl) (fun _ => rfl) fun _ => rfl

/-! ## Items -/

/-- **What stands between brackets**: the pieces of `s` may stand there,
and are read as tokens that list the items `is`. `first` says whether
nothing of the set stands before. -/
structure Interior (first : Bool) (s : List Char) (is : List SetItem) : Prop where
  /-- No piece closes the set. -/
  inner : ∀ p ∈ singles s, p.IsInner
  /-- The pieces are read as the items. -/
  lists : ∀ start, ∃ ts, ofMembers first (placeFrom start (singles s)) = .ok ts ∧
    CharSet.Lists ts is

theorem interior_nil : Interior first [] [] := by
  refine ⟨?_, fun start => ⟨[], ?_, .nil⟩⟩
  · rw [Piece.singles_nil]
    exact fun _ h => nomatch h
  · rw [Piece.singles_nil]
    rfl

/-- A member in front of others is the first token. -/
theorem Member.ofMembers {P : Token → Prop} (h : Member inner s P)
    (hinner : inner = (!first && !(singles rest).isEmpty)) (start : Nat) :
    ∃ t stop, P t ∧ Token.ofMembers first (placeFrom start (singles (s ++ rest)))
      = (Token.ofMembers false (placeFrom stop (singles rest))).map (t :: ·) := by
  obtain ⟨p, -, hcut, hread⟩ := h
  obtain ⟨t, ht, hmember⟩ := hread start
  refine ⟨t, start + Text.byteLength p.text, ht, ?_⟩
  rw [hcut, placeFrom]
  show _ = (Token.ofMembers false _).map ([t] ++ ·)
  refine ofMembers_cons first _ _ ?_
  rw [isEmpty_placeFrom, ← hinner]
  exact hmember

theorem Member.forall_isInner {P : Token → Prop} (h : Member inner s P)
    (hrest : ∀ p ∈ singles rest, p.IsInner) : ∀ p ∈ singles (s ++ rest), p.IsInner := by
  obtain ⟨p, hp, hcut, -⟩ := h
  rw [hcut]
  exact List.forall_mem_cons.2 ⟨hp, hrest⟩

theorem Member.singles_ne_nil {P : Token → Prop} (h : Member inner s P) :
    (singles (s ++ rest)).isEmpty = false := by
  obtain ⟨p, -, hcut, -⟩ := h
  rw [hcut]
  rfl

/-- A letter is one piece, be it one that a pattern can write or not. -/
theorem exists_piece_renderInSet (a : Letter) (first edge : Bool) :
    ∃ p : Piece, p.IsInner
      ∧ ∀ rest, singles (a.renderInSet first edge ++ rest) = p :: singles rest := by
  cases a with
  | literal c =>
    have hmember : Member false ((Letter.literal c).renderInSet first edge)
        (·.letter? = some (.literal c)) := member_letter trivial fun _ => rfl
    obtain ⟨p, hp, hcut, -⟩ := hmember
    exact ⟨p, hp, hcut⟩
  | unicode codePoint width =>
    exact ⟨.unicodeEscape _, ⟨⟨nofun, nofun⟩, nofun⟩, singles_renderEscape codePoint width⟩

/-- No piece of an item closes the set. -/
theorem forall_isInner_renderItem {i : SetItem} (hi : i ≠ .metaChar .dot) (first last : Bool)
    (hrest : ∀ p ∈ singles rest, p.IsInner) :
    ∀ p ∈ singles (CharSet.renderItem first last i ++ rest), p.IsInner := by
  have hletter (a : Letter) (first edge : Bool) {rest : List Char}
      (hrest : ∀ p ∈ singles rest, p.IsInner) :
      ∀ p ∈ singles (a.renderInSet first edge ++ rest), p.IsInner := by
    obtain ⟨p, hp, hcut⟩ := exists_piece_renderInSet a first edge
    rw [hcut]
    exact List.forall_mem_cons.2 ⟨hp, hrest⟩
  match i with
  | .member (.letter a) => exact hletter a _ _ hrest
  | .member (.range a b) =>
    show ∀ p ∈ singles (_ ++ ('-' :: _) ++ rest), p.IsInner
    rw [List.append_assoc]
    exact hletter a _ _ (member_dash.forall_isInner (hletter b _ _ hrest))
  | .metaChar m =>
    have hm : m ≠ .dot := fun h => hi (congrArg SetItem.metaChar h)
    have hmember : Member false m.render (·.kind = .metaChar m) := member_metaChar hm
    exact hmember.forall_isInner hrest

/-- No piece of the items of a set closes it. -/
theorem forall_isInner_renderItems (first : Bool) (h : ∀ i ∈ is, i ≠ .metaChar .dot) :
    ∀ p ∈ singles (CharSet.renderItems first is), p.IsInner := by
  induction is generalizing first with
  | nil =>
    show ∀ p ∈ singles [], p.IsInner
    rw [Piece.singles_nil]
    exact nofun
  | cons i is ih =>
    obtain ⟨hi, his⟩ := List.forall_mem_cons.1 h
    exact forall_isInner_renderItem hi first is.isEmpty (ih false his)

/-- **An item in front of a text is read first**: its tokens list it, and
then the text is read. Only the last item of a set may be a bare dash. -/
theorem ofMembers_renderItem {i : SetItem} (hi : i.IsWritten) (first : Bool) {last : Bool}
    (hlast : last = true → rest = []) (start : Nat) :
    ∃ ts stop, (∀ {us js}, CharSet.Lists us js → CharSet.Lists (ts ++ us) (i :: js))
      ∧ ofMembers first (placeFrom start (singles (CharSet.renderItem first last i ++ rest)))
        = (ofMembers false (placeFrom stop (singles rest))).map (ts ++ ·) := by
  match i, hi with
  | .member (.letter a), ha =>
    have hmember : Member (!first && !(singles rest).isEmpty)
        (a.renderInSet first (first || last)) (·.letter? = some a) := by
      refine member_letter ha fun hedge => ?_
      cases first with
      | true => rfl
      | false =>
        rw [hlast hedge, Piece.singles_nil]
        rfl
    obtain ⟨t, stop, ht, hread⟩ := hmember.ofMembers rfl start
    exact ⟨[t], stop, .letter ht, hread⟩
  | .member (.range a b), ⟨ha, hb⟩ =>
    have hfrom (inner : Bool) : Member inner (a.renderInSet first false) (·.letter? = some a) :=
      member_letter ha nofun
    have hto (inner : Bool) : Member inner (b.renderInSet false false) (·.letter? = some b) :=
      member_letter hb nofun
    -- the dash is not the last piece, since a letter follows
    have hdash : true = (!false && !(singles (b.renderInSet false false ++ rest)).isEmpty) := by
      rw [(hto false).singles_ne_nil]
      rfl
    obtain ⟨t, stop, ht, hread⟩ := (hfrom _).ofMembers rfl start
    obtain ⟨d, stop', hd, hread'⟩ := member_dash.ofMembers hdash stop
    obtain ⟨u, stop'', hu, hread''⟩ := (hto _).ofMembers rfl stop'
    refine ⟨[t, d, u], stop'', .range ht hd hu, ?_⟩
    show ofMembers first (placeFrom start (singles (_ ++ ('-' :: _) ++ rest))) = _
    rw [List.append_assoc, hread]
    show (ofMembers false (placeFrom stop
      (singles (['-'] ++ (b.renderInSet false false ++ rest))))).map _ = _
    rw [hread', hread'', map_map, map_map]
    rfl
  | .metaChar m, hm =>
    obtain ⟨t, stop, ht, hread⟩ := (member_metaChar hm).ofMembers rfl start
    exact ⟨[t], stop, .metaChar ht, hread⟩

/-- **The items of a set read back.** -/
theorem interior_renderItems (first : Bool) (h : ∀ i ∈ is, i.IsWritten) :
    Interior first (CharSet.renderItems first is) is := by
  induction is generalizing first with
  | nil => exact interior_nil
  | cons i is ih =>
    obtain ⟨hi, his⟩ := List.forall_mem_cons.1 h
    have hrest := ih false his
    have hlast : is.isEmpty = true → CharSet.renderItems false is = [] := by
      intro hempty
      rw [List.isEmpty_iff.1 hempty]
      rfl
    refine ⟨forall_isInner_renderItems first fun j hj => (h j hj).ne_dot, fun start => ?_⟩
    obtain ⟨ts, stop, hlists, hread⟩ := ofMembers_renderItem hi first hlast start
    obtain ⟨us, hus, husis⟩ := hrest.lists stop
    refine ⟨ts ++ us, ?_, hlists husis⟩
    show ofMembers first (placeFrom start (singles (CharSet.renderItem first _ i ++ _))) = _
    rw [hread, hus]
    rfl

/-! ## Sets -/

/-- An operator is neither incomplete nor a bracket, so whether it is
taken apart does not matter. -/
theorem forall_isInner_scan (h : ∀ p ∈ singles s, p.IsInner) : ∀ p ∈ scan s, p.IsInner := by
  intro p hp
  by_cases hop : ∃ op isLazy, p = .operator op isLazy
  · obtain ⟨op, isLazy, rfl⟩ := hop
    exact ⟨⟨nofun, nofun⟩, nofun⟩
  · refine h p ((Piece.mem_scan_of_mem_singles fun op isLazy heq => ?_).1 hp)
    exact hop ⟨op, isLazy, heq⟩

/-- A text between brackets is cut as if it stood alone. -/
theorem scan_append_bracket (h : ∀ p ∈ scan s, p.IsInner) (rest : List Char) :
    scan (s ++ ']' :: rest) = scan s ++ plain ']' :: scan rest := by
  have hmark : (']' :: rest).head? ≠ some '?' := by
    rw [List.head?_cons]
    decide
  rw [Piece.scan_append (fun p hp => (h p hp).1) hmark, Piece.scan_plain (by decide) rfl]

/-- The pieces of a text between brackets. -/
theorem scan_brackets (h : ∀ p ∈ scan s, p.IsInner) (rest : List Char) :
    scan ('[' :: (s ++ [']']) ++ rest) = plain '[' :: (scan s ++ plain ']' :: scan rest) := by
  rw [List.cons_append, List.append_assoc, Piece.scan_plain (by decide) rfl]
  exact congrArg (plain '[' :: ·) (scan_append_bracket h rest)

/-- **The set between a bracket and the next one** is read as what stands
between them. -/
theorem lexSet_eq (h : ∀ p ∈ scan s, p.IsInner) (start : Nat) (rest : List Char) :
    lexSet ⟨plain '[', start⟩
        (placeFrom (start + Text.byteLength ['[']) (scan s ++ plain ']' :: scan rest))
      = (ofSetInterior (placeFrom (start + Text.byteLength ['[']) (scan s))).map fun members =>
        (⟨.charSet members, .ofOffsets start (start + Text.byteLength ('[' :: (s ++ [']'])))⟩,
          placeFrom (start + Text.byteLength ('[' :: (s ++ [']']))) (scan rest)) := by
  unfold lexSet
  rw [splitAt?_placeFrom fun p hp => (h p hp).2, Piece.join_scan, Text.add_byteLength_enclosed]
  rfl

/-- **A text between brackets is a lexeme** if its pieces may stand there
and spell a set. -/
theorem lexeme_brackets {cs : CharSet} (hinner : ∀ p ∈ scan s, p.IsInner)
    (hread : ∀ start, ∃ ts, ofSetInterior (placeFrom start (scan s)) = .ok ts ∧
      CharSet.Spells ts cs) :
    Lexeme ('[' :: (s ++ [']'])) (·.Spells (.set cs)) := by
  intro afterOpen start rest
  obtain ⟨ts, hts, hspells⟩ := hread (start + Text.byteLength ['['])
  have hlex := lexSet_eq hinner start rest
  rw [hts] at hlex
  exact ⟨_, .set rfl hspells, lexFrom_append (scan_brackets hinner rest) hlex⟩

/-- A rendered item does not start with a circumflex where one would make
the set negative. -/
theorem renderInSet_append_ne (a : Letter) (edge : Bool) (rest : List Char) :
    (a.renderInSet true edge ++ rest).head? ≠ some '^' := by
  cases a with
  | literal c =>
    rw [renderInSet_literal]
    split
    next => exact nofun
    next hc =>
      intro h
      obtain rfl : c = '^' := Option.some.inj h
      cases edge <;> exact hc rfl
  | unicode codePoint width => exact nofun

theorem head?_renderItems_ne (is : List SetItem) :
    (CharSet.renderItems true is).head? ≠ some '^' := by
  match is with
  | [] => exact nofun
  | .member (.letter a) :: is => exact renderInSet_append_ne a _ _
  | .member (.range a b) :: is =>
    show (a.renderInSet true false ++ _ ++ _).head? ≠ _
    rw [List.append_assoc]
    exact renderInSet_append_ne a _ _
  | .metaChar m :: is => cases m <;> exact nofun

/-- Without a circumflex in front the pieces between brackets are all
members. -/
theorem ofSetInterior_placeFrom (h : s.head? ≠ some '^') (start : Nat) :
    ofSetInterior (placeFrom start (scan s)) = ofMembers true (placeFrom start (singles s)) := by
  unfold singles
  rw [ofMembers_flatMap_single]
  unfold ofSetInterior
  split
  next hps =>
    cases s with
    | nil =>
      rw [Piece.scan_nil] at hps
      cases hps
    | cons c s =>
      rw [Piece.scan_cons, placeFrom] at hps
      have hcut := congrArg PlacedPiece.piece (List.cons.inj hps).1
      exact (h (Piece.head?_text_of_cut hcut).symm).elim
  next => rfl

/-- A circumflex in front is a token of its own. -/
theorem ofSetInterior_scan_circumflex (start : Nat) (s : List Char) :
    ofSetInterior (placeFrom start (scan ('^' :: s)))
      = (ofMembers true (placeFrom (start + Text.byteLength ['^']) (singles s))).map
        (⟨.entity '^', PlacedPiece.span ⟨plain '^', start⟩⟩ :: ·) := by
  unfold singles
  rw [ofMembers_flatMap_single, Piece.scan_plain (by decide) rfl]
  rfl

/-- The pieces between the brackets of a rendered set. -/
theorem forall_isInner_interior {cs : CharSet}
    (h : ∀ p ∈ singles (CharSet.renderItems true cs.items), p.IsInner) :
    ∀ p ∈ scan ((if cs.negative then ['^'] else []) ++ CharSet.renderItems true cs.items),
      p.IsInner := by
  cases cs.negative with
  | false => exact forall_isInner_scan h
  | true =>
    show ∀ p ∈ scan ('^' :: CharSet.renderItems true cs.items), p.IsInner
    rw [Piece.scan_plain (by decide) rfl]
    exact List.forall_mem_cons.2 ⟨⟨⟨nofun, nofun⟩, nofun⟩, forall_isInner_scan h⟩

/-- **A set is a lexeme.** -/
theorem lexeme_set {cs : CharSet} (h : ∀ i ∈ cs.items, i.IsWritten) :
    Lexeme cs.render (·.Spells (.set cs)) := by
  have hitems := interior_renderItems true h
  refine lexeme_brackets (forall_isInner_interior hitems.inner) fun start => ?_
  match cs with
  | ⟨is, false⟩ =>
    obtain ⟨ts, hts, hlists⟩ := hitems.lists start
    refine ⟨ts, ?_, .positive hlists⟩
    show ofSetInterior (placeFrom start (scan (CharSet.renderItems true is))) = _
    rw [ofSetInterior_placeFrom (head?_renderItems_ne is), hts]
  | ⟨is, true⟩ =>
    obtain ⟨ts, hts, hlists⟩ := hitems.lists (start + Text.byteLength ['^'])
    refine ⟨⟨.entity '^', PlacedPiece.span ⟨plain '^', start⟩⟩ :: ts, ?_, .negative rfl hlists⟩
    show ofSetInterior (placeFrom start (scan ('^' :: CharSet.renderItems true is))) = _
    rw [ofSetInterior_scan_circumflex, hts]
    rfl

/-- **A symbol is a lexeme.** -/
theorem lexeme_symbol {s : Symbol} (h : s.IsWritten) : Lexeme s.render (·.Spells s) := by
  cases s with
  | letter a => exact (lexeme_letter h).imp fun _ => .letter
  | metaChar m => exact (lexeme_metaChar m).imp fun _ => .metaChar
  | set cs => exact lexeme_set h

end Token

end Regexp
