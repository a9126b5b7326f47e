import Regexp.Diagnostic.Report
import Regexp.Proofs.Grammar
import Regexp.Proofs.Tiling

/-!
# Where faults are

Each fault of reading tokens or of building the tree has a span of its
own: that of a piece, of all up to the end of the pattern, of what stands
between braces or of a bound in it, of a parenthesis, of a token or of a
group. What they have in common is that the span is that of a part of the
pattern which is not empty (`Span.Within`), and so it begins and ends
between characters and marks just that part in a report
(`Pattern.span_of_compile`).

For faults of tokens this follows the pieces, and for what was read before
the fault from what reading a token takes (`Token.Takes`). Faults of trees
always have the span of a token, at some depth, and the tokens tile the
pattern.
-/

namespace Regexp

open Piece (placeFrom scan plain)

/-! ## Parts of a text -/

/-- **The span is that of a part of the text** that starts at an offset,
and the part is not empty. -/
def Span.Within (span : Span) (start : Nat) (text : List Char) : Prop :=
  ∃ u v w, text = u ++ v ++ w ∧ v ≠ []
    ∧ span.Covers (start + Text.byteLength u) (start + Text.byteLength (u ++ v))

namespace Span

variable {span : Span} {start limit : Nat} {text u v w : List Char}

/-- The whole text is a part of it. -/
theorem Covers.within (h : span.Covers start (start + Text.byteLength text)) (hne : text ≠ []) :
    span.Within start text :=
  ⟨[], text, [], (List.append_nil _).symm, hne, h⟩

theorem Within.append_right (h : span.Within start text) (s : List Char) :
    span.Within start (text ++ s) := by
  obtain ⟨u, v, w, rfl, hne, hspan⟩ := h
  exact ⟨u, v, w ++ s, List.append_assoc _ _ _, hne, hspan⟩

theorem Within.append_left {s : List Char} (h : span.Within (start + Text.byteLength s) text) :
    span.Within start (s ++ text) := by
  obtain ⟨u, v, w, rfl, hne, hspan⟩ := h
  refine ⟨s ++ u, v, w, by simp only [List.append_assoc], hne, ?_⟩
  rwa [List.append_assoc, Text.byteLength_append s u, Text.byteLength_append s (u ++ v),
    ← Nat.add_assoc, ← Nat.add_assoc]

/-- A part of what stands between two characters. -/
theorem Within.enclosed {o : Char} (h : span.Within (start + Text.byteLength [o]) text)
    (c : Char) : span.Within start (o :: (text ++ [c])) :=
  Within.append_left (s := [o]) (h.append_right [c])

theorem isValid_of_append {pattern : String} (h : pattern.toList = u ++ v) :
    String.Pos.Raw.IsValid pattern ⟨Text.byteLength u⟩ := by
  refine String.Pos.Raw.isValid_iff_exists_append.2 ⟨.ofList u, .ofList v, ?_, ?_⟩
  · rw [← String.ofList_append, ← h, String.ofList_toList]
  · rw [← String.toList_ofList (l := u), Text.byteLength_toList, String.toList_ofList]
    rfl

/-- **Parts begin and end between characters**, and a report marks just
the part. -/
theorem Within.bounds {pattern : String} (h : span.Within 0 pattern.toList) :
    span.start.toNat < span.stop.toNat ∧ span.stop.toNat ≤ pattern.utf8ByteSize
      ∧ String.Pos.Raw.IsValid pattern ⟨span.start.toNat⟩
      ∧ String.Pos.Raw.IsValid pattern ⟨span.stop.toNat⟩
      ∧ Report.markedRange span pattern.toList = (span.start.toNat, span.stop.toNat) := by
  obtain ⟨u, v, w, htext, hne, hspan⟩ := h
  rw [Nat.zero_add, Nat.zero_add] at hspan
  obtain ⟨hstart, hstop⟩ := Prod.mk.inj hspan
  have hlt : Text.byteLength u < Text.byteLength (u ++ v) := by
    rw [Text.byteLength_append]
    exact Nat.lt_add_of_pos_right (Text.byteLength_pos hne)
  have hle : Text.byteLength (u ++ v) ≤ Text.byteLength pattern.toList := by
    rw [htext, Text.byteLength_append (u ++ v)]
    exact Nat.le_add_right _ _
  rw [hstart, hstop]
  refine ⟨hlt, Text.byteLength_toList pattern ▸ hle, ?_, isValid_of_append htext, ?_⟩
  · exact isValid_of_append (htext.trans (List.append_assoc u v w))
  · rw [Report.markedRange, hspan]
    dsimp only
    rw [Nat.min_eq_left (Nat.le_trans (Nat.le_of_lt hlt) hle), if_pos hlt, Nat.min_eq_left hle]

end Span

/-! ## Reading tokens -/

namespace Token

variable {p : Piece} {ps : List Piece} {start limit : Nat} {q : PlacedPiece} {e : Located LexFault}
variable {inSet inner first afterOpen : Bool} {c : Char} {digits text : List Char}

/-- A fault of an escape is about the escape. -/
theorem span_of_ofEscape (h : ofEscape inSet q c = .error e) : e.span = q.span := by
  unfold ofEscape at h
  split at h
  next => cases h
  next =>
    split at h
    next => cases h
    next =>
      split at h
      next =>
        obtain rfl := Except.error.inj h
        rfl
      next =>
        obtain rfl := Except.error.inj h
        rfl

theorem span_of_ofUnicodeEscape (h : ofUnicodeEscape q digits = .error e) : e.span = q.span := by
  unfold ofUnicodeEscape at h
  split at h
  next =>
    split at h
    next =>
      obtain rfl := Except.error.inj h
      rfl
    next =>
      obtain rfl := Except.error.inj h
      rfl
    next =>
      split at h
      next => cases h
      next =>
        obtain rfl := Except.error.inj h
        rfl
  next =>
    obtain rfl := Except.error.inj h
    rfl

theorem span_of_ofMember (h : ofMember inner q = .error e) : e.span = q.span := by
  unfold ofMember at h
  split at h
  next => exact span_of_ofEscape (map_eq_error_iff.1 h)
  next => exact span_of_ofUnicodeEscape (map_eq_error_iff.1 h)
  next =>
    obtain rfl := Except.error.inj h
    rfl
  next => cases h
  next => cases h
  next => cases h

/-- A fault of a bound is about the bound. -/
theorem span_of_readBound (h : readBound start text = .error e) :
    e.span = .ofOffsets start (start + Text.byteLength text) := by
  unfold readBound at h
  dsimp only at h
  split at h
  next =>
    obtain rfl := Except.error.inj h
    rfl
  next =>
    obtain rfl := Except.error.inj h
    rfl
  next =>
    split at h
    next => cases h
    next =>
      obtain rfl := Except.error.inj h
      rfl

/-- Where the last of the pieces ends, the text does. -/
theorem stopOfLast_placeFrom (p : Piece) (start : Nat) (ps : List Piece) :
    PlacedPiece.stopOfLast ⟨p, start⟩ (placeFrom (start + Text.byteLength p.text) ps)
      = start + Text.byteLength ((p :: ps).flatMap Piece.text) := by
  induction ps generalizing p start with
  | nil => rw [List.flatMap_singleton]; rfl
  | cons q ps ih =>
    have hlast := ih q (start + Text.byteLength p.text)
    rw [List.flatMap_cons, Text.byteLength_append, ← Nat.add_assoc, ← hlast]
    unfold PlacedPiece.stopOfLast
    rw [placeFrom, List.getLastD_cons]

section Places

variable (hAt : ∀ a b, a ≤ b → b ≤ limit → (Span.ofOffsets a b).Covers a b)
include hAt

/-- The span of a part of a text that is short enough. -/
theorem within_ofOffsets {u v w : List Char} {a b : Nat} (htext : text = u ++ v ++ w)
    (hne : v ≠ []) (ha : a = start + Text.byteLength u) (hb : b = start + Text.byteLength (u ++ v))
    (hlimit : start + Text.byteLength text ≤ limit) : (Span.ofOffsets a b).Within start text := by
  subst htext ha hb
  rw [Text.byteLength_append (u ++ v), ← Nat.add_assoc] at hlimit
  have hle : Text.byteLength u ≤ Text.byteLength (u ++ v) := by
    rw [Text.byteLength_append]
    exact Nat.le_add_right _ _
  exact ⟨u, v, w, rfl, hne,
    hAt _ _ (Nat.add_le_add_left hle start) (Nat.le_of_add_right_le hlimit)⟩

/-- The span of a first piece. -/
theorem within_span (hlimit : start + Text.byteLength ((p :: ps).flatMap Piece.text) ≤ limit) :
    (PlacedPiece.span ⟨p, start⟩).Within start ((p :: ps).flatMap Piece.text) := by
  have hne : p.text ≠ [] := by cases p <;> exact nofun
  exact within_ofOffsets hAt (u := []) (v := p.text) List.flatMap_cons hne rfl rfl hlimit

/-- The span of all there is. -/
theorem within_toLast
    (hlimit : start + Text.byteLength ((p :: ps).flatMap Piece.text) ≤ limit) :
    (Span.ofOffsets start (PlacedPiece.stopOfLast ⟨p, start⟩
      (placeFrom (start + Text.byteLength p.text) ps))).Within start
        ((p :: ps).flatMap Piece.text) := by
  have hne : (p :: ps).flatMap Piece.text ≠ [] := by cases p <;> exact nofun
  exact within_ofOffsets hAt (u := []) (w := []) (List.append_nil _).symm hne rfl
    (stopOfLast_placeFrom p start ps) hlimit

/-- A fault between brackets is about one of the members. -/
theorem within_of_ofMembers (hlimit : start + Text.byteLength (ps.flatMap Piece.text) ≤ limit)
    (h : ofMembers first (placeFrom start ps) = .error e) :
    e.span.Within start (ps.flatMap Piece.text) := by
  induction ps generalizing first start with
  | nil => cases h
  | cons p ps ih =>
    rw [placeFrom, ofMembers] at h
    split at h
    next fault hfault =>
      obtain rfl := Except.error.inj h
      rw [span_of_ofMember hfault]
      exact within_span hAt hlimit
    next =>
      rw [List.flatMap_cons, Text.byteLength_append, ← Nat.add_assoc] at hlimit
      rw [List.flatMap_cons]
      exact (ih hlimit (map_eq_error_iff.1 h)).append_left

theorem within_of_ofSetInterior
    (hlimit : start + Text.byteLength (ps.flatMap Piece.text) ≤ limit)
    (h : ofSetInterior (placeFrom start ps) = .error e) :
    e.span.Within start (ps.flatMap Piece.text) := by
  unfold ofSetInterior at h
  split at h
  next place qs heq =>
    cases ps with
    | nil => cases heq
    | cons p ps =>
      obtain ⟨hp, rfl⟩ := List.cons.inj heq
      rw [List.flatMap_cons, Text.byteLength_append, ← Nat.add_assoc] at hlimit
      rw [List.flatMap_cons]
      exact (within_of_ofMembers hAt hlimit (map_eq_error_iff.1 h)).append_left
  next => exact within_of_ofMembers hAt hlimit h

/-- A set without an end is all that is left. -/
theorem within_of_lexSet
    (hlimit : start + Text.byteLength ((plain '[' :: ps).flatMap Piece.text) ≤ limit)
    (h : lexSet ⟨plain '[', start⟩ (placeFrom (start + 1) ps) = .error e) :
    e.span.Within start ((plain '[' :: ps).flatMap Piece.text) := by
  unfold lexSet at h
  split at h
  next =>
    obtain rfl := Except.error.inj h
    exact within_toLast hAt hlimit
  next inner close rest hsplit =>
    obtain ⟨is, qs, rfl, -, rfl, rfl, rfl⟩ := PlacedPiece.exists_of_splitAt? hsplit
    rw [flatMap_text_enclosed] at hlimit ⊢
    have hinner := within_of_ofSetInterior hAt (le_of_enclosed hlimit) (map_eq_error_iff.1 h)
    exact (Span.Within.enclosed hinner ']').append_right _

/-- **A fault of a count** is about the braces, or about one of the
bounds. -/
theorem within_of_readCount {whole : Span} (hlimit : start + Text.byteLength text ≤ limit)
    (h : readCount whole start text = .error e) : e.span = whole ∨ e.span.Within start text := by
  unfold readCount at h
  split at h
  next =>
    obtain rfl := Except.error.inj h
    exact .inl rfl
  next hne =>
    split at h
    next =>
      rw [span_of_readBound (map_eq_error_iff.1 h)]
      exact .inr (within_ofOffsets hAt (u := []) (w := []) (List.append_nil _).symm hne rfl rfl
        hlimit)
    next =>
      obtain rfl := Except.error.inj h
      exact .inl rfl
    next lower d upper hlower hspan =>
      have htext := eq_append_of_span_comma hspan
      split at h
      next fault hfault =>
        obtain rfl := Except.error.inj h
        rw [span_of_readBound hfault]
        exact .inr (within_ofOffsets hAt (u := []) htext hlower rfl rfl hlimit)
      next =>
        split at h
        next => cases h
        next hupper =>
          rw [span_of_readBound (map_eq_error_iff.1 h)]
          rw [List.isEmpty_iff] at hupper
          -- the second bound stands behind the comma
          have hcomma : Text.byteLength (lower ++ [',']) = Text.byteLength lower + 1 :=
            Text.byteLength_append lower [',']
          refine .inr (within_ofOffsets hAt (u := lower ++ [',']) (w := []) ?_ hupper ?_ ?_ hlimit)
          · rw [htext, List.append_nil, List.append_assoc]
            rfl
          · rw [hcomma, Nat.add_assoc]
          · rw [Text.byteLength_append (lower ++ [',']), hcomma, Nat.add_assoc start, Nat.add_assoc]

/-- A bounded quantifier without an end is all that is left. -/
theorem within_of_lexQuantity
    (hlimit : start + Text.byteLength ((plain '\x7b' :: ps).flatMap Piece.text) ≤ limit)
    (h : lexQuantity ⟨plain '\x7b', start⟩ (placeFrom (start + 1) ps) = .error e) :
    e.span.Within start ((plain '\x7b' :: ps).flatMap Piece.text) := by
  unfold lexQuantity at h
  split at h
  next =>
    obtain rfl := Except.error.inj h
    exact within_toLast hAt hlimit
  next inner close rest hsplit =>
    obtain ⟨is, qs, rfl, -, rfl, rfl, rfl⟩ := PlacedPiece.exists_of_splitAt? hsplit
    have hcount := map_eq_error_iff.1 h
    rw [Piece.flatMap_text_placeFrom] at hcount
    rw [flatMap_text_enclosed] at hlimit ⊢
    obtain hwhole | hinner := within_of_readCount hAt (le_of_enclosed hlimit) hcount
    · rw [hwhole]
      have hstop := stop_enclosed (o := '\x7b') rfl start '\x7d' (is.flatMap Piece.text)
      exact within_ofOffsets hAt (u := []) rfl (List.cons_ne_nil _ _) rfl hstop hlimit
    · exact (Span.Within.enclosed hinner '\x7d').append_right _

/-- **A fault of a token is about a part of what is left.** -/
theorem within_of_lexOne
    (hlimit : start + Text.byteLength ((p :: ps).flatMap Piece.text) ≤ limit)
    (h : lexOne afterOpen ⟨p, start⟩ (placeFrom (start + Text.byteLength p.text) ps) = .error e) :
    e.span.Within start ((p :: ps).flatMap Piece.text) := by
  unfold lexOne at h
  cases p with
  | escape c =>
    rw [span_of_ofEscape (map_eq_error_iff.1 h)]
    exact within_span hAt hlimit
  | unicodeEscape digits =>
    rw [span_of_ofUnicodeEscape (map_eq_error_iff.1 h)]
    exact within_span hAt hlimit
  | backslash =>
    obtain rfl := Except.error.inj h
    exact within_span hAt hlimit
  | operator op isLazy => cases h
  | plain c =>
    dsimp only at h
    split at h
    next hset =>
      subst hset
      exact within_of_lexSet hAt hlimit h
    next =>
      split at h
      next hbrace =>
        subst hbrace
        exact within_of_lexQuantity hAt hlimit h
      next =>
        split at h
        next => cases h
        next => split at h <;> cases h

/-- **A fault of the tokens is about a part of the text.** -/
theorem within_of_lexPieces {pieces : List PlacedPiece} (hpieces : pieces = placeFrom start ps)
    (hcut : ∀ q ∈ ps, q.IsCut) (hlimit : start + Text.byteLength (ps.flatMap Piece.text) ≤ limit)
    (h : lexPieces afterOpen pieces = .error e) : e.span.Within start (ps.flatMap Piece.text) := by
  -- the tokens before the fault take pieces, also parts of them
  induction afterOpen, pieces using lexPieces.induct generalizing start ps with
  | case1 afterOpen =>
    rw [lexPieces_nil] at h
    cases h
  | case2 afterOpen p' ps' fault hone =>
    cases ps with
    | nil => cases hpieces
    | cons p ps =>
      obtain ⟨rfl, rfl⟩ := List.cons.inj hpieces
      rw [lexPieces_cons, hone] at h
      obtain rfl := Except.error.inj h
      exact within_of_lexOne hAt hlimit hone
  | case3 afterOpen p' ps' t rest hone ih =>
    cases ps with
    | nil => cases hpieces
    | cons p ps =>
      obtain ⟨rfl, rfl⟩ := List.cons.inj hpieces
      rw [lexPieces_cons, hone] at h
      have hrest := map_eq_error_iff.1 h
      have htakes := takes_of_lexOne hAt hcut hlimit hone
      generalize (p :: ps).flatMap Piece.text = text at hlimit htakes ⊢
      cases htakes with
      | mk hne hspan hkind hqs =>
        rw [Text.byteLength_append, ← Nat.add_assoc] at hlimit
        exact (ih rfl hqs hlimit hrest).append_left

end Places

end Token

/-! ## Building the tree -/

section Trees

open Token (Tiles Slice NestedSlice)

variable {R : Nat → List Char → TokenKind Token → Prop}
variable {start : Nat} {text : List Char} {t : Token} {ts : List Token} {e : Located ParseFault}

/-- **Each token has a slice**, and what is a part of its slice is a part of
the whole text. -/
theorem Token.Tiles.exists_slice (h : Tiles Span.Covers R start text ts) (ht : t ∈ ts) :
    ∃ place slice, slice ≠ [] ∧ t.span.Covers place (place + Text.byteLength slice)
      ∧ R place slice t.kind ∧ ∀ span : Span, span.Within place slice → span.Within start text := by
  induction h with
  | nil => cases ht
  | cons hne hcovers hkind _ ih =>
    obtain rfl | ht := List.mem_cons.1 ht
    · exact ⟨_, _, hne, hcovers, hkind, fun span h => h.append_right _⟩
    · obtain ⟨place, slice, hne, hcovers, hkind, hpart⟩ := ih ht
      exact ⟨place, slice, hne, hcovers, hkind, fun span h => (hpart span h).append_left⟩

/-- **The fault is about one of the tokens.** -/
def Located.IsAbout (e : Located ParseFault) (ts : List Token) : Prop :=
  ∃ t ∈ ts, e.span = t.span

theorem Located.isAbout_head (h : e.span = t.span) (ts : List Token) : e.IsAbout (t :: ts) :=
  ⟨t, List.mem_cons_self, h⟩

theorem Located.IsAbout.tail (h : e.IsAbout ts) (t : Token) : e.IsAbout (t :: ts) := by
  obtain ⟨u, hu, hspan⟩ := h
  exact ⟨u, List.mem_cons_of_mem t hu, hspan⟩

/-- A fault about a token of a text is about a part of the text. -/
theorem Located.IsAbout.within (he : e.IsAbout ts) (h : Tiles Span.Covers R start text ts) :
    e.span.Within start text := by
  obtain ⟨t, ht, hspan⟩ := he
  obtain ⟨_, _, hne, hcovers, -, hpart⟩ := h.exists_slice ht
  rw [hspan]
  exact hpart _ (hcovers.within hne)

/-- **A parenthesis without a partner** is one of the tokens. -/
theorem Token.isAbout_of_nest (h : nest ts = .error e) : e.IsAbout ts := by
  have houtcome := outcome_nest ts
  rw [h] at houtcome
  cases houtcome with
  | stray => exact ⟨_, List.mem_append_right _ List.mem_cons_self, rfl⟩
  | unclosed => exact ⟨_, List.mem_append_right _ List.mem_cons_self, rfl⟩

/-- A fault between brackets is about one of the tokens there. -/
theorem CharSet.isAbout_of_itemsOf (h : itemsOf ts = .error e) : e.IsAbout ts := by
  induction ts using itemsOf.induct with
  | case1 => cases h
  | case2 t a ha =>
    rw [itemsOf, ha] at h
    cases h
  | case3 t a ha d hd =>
    rw [itemsOf, ha] at h
    dsimp only at h
    rw [if_pos hd] at h
    obtain rfl := Except.error.inj h
    exact (Located.isAbout_head rfl _).tail t
  | case4 t a ha d hd u us b hb ih =>
    rw [itemsOf_range ha hd hb] at h
    exact (((ih (map_eq_error_iff.1 h)).tail u).tail d).tail t
  | case5 t a ha d hd u us hb =>
    rw [itemsOf, ha] at h
    dsimp only at h
    rw [if_pos hd, hb] at h
    obtain rfl := Except.error.inj h
    exact (Located.isAbout_head rfl _).tail t
  | case6 t a ha d us hd ih =>
    rw [itemsOf, ha] at h
    dsimp only at h
    rw [if_neg hd] at h
    exact (ih (map_eq_error_iff.1 h)).tail t
  | case7 t us m hm ha ih =>
    rw [itemsOf_metaChar hm] at h
    exact (ih (map_eq_error_iff.1 h)).tail t
  | case8 t us ha hm =>
    rw [itemsOf, ha] at h
    split at h
    next hk => cases hk
    next m _ hk => exact (hm m hk).elim
    next =>
      obtain rfl := Except.error.inj h
      exact Located.isAbout_head rfl us

theorem CharSet.isAbout_of_ofTokens (h : ofTokens ts = .error e) : e.IsAbout ts := by
  unfold ofTokens at h
  split at h
  next => cases h
  next t ts =>
    split at h
    next => exact (isAbout_of_itemsOf (map_eq_error_iff.1 h)).tail t
    next => exact isAbout_of_itemsOf (map_eq_error_iff.1 h)

theorem isAbout_of_danglingPipe? {atStart : Bool} (h : danglingPipe? atStart ts = some e) :
    e.IsAbout ts := by
  induction ts generalizing atStart with
  | nil => cases h
  | cons t ts ih =>
    rw [danglingPipe?] at h
    split at h
    next =>
      split at h
      next =>
        obtain rfl := Option.some.inj h
        exact Located.isAbout_head rfl ts
      next => exact (ih h).tail t
    next => exact (ih h).tail t

/-- A fault of the beginning of a group is about the group or about its
first token. -/
theorem isAbout_of_groupFault? {span : Span} (h : groupFault? span ts = some e) :
    e.span = span ∨ e.IsAbout ts := by
  cases ts with
  | nil => cases h
  | cons t ts =>
    rw [groupFault?] at h
    split at h
    next =>
      obtain rfl := Option.some.inj h
      exact .inl rfl
    next =>
      split at h
      next =>
        obtain rfl := Option.some.inj h
        exact .inr (Located.isAbout_head rfl ts)
      next => cases h

/-- The members of a set stand between its brackets. -/
theorem Token.exists_of_tiles_charSet {members : List Token} {span : Span}
    (h : Tiles Span.Covers (NestedSlice Span.Covers) start text [⟨.charSet members, span⟩]) :
    ∃ s, text = '[' :: (s ++ [']'])
      ∧ Tiles Span.Covers (fun _ => Glyph true) (start + 1) s members := by
  cases h with
  | cons _ _ hkind h =>
    cases h
    cases hkind with
    | slice _ _ hkind =>
      cases hkind with
      | glyph hglyph => cases hglyph
      | set hmembers => exact ⟨_, List.append_nil _, hmembers⟩

/-- The tokens of a group stand between its parentheses. -/
theorem Token.exists_of_tiles_group {tokens : List Token} {span : Span}
    (h : Tiles Span.Covers (NestedSlice Span.Covers) start text [⟨.group tokens, span⟩]) :
    ∃ s, text = '(' :: (s ++ [')'])
      ∧ Tiles Span.Covers (NestedSlice Span.Covers) (start + 1) s tokens := by
  cases h with
  | cons _ _ hkind h =>
    cases h
    cases hkind with
    | slice _ _ hkind =>
      cases hkind with
      | glyph hglyph => cases hglyph
    | group hin => exact ⟨_, List.append_nil _, hin⟩

/-- A fault of a group as such is about the group or about one of its
tokens. -/
theorem Token.within_of_groupFault {tokens : List Token} {span : Span}
    (h : (groupFault? span tokens).or (danglingPipe? true tokens) = some e)
    (htiles : Tiles Span.Covers (NestedSlice Span.Covers) start text [⟨.group tokens, span⟩]) :
    e.span.Within start text := by
  have habout : e.span = span ∨ e.IsAbout tokens := by
    obtain hstart | ⟨-, hdangling⟩ := Option.or_eq_some_iff.1 h
    · exact isAbout_of_groupFault? hstart
    · exact .inr (isAbout_of_danglingPipe? hdangling)
  obtain hspan | htoken := habout
  · exact (Located.isAbout_head hspan []).within htiles
  · obtain ⟨s, rfl, hin⟩ := exists_of_tiles_group htiles
    exact Span.Within.enclosed (htoken.within hin) ')'

namespace Expr

open Token

/-- **A fault of the tree is about a part of the text** that its nested
tokens tile: it is about one of the tokens, at some depth. -/
theorem within_of_ofToken_and_branchesOf :
    (∀ t start text e, ofToken t = .error e →
        Tiles Span.Covers (NestedSlice Span.Covers) start text [t] → e.span.Within start text)
      ∧ ∀ ts start text e, branchesOf ts = .error e →
        Tiles Span.Covers (NestedSlice Span.Covers) start text ts → e.span.Within start text := by
  refine ofToken.mutual_induct
    (fun t => ∀ start text e, ofToken t = .error e →
      Tiles Span.Covers (NestedSlice Span.Covers) start text [t] → e.span.Within start text)
    (fun ts => ∀ start text e, branchesOf ts = .error e →
      Tiles Span.Covers (NestedSlice Span.Covers) start text ts → e.span.Within start text)
    ?char ?unicode ?metaChar ?charSet ?fault ?group ?entity ?quantity ?nil ?pipe ?repetitionFault
    ?repetition ?itemFault ?item
  case char =>
    intro c span start text e h
    cases h
  case unicode =>
    intro p w span start text e h
    cases h
  case metaChar =>
    intro m span start text e h
    cases h
  case charSet =>
    intro members span start text e h htiles
    have hmember := CharSet.isAbout_of_ofTokens (map_eq_error_iff.1 h)
    obtain ⟨s, rfl, hmembers⟩ := exists_of_tiles_charSet htiles
    exact Span.Within.enclosed (hmember.within hmembers) ']'
  case fault =>
    intro tokens span fault hfault start text e h htiles
    rw [ofToken, hfault] at h
    obtain rfl := Except.error.inj h
    exact within_of_groupFault hfault htiles
  case group =>
    intro tokens span hfault ih start text e h htiles
    rw [ofToken, hfault] at h
    obtain ⟨s, rfl, hin⟩ := exists_of_tiles_group htiles
    exact Span.Within.enclosed (ih _ _ _ (map_eq_error_iff.1 h) hin) ')'
  case entity =>
    intro c span start text e h htiles
    obtain rfl := Except.error.inj h
    exact (Located.isAbout_head rfl []).within htiles
  case quantity =>
    intro q span start text e h htiles
    obtain rfl := Except.error.inj h
    exact (Located.isAbout_head rfl []).within htiles
  case nil =>
    intro start text e h
    rw [branchesOf] at h
    cases h
  case pipe =>
    intro span ts ih start text e h htiles
    rw [branchesOf] at h
    obtain ⟨u, v, rfl, -, hts⟩ := htiles.exists_cons
    exact (ih _ _ _ (map_eq_error_iff.1 h) hts).append_left
  case repetitionFault =>
    intro t q span ts hpipe fault hfault iht start text e h htiles
    rw [branchesOf, hfault] at h
    · obtain rfl := Except.error.inj h
      obtain ⟨u, v, rfl, ht, -⟩ := htiles.exists_cons
      exact (iht _ _ _ hfault ht).append_right _
    · exact hpipe
  case repetition =>
    intro t q span ts hpipe a ha iht ih start text e h htiles
    rw [branchesOf, ha] at h
    · obtain ⟨u, v, rfl, -, hq⟩ := htiles.exists_cons
      obtain ⟨u', v, rfl, -, hts⟩ := hq.exists_cons
      exact ((ih _ _ _ (map_eq_error_iff.1 h) hts).append_left).append_left
    · exact hpipe
  case itemFault =>
    intro t ts hpipe hq fault hfault iht start text e h htiles
    rw [branchesOf, hfault] at h
    · obtain rfl := Except.error.inj h
      obtain ⟨u, v, rfl, ht, -⟩ := htiles.exists_cons
      exact (iht _ _ _ hfault ht).append_right _
    · exact hpipe
    · exact hq
  case item =>
    intro t ts hpipe hq a ha iht ih start text e h htiles
    rw [branchesOf, ha] at h
    · obtain ⟨u, v, rfl, -, hts⟩ := htiles.exists_cons
      exact (ih _ _ _ (map_eq_error_iff.1 h) hts).append_left
    · exact hpipe
    · exact hq

/-- A fault of the tree of nested tokens. -/
theorem within_of_ofNested (h : ofNested ts = .error e)
    (htiles : Tiles Span.Covers (NestedSlice Span.Covers) start text ts) :
    e.span.Within start text := by
  unfold ofNested at h
  split at h
  next fault hfault =>
    obtain rfl := Except.error.inj h
    exact (isAbout_of_danglingPipe? hfault).within htiles
  next => exact within_of_ofToken_and_branchesOf.2 _ _ _ _ (map_eq_error_iff.1 h) htiles

end Expr

end Trees

/-! ## Patterns -/

namespace Pattern

variable {pattern : String} {err : PatternError} {span : Span}

/-- Offsets of a short pattern are kept. -/
theorem covers_ofOffsets (hsize : pattern.utf8ByteSize < UInt32.size) (a b : Nat) (hab : a ≤ b)
    (hb : b ≤ Text.byteLength pattern.toList) : (Span.ofOffsets a b).Covers a b := by
  rw [Text.byteLength_toList] at hb
  have hlt := Nat.lt_of_le_of_lt hb hsize
  exact Span.offsets_ofOffsets (Nat.lt_of_le_of_lt hab hlt) hlt

theorem byteLength_scan_le (s : List Char) :
    0 + Text.byteLength ((scan s).flatMap Piece.text) ≤ Text.byteLength s :=
  Nat.le_of_eq (by rw [Piece.join_scan, Nat.zero_add])

theorem within_of_lex {e : Located LexFault} (hsize : pattern.utf8ByteSize < UInt32.size)
    (h : Token.lex pattern.toList = .error e) : e.span.Within 0 pattern.toList := by
  have hwithin := Token.within_of_lexPieces (covers_ofOffsets hsize) rfl
    (Piece.isCut_of_mem_scan pattern.toList) (byteLength_scan_le pattern.toList) h
  rwa [Piece.join_scan] at hwithin

/-- The tokens of a pattern tile it. -/
theorem slices_of_lex {ts : List Token} (hsize : pattern.utf8ByteSize < UInt32.size)
    (h : Token.lex pattern.toList = .ok ts) :
    Token.Tiles Span.Covers (Token.Slice Span.Covers) 0 pattern.toList ts := by
  have htiles := Token.tiles_of_lexPieces (covers_ofOffsets hsize)
    (Piece.isCut_of_mem_scan pattern.toList) (byteLength_scan_le pattern.toList) h
  rwa [Piece.join_scan] at htiles

theorem within_of_parse {ts : List Token} {e : Located ParseFault}
    (hsize : pattern.utf8ByteSize < UInt32.size) (hlex : Token.lex pattern.toList = .ok ts)
    (h : Expr.parse ts = .error e) : e.span.Within 0 pattern.toList := by
  have htiles := slices_of_lex hsize hlex
  unfold Expr.parse at h
  split at h
  next fault hfault =>
    obtain rfl := Except.error.inj h
    exact (Token.isAbout_of_nest hfault).within htiles
  next ns hns =>
    have hnested := Token.tiles_of_nests (Token.nest_eq_ok_iff.1 hns) htiles
    exact Expr.within_of_ofNested (map_eq_error_iff.1 h) hnested

/-- **Every located error points into the pattern**: if a pattern cannot
be split into tokens or its tokens make no tree, the span of the error is
not empty, ends in the pattern, and begins and ends between characters.
So a report marks just this span. -/
theorem span_of_compile (hsize : pattern.utf8ByteSize < UInt32.size)
    (h : compile pattern = .error err)
    (herr : (∃ e, err = .lex e) ∨ ∃ e, err = .parse e) :
    ∃ span, err.span? = some span ∧ span.start.toNat < span.stop.toNat
      ∧ span.stop.toNat ≤ pattern.utf8ByteSize
      ∧ String.Pos.Raw.IsValid pattern ⟨span.start.toNat⟩
      ∧ String.Pos.Raw.IsValid pattern ⟨span.stop.toNat⟩
      ∧ Report.markedRange span pattern.toList = (span.start.toNat, span.stop.toNat) := by
  obtain ⟨span, hspan⟩ : ∃ span, err.span? = some span := by
    obtain ⟨e, rfl⟩ | ⟨e, rfl⟩ := herr
    · exact ⟨e.span, rfl⟩
    · exact ⟨e.span, rfl⟩
  refine ⟨span, hspan, Span.Within.bounds ?_⟩
  obtain ⟨e, hlex, rfl⟩ | ⟨ts, e, hlex, htree, rfl⟩ := located_of_compile h hspan
  · exact within_of_lex hsize hlex
  · exact within_of_parse hsize hlex htree

/-- In `é{1,x}` the second bound is wrong, and in `(é(b)` the first
parenthesis has no partner. Both come with a character of two bytes. -/
theorem span_of_compile_bound :
    let bound := "é\x7b1,x\x7d"
    let paren := "(é(b)"
    let boundErr : PatternError := .lex ⟨.invalidDecimalDigits, ⟨5, 6⟩⟩
    let parenErr : PatternError := .parse ⟨.unbalancedGroup, ⟨0, 1⟩⟩
    (bound.utf8ByteSize < UInt32.size ∧ compile bound = .error boundErr
        ∧ String.Pos.Raw.IsValid bound ⟨5⟩ ∧ String.Pos.Raw.IsValid bound ⟨6⟩
        ∧ Report.markedRange ⟨5, 6⟩ bound.toList = (5, 6))
      ∧ paren.utf8ByteSize < UInt32.size ∧ compile paren = .error parenErr
        ∧ String.Pos.Raw.IsValid paren ⟨0⟩ ∧ String.Pos.Raw.IsValid paren ⟨1⟩
        ∧ Report.markedRange ⟨0, 1⟩ paren.toList = (0, 1) := by
  intro bound paren boundErr parenErr
  have hboundText : bound.toList = ['é', '\x7b', '1', ',', 'x', '\x7d'] := by decide
  have hparenText : paren.toList = ['(', 'é', '(', 'b', ')'] := by decide
  let ts : List Token := [⟨.entity '(', ⟨0, 1⟩⟩, ⟨.char 'é', ⟨1, 3⟩⟩, ⟨.entity '(', ⟨3, 4⟩⟩,
    ⟨.char 'b', ⟨4, 5⟩⟩, ⟨.entity ')', ⟨5, 6⟩⟩]
  have hboundLex : Token.lex bound.toList = .error ⟨.invalidDecimalDigits, ⟨5, 6⟩⟩ := by
    rw [hboundText]
    with_unfolding_all rfl
  have hparenLex : Token.lex paren.toList = .ok ts := by
    rw [hparenText]
    with_unfolding_all rfl
  have hbound : compile bound = .error boundErr := by
    rw [compile, normalize, parse, lex, hboundLex]
    rfl
  have hparen : compile paren = .error parenErr := by
    rw [compile, normalize, parse, lex, hparenLex]
    rfl
  have hboundSize : bound.utf8ByteSize < UInt32.size := by decide
  have hparenSize : paren.utf8ByteSize < UInt32.size := by decide
  obtain ⟨span, hspan, -, -, hboundEnds⟩ := span_of_compile hboundSize hbound (.inl ⟨_, rfl⟩)
  obtain rfl := Option.some.inj hspan
  obtain ⟨span, hspan, -, -, hparenEnds⟩ := span_of_compile hparenSize hparen (.inr ⟨_, rfl⟩)
  obtain rfl := Option.some.inj hspan
  exact ⟨⟨hboundSize, hbound, hboundEnds⟩, hparenSize, hparen, hparenEnds⟩

end Pattern

end Regexp
