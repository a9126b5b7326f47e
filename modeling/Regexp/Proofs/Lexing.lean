import Regexp.Proofs.Canonical
import Regexp.Proofs.Numerals
import Regexp.Proofs.Scanning
import Regexp.Token.Lexer

/-!
# Which tokens are read

The tokens of a text are such as a pattern can write: unicode escapes
have four digits or six, sets hold letters, ranges and escapes, and
nothing is a group yet (`Token.isRead_of_lex`). So every tree that is
parsed from a text is canonical.
-/

namespace Regexp

namespace TokenKind

/-- **A member of a set that was read from a text.** -/
def IsMember : TokenKind Token → Prop
  | char _ => True
  | unicode codePoint width => (Letter.unicode codePoint width).IsWritten
  | metaChar m => m ≠ .dot
  | entity _ => True
  | _ => False

/-- **A token that was read from a text.** -/
def IsRead : TokenKind Token → Prop
  | unicode codePoint width => (Letter.unicode codePoint width).IsWritten
  | charSet members => ∀ t ∈ members, t.kind.IsMember
  | group _ => False
  | _ => True

theorem IsMember.isRead {k : TokenKind Token} (h : k.IsMember) : k.IsRead := by
  cases k with
  | charSet _ => exact h.elim
  | group _ => exact h
  | unicode _ _ => exact h
  | _ => trivial

end TokenKind

namespace Token

variable {t : Token} {ts : List Token} {p : PlacedPiece} {ps rest : List PlacedPiece} {c : Char}
variable {afterOpen inSet inner first : Bool} {digits : List Char}

/-- A member that stands for a letter stands for one that a pattern can
write. -/
theorem isWritten_of_letter? {a : Letter} (ht : t.kind.IsRead) (h : t.letter? = some a) :
    a.IsWritten := by
  obtain ⟨kind, span⟩ := t
  cases kind with
  | char c =>
    obtain rfl := Option.some.inj h
    trivial
  | unicode p w =>
    obtain rfl := Option.some.inj h
    exact ht
  | _ => cases h

/-- The items of a set that was read are such as a pattern can write. -/
theorem isWritten_of_lists {is : List SetItem} (h : CharSet.Lists ts is)
    (hts : ∀ t ∈ ts, t.kind.IsMember) : ∀ i ∈ is, i.IsWritten := by
  induction h with
  | nil => exact fun _ hi => nomatch hi
  | @metaChar t ts m is hm _ ih =>
    obtain ⟨ht, hts⟩ := List.forall_mem_cons.1 hts
    rw [hm] at ht
    exact List.forall_mem_cons.2 ⟨ht, ih hts⟩
  | letter ha _ ih =>
    obtain ⟨ht, hts⟩ := List.forall_mem_cons.1 hts
    exact List.forall_mem_cons.2 ⟨isWritten_of_letter? ht.isRead ha, ih hts⟩
  | range ha _ hb _ ih =>
    obtain ⟨ht, hts⟩ := List.forall_mem_cons.1 hts
    obtain ⟨-, hts⟩ := List.forall_mem_cons.1 hts
    obtain ⟨hu, hts⟩ := List.forall_mem_cons.1 hts
    exact List.forall_mem_cons.2
      ⟨⟨isWritten_of_letter? ht.isRead ha, isWritten_of_letter? hu.isRead hb⟩, ih hts⟩

/-- What was read spells only symbols that a pattern can write. -/
theorem isWritten_of_isRead (h : t.kind.IsRead) : t.IsWritten := by
  intro s hs
  cases hs with
  | letter ha => exact isWritten_of_letter? h ha
  | metaChar _ => trivial
  | set hk hs =>
    rw [hk] at h
    cases hs with
    | positive hlists => exact isWritten_of_lists hlists h
    | negative _ hlists => exact isWritten_of_lists hlists (List.forall_mem_cons.1 h).2

theorem isGroup_of_isRead (h : t.kind.IsRead) : t.isGroup = false := by
  obtain ⟨kind, span⟩ := t
  cases kind with
  | group _ => exact h.elim
  | _ => rfl

/-! ## Reading one token -/

theorem isMember_of_ofEscape (h : ofEscape inSet p c = .ok t) : t.kind.IsMember := by
  unfold ofEscape at h
  split at h
  next =>
    obtain rfl := Except.ok.inj h
    trivial
  next =>
    split at h
    next m hm =>
      obtain rfl := Except.ok.inj h
      rintro rfl
      cases MetaChar.ofEscape?_eq_some_iff.1 hm
    next => split at h <;> cases h

/-- The digits of a unicode escape leave no room for anything that is no
code point. -/
theorem isMember_of_ofUnicodeEscape (h : ofUnicodeEscape p digits = .ok t) : t.kind.IsMember := by
  unfold ofUnicodeEscape at h
  split at h
  next hwidth =>
    split at h
    next => cases h
    next => cases h
    next n hn =>
      split at h
      next hle =>
        obtain rfl := Except.ok.inj h
        have hlt := Numeral.lt_of_read (by decide) hn
        have hnat : n.toUInt32.toNat = n :=
          UInt32.toNat_ofNat_of_lt' (Nat.lt_of_le_of_lt hle (by decide))
        rw [isEscapeWidth, Bool.or_eq_true, beq_iff_eq, beq_iff_eq] at hwidth
        obtain hwidth | hwidth := hwidth
        · refine .inl ⟨hwidth, UInt32.le_iff_toNat_le.2 ?_⟩
          rw [hwidth] at hlt
          rw [hnat]
          exact Nat.le_of_lt_succ hlt
        · exact .inr ⟨hwidth, UInt32.le_iff_toNat_le.2 (hnat.symm ▸ hle)⟩
      next => cases h
  next => cases h

theorem isMember_of_ofMember (h : ofMember inner p = .ok ts) : ∀ t ∈ ts, t.kind.IsMember := by
  unfold ofMember at h
  split at h
  next =>
    obtain ⟨t, ht, rfl⟩ := map_eq_ok_iff.1 h
    exact List.forall_mem_singleton.2 (isMember_of_ofEscape ht)
  next =>
    obtain ⟨t, ht, rfl⟩ := map_eq_ok_iff.1 h
    exact List.forall_mem_singleton.2 (isMember_of_ofUnicodeEscape ht)
  next => cases h
  next =>
    obtain rfl := Except.ok.inj h
    exact List.forall_mem_cons.2 ⟨trivial, List.forall_mem_singleton.2 trivial⟩
  next =>
    obtain rfl := Except.ok.inj h
    exact List.forall_mem_singleton.2 trivial
  next =>
    obtain rfl := Except.ok.inj h
    refine List.forall_mem_singleton.2 ?_
    dsimp only
    split <;> trivial

theorem isMember_of_ofMembers (h : ofMembers first ps = .ok ts) : ∀ t ∈ ts, t.kind.IsMember := by
  induction ps generalizing first ts with
  | nil =>
    obtain rfl := Except.ok.inj h
    exact fun _ ht => nomatch ht
  | cons p ps ih =>
    rw [ofMembers] at h
    split at h
    next => cases h
    next us hus =>
      obtain ⟨vs, hvs, rfl⟩ := map_eq_ok_iff.1 h
      exact List.forall_mem_append.2 ⟨isMember_of_ofMember hus, ih hvs⟩

theorem isMember_of_ofSetInterior (h : ofSetInterior ps = .ok ts) : ∀ t ∈ ts, t.kind.IsMember := by
  unfold ofSetInterior at h
  split at h
  next =>
    obtain ⟨us, hus, rfl⟩ := map_eq_ok_iff.1 h
    exact List.forall_mem_cons.2 ⟨trivial, isMember_of_ofMembers hus⟩
  next => exact isMember_of_ofMembers h

theorem isRead_of_lexOne (h : lexOne afterOpen p ps = .ok (t, rest)) : t.kind.IsRead := by
  unfold lexOne at h
  split at h
  next =>
    obtain ⟨u, hu, heq⟩ := map_eq_ok_iff.1 h
    obtain ⟨rfl, -⟩ := Prod.mk.inj heq
    exact (isMember_of_ofEscape hu).isRead
  next =>
    obtain ⟨u, hu, heq⟩ := map_eq_ok_iff.1 h
    obtain ⟨rfl, -⟩ := Prod.mk.inj heq
    exact (isMember_of_ofUnicodeEscape hu).isRead
  next => cases h
  next =>
    obtain ⟨rfl, -⟩ := Prod.mk.inj (Except.ok.inj h)
    unfold ofOperator
    split <;> trivial
  next =>
    split at h
    next =>
      unfold lexSet at h
      split at h
      next => cases h
      next =>
        obtain ⟨members, hmembers, heq⟩ := map_eq_ok_iff.1 h
        obtain ⟨rfl, -⟩ := Prod.mk.inj heq
        exact isMember_of_ofSetInterior hmembers
    next =>
      split at h
      next =>
        unfold lexQuantity at h
        split at h
        next => cases h
        next =>
          obtain ⟨count, -, heq⟩ := map_eq_ok_iff.1 h
          obtain ⟨rfl, -⟩ := Prod.mk.inj heq
          trivial
      next =>
        split at h
        next =>
          obtain ⟨rfl, -⟩ := Prod.mk.inj (Except.ok.inj h)
          trivial
        next =>
          split at h <;>
            · obtain ⟨rfl, -⟩ := Prod.mk.inj (Except.ok.inj h)
              trivial

/-- **Every token of a text was read from it.** -/
theorem isRead_of_lexPieces (h : lexPieces afterOpen ps = .ok ts) : ∀ t ∈ ts, t.kind.IsRead := by
  -- a token may take several pieces, so the induction is on the tokens
  induction ts generalizing afterOpen ps with
  | nil => exact fun _ ht => nomatch ht
  | cons t ts ih =>
    obtain ⟨p, qs, rest, -, hone, hrest⟩ := lexPieces_eq_ok_cons_iff.1 h
    exact List.forall_mem_cons.2 ⟨isRead_of_lexOne hone, ih hrest⟩

theorem isRead_of_lex {pattern : List Char} (h : lex pattern = .ok ts) : ∀ t ∈ ts, t.kind.IsRead :=
  isRead_of_lexPieces h

/-- Lexing makes no groups. -/
theorem flat_of_lex {pattern : List Char} (h : lex pattern = .ok ts) : Flat ts :=
  fun t ht => isGroup_of_isRead (isRead_of_lex h t ht)

end Token

/-- **What is parsed from a text is canonical.** -/
theorem Expr.isCanonical_of_lex {pattern : List Char} {ts : List Token} {e : Expr}
    (hts : Token.lex pattern = .ok ts) (h : parse ts = .ok (some e)) : e.IsCanonical := by
  have hwritten (t : Token) (ht : t ∈ ts) : t.IsWritten :=
    Token.isWritten_of_isRead (Token.isRead_of_lex hts t ht)
  exact isCanonical_of_parse (Token.flat_of_lex hts) hwritten h

end Regexp
