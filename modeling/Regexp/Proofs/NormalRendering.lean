import Regexp.Proofs.Malformed
import Regexp.Proofs.NormalForm

/-!
# Rendering normal forms

A control escape and the members of the class of white space become
escapes of width zero, which a pattern cannot write. So the rendering of a
normal form need not be a pattern. But it never means something else: a
normal form without such an escape is canonical and is read back as it is,
and any other one is rendered as a malformed text
(`Pattern.parse_toString_of_normalize`).

Some code points of the class have four digits, and their escapes alone
would be read as those of width four. They always stand behind a short
one, since the class is taken over as a whole
(`MetaChar.forall_isWritten_or_breaksOff`).
-/

namespace Regexp

/-! ## Escapes of width zero -/

/-- The letter is no escape of width zero. -/
def Letter.IsSized : Letter → Prop
  | .literal _ => True
  | .unicode _ width => width ≠ 0

/-- No letter of the member is an escape of width zero. -/
def SetMember.IsSized : SetMember → Prop
  | .letter a => a.IsSized
  | .range first last => first.IsSized ∧ last.IsSized

/-- No letter of the item is an escape of width zero. -/
def SetItem.IsSized : SetItem → Prop
  | .member m => m.IsSized
  | .metaChar _ => True

/-- No letter of the symbol is an escape of width zero. -/
def Symbol.IsSized : Symbol → Prop
  | .letter a => a.IsSized
  | .metaChar _ => True
  | .set s => ∀ i ∈ s.items, i.IsSized

theorem Letter.IsWritten.isSized {a : Letter} (h : a.IsWritten) : a.IsSized := by
  cases a with
  | literal c => trivial
  | unicode codePoint width => obtain ⟨rfl, -⟩ | ⟨rfl, -⟩ := h <;> exact Nat.succ_ne_zero _

theorem SetItem.IsWritten.isSized {i : SetItem} (h : i.IsWritten) : i.IsSized := by
  match i, h with
  | .member (.letter _), h => exact Letter.IsWritten.isSized h
  | .member (.range _ _), h => exact ⟨Letter.IsWritten.isSized h.1, Letter.IsWritten.isSized h.2⟩
  | .metaChar _, _ => trivial

/-- **What a pattern can write holds no escape of width zero.** -/
theorem Symbol.IsWritten.isSized {s : Symbol} (h : s.IsWritten) : s.IsSized := by
  cases s with
  | letter a => exact Letter.IsWritten.isSized h
  | metaChar m => trivial
  | set s => exact fun i hi => SetItem.IsWritten.isSized (h i hi)

theorem CharSet.BreaksOff.not_isSized {is : List SetItem} (h : BreaksOff is) :
    ¬∀ i ∈ is, i.IsSized := by
  intro hall
  induction h with
  | short _ => exact hall _ List.mem_cons_self rfl
  | cons _ _ ih => exact ih (List.forall_mem_cons.1 hall).2

namespace Expr

mutual

/-- The tree holds no escape of width zero, not even as the end of a
range. -/
def IsSized : Expr → Prop
  | symbol s => s.IsSized
  | sequence es => AllSized es
  | choice es => AllSized es
  | emptyGroup _ => True
  | group _ e => e.IsSized
  | repetition e _ => e.IsSized
  | lookAround _ _ e => e.IsSized

/-- None of the trees holds an escape of width zero. -/
def AllSized : List Expr → Prop
  | [] => True
  | e :: es => e.IsSized ∧ AllSized es

end

theorem allSized_of_forall {es : List Expr} (h : ∀ e ∈ es, e.IsSized) : AllSized es := by
  induction es with
  | nil => trivial
  | cons e es ih =>
    obtain ⟨he, hes⟩ := List.forall_mem_cons.1 h
    exact ⟨he, ih hes⟩

theorem Canonical.isSized {level : Level} {e : Expr} (h : Canonical level e) : e.IsSized := by
  induction h with
  | symbol h => exact Symbol.IsWritten.isSized h
  | emptyGroup _ _ => trivial
  | group _ _ _ ih => exact ih
  | atom _ ih => exact ih
  | repetition _ ih => exact ih
  | item _ ih => exact ih
  | sequence _ _ ih => exact allSized_of_forall ih
  | row _ ih => exact ih
  | choice _ _ ih => exact allSized_of_forall ih

end Expr

/-! ## What takes the place of a symbol -/

section Symbols

variable {m : MetaChar} {i : SetItem} {is js : List SetItem} {s t : Symbol}

/-- The code points of the control escapes have one digit. -/
theorem MetaChar.isShort_of_codePoint? {p : UInt32} (h : m.codePoint? = some p) :
    Letter.IsShort p := by
  cases m <;> cases h <;> rfl

/-- **The members of a class**: a pattern can write all of them, or they
break off, since the first escape of the white space is short. -/
theorem MetaChar.forall_isWritten_or_breaksOff {members : List SetMember}
    (h : m.classMembers? = some members) :
    (∀ i ∈ members.map SetItem.member, i.IsWritten)
      ∨ CharSet.BreaksOff (members.map .member) := by
  have hspace : CharSet.BreaksOff (CharClass.space.map .member) := .cons trivial (.short rfl)
  have hrange : ∀ first last : Char,
      SetItem.IsWritten (.member (.range (.literal first) (.literal last))) :=
    fun _ _ => ⟨trivial, trivial⟩
  have hdigit : ∀ i ∈ CharClass.digit.map SetItem.member, i.IsWritten :=
    List.forall_mem_singleton.2 (hrange '0' '9')
  have hword : ∀ i ∈ CharClass.word.map SetItem.member, i.IsWritten :=
    List.forall_mem_cons.2 ⟨hrange 'A' 'Z', List.forall_mem_cons.2 ⟨hrange 'a' 'z',
      List.forall_mem_cons.2 ⟨hrange '0' '9', List.forall_mem_singleton.2 trivial⟩⟩⟩
  unfold classMembers? at h
  split at h
  next => exact .inr (Option.some.inj h ▸ hspace)
  next => exact .inr (Option.some.inj h ▸ hspace)
  next => exact .inl (Option.some.inj h ▸ hword)
  next => exact .inl (Option.some.inj h ▸ hword)
  next => exact .inl (Option.some.inj h ▸ hdigit)
  next => exact .inl (Option.some.inj h ▸ hdigit)
  next => cases h

/-- The same for what takes the place of an item. -/
theorem SetItem.forall_isWritten_or_breaksOff (hi : i.IsWritten) (h : i.normalize = .ok js) :
    (∀ j ∈ js, j.IsWritten) ∨ CharSet.BreaksOff js := by
  cases i with
  | member member =>
    obtain rfl := Except.ok.inj h
    exact .inl (List.forall_mem_singleton.2 hi)
  | metaChar m =>
    rw [normalize] at h
    split at h
    next =>
      split at h
      next => cases h
      next =>
        split at h
        next members hmembers =>
          obtain rfl := Except.ok.inj h
          exact MetaChar.forall_isWritten_or_breaksOff hmembers
        next p hp =>
          obtain rfl := Except.ok.inj h
          exact .inr (.short (MetaChar.isShort_of_codePoint? hp))
        next => cases h
    next => cases h

/-- **The same for all items of a set**: what stands in front of the first
escape of width zero can be written, and that escape is short. -/
theorem CharSet.forall_isWritten_or_breaksOff (his : ∀ i ∈ is, i.IsWritten)
    (h : normalizeItems is = .ok js) : (∀ j ∈ js, j.IsWritten) ∨ BreaksOff js := by
  induction is generalizing js with
  | nil =>
    obtain rfl := Except.ok.inj h
    exact .inl nofun
  | cons i is ih =>
    obtain ⟨hi, his⟩ := List.forall_mem_cons.1 his
    rw [normalizeItems] at h
    split at h
    next => cases h
    next ks hks =>
      obtain ⟨ls, hls, rfl⟩ := map_eq_ok_iff.1 h
      obtain hks | hks := SetItem.forall_isWritten_or_breaksOff hi hks
      · obtain hls | hls := ih his hls
        · exact .inl (List.forall_mem_append.2 ⟨hks, hls⟩)
        · exact .inr (hls.behind hks)
      · exact .inr (hks.append ls)

/-- The items of a normal set break off only if its text is malformed. -/
theorem CharSet.BreaksOff.malformed {s : CharSet} (h : BreaksOff s.items)
    (hs : ∀ i ∈ s.items, i.IsNormal) :
    ¬(Symbol.set s).IsSized ∧ Token.Malformed (Symbol.set s).render := by
  refine ⟨h.not_isSized, Token.malformed_set h fun i hi => ?_⟩
  rintro rfl
  exact hs _ hi

/-- **A normalized symbol** can be written, or it holds an escape of width
zero and its text is malformed. -/
theorem Symbol.isWritten_or_malformed (hs : s.IsWritten) (h : s.normalize = .ok t) :
    t.IsWritten ∨ ¬t.IsSized ∧ Token.Malformed t.render := by
  have hnormal := isNormal_of_normalize h
  cases s with
  | letter a =>
    obtain rfl := Except.ok.inj h
    exact .inl hs
  | metaChar m =>
    rw [normalize, MetaChar.normalize] at h
    split at h
    next t _ hexpand =>
      obtain rfl := Except.ok.inj h
      unfold MetaChar.expand? at hexpand
      split at hexpand
      next p hp =>
        obtain rfl := Option.some.inj hexpand
        have hsized : ¬(Letter.ofCodePoint p).IsSized := fun h => h rfl
        exact .inr ⟨hsized, Token.malformed_letter (MetaChar.isShort_of_codePoint? hp)⟩
      next =>
        obtain ⟨members, hmembers, rfl⟩ := Option.map_eq_some_iff.1 hexpand
        exact (MetaChar.forall_isWritten_or_breaksOff hmembers).imp_right fun h =>
          CharSet.BreaksOff.malformed (s := ⟨_, _⟩) h hnormal
    next => cases h
  | set s =>
    obtain ⟨s', hs', rfl⟩ := map_eq_ok_iff.1 h
    obtain ⟨js, hjs, rfl⟩ := map_eq_ok_iff.1 hs'
    exact (CharSet.forall_isWritten_or_breaksOff hs hjs).imp_right fun h =>
      CharSet.BreaksOff.malformed (s := ⟨_, _⟩) h hnormal

end Symbols

/-! ## What takes the place of a tree -/

namespace Expr

open Token (Malformed)

variable {level level' : Level} {e n : Expr} {es ns : List Expr} {s s' : List Char}

/-- A text that is read in front of a malformed one. -/
theorem Reads.malformed {anywhere : Bool} {D : List Token → Prop} (h : Reads anywhere s D)
    (hs' : StartsPlain s') (h' : Malformed s') : Malformed (s ++ s') := by
  intro afterOpen start rest
  obtain ⟨ts, -, hyields⟩ := h afterOpen start (s' ++ rest) (.inr (hs'.append rest).head?_ne)
  unfold Token.Yields at hyields
  rw [List.append_assoc, hyields]
  exact (h' false _ rest).map _

/-- **The text is lost**: the tree holds an escape of width zero, and its
text is malformed. -/
structure Lost (isSized : Prop) (s : List Char) : Prop where
  /-- Some escape is of width zero. -/
  not_isSized : ¬isSized
  /-- No quantifier in front can take the first character. -/
  startsPlain : StartsPlain s
  /-- It is not read back. -/
  malformed : Malformed s

/-- Behind a canonical tree a lost text stays lost. -/
theorem Lost.behind {p q : Prop} (h : Lost p s') (he : Canonical level e) (hpq : q → p) :
    Lost q (e.render ++ s') :=
  ⟨fun hq => h.not_isSized (hpq hq), (startsPlain_render he).append s',
    (reads_render he).malformed h.startsPlain h.malformed⟩

/-- In front of any text a lost text stays lost. -/
theorem Lost.append {p q : Prop} (h : Lost p s) (s' : List Char) (hpq : q → p) :
    Lost q (s ++ s') :=
  ⟨fun hq => h.not_isSized (hpq hq), h.startsPlain.append s', h.malformed.append s'⟩

/-- Behind a parenthesis or a pipe a lost text stays lost. -/
theorem Lost.cons {p : Prop} {c : Char} (h : Lost p s) (hc : c = '(' ∨ c = ')' ∨ c = '|') :
    Lost p (c :: s) := by
  refine ⟨h.not_isSized, ⟨c, s, rfl, ?_⟩, (Token.lexeme_entity hc).malformed h.malformed⟩
  rintro rfl
  revert hc
  decide

/-- A row of which one item is lost is lost. -/
theorem lost_renderSequence (h : ∀ n ∈ ns, Canonical .item n ∨ Lost n.IsSized n.render) :
    (∀ n ∈ ns, Canonical .item n) ∨ Lost (AllSized ns) (renderSequence ns) := by
  induction ns with
  | nil => exact .inl nofun
  | cons n ns ih =>
    obtain ⟨hn, hns⟩ := List.forall_mem_cons.1 h
    obtain hn | hn := hn
    · obtain hns | hns := ih hns
      · exact .inl (List.forall_mem_cons.2 ⟨hn, hns⟩)
      · exact .inr (hns.behind hn And.right)
    · exact .inr (hn.append _ And.left)

/-- A choice of which one branch is lost is lost. -/
theorem lost_renderChoice (h : ∀ n ∈ ns, Canonical .row n ∨ Lost n.IsSized n.render) :
    (∀ n ∈ ns, Canonical .row n) ∨ Lost (AllSized ns) (renderChoice ns) := by
  induction ns with
  | nil => exact .inl nofun
  | cons n ns ih =>
    obtain ⟨hn, hns⟩ := List.forall_mem_cons.1 h
    match ns with
    | [] =>
      refine hn.imp List.forall_mem_singleton.2 fun hn => ?_
      exact ⟨fun h => hn.not_isSized h.1, hn.startsPlain, hn.malformed⟩
    | m :: ns =>
      obtain hn | hn := hn
      · obtain hns | hns := ih hns
        · exact .inl (List.forall_mem_cons.2 ⟨hn, hns⟩)
        · exact .inr ((hns.cons (.inr (.inr rfl))).behind hn And.right)
      · exact .inr (hn.append _ And.left)

/-- **A normal form of a canonical tree has the shape of a pattern, or its
text is lost.** -/
theorem canonical_or_lost (he : Canonical level e) (h : e.normalize = .ok n) :
    Canonical level n ∨ Lost n.IsSized n.render := by
  induction he generalizing n with
  | symbol hs =>
    obtain ⟨t, ht, rfl⟩ := map_eq_ok_iff.1 h
    refine (Symbol.isWritten_or_malformed hs ht).imp .symbol fun hlost => ?_
    exact ⟨hlost.1, startsPlain_symbol t, hlost.2⟩
  | emptyGroup hname hcapturing =>
    obtain rfl := Except.ok.inj h
    exact .inl (.emptyGroup hname hcapturing)
  | @group l e hname hcapturing _ ih =>
    obtain ⟨m, hm, rfl⟩ := map_eq_ok_iff.1 h
    refine (ih hm).imp (.group hname hcapturing) fun hlost => ?_
    show Lost m.IsSized ('(' :: (l.render ++ m.render ++ [')']))
    rw [(render_of_label hname hcapturing).1]
    exact (hlost.append [')'] id).cons (.inl rfl)
  | atom _ ih => exact (ih h).imp_left .atom
  | repetition _ ih =>
    obtain ⟨m, hm, rfl⟩ := map_eq_ok_iff.1 h
    exact (ih hm).imp .repetition fun hlost => hlost.append _ id
  | item _ ih => exact (ih h).imp_left .item
  | @sequence es hlen _ ih =>
    obtain ⟨ns, hns, rfl⟩ := map_eq_ok_iff.1 h
    have hlen' : 2 ≤ ns.length := (forall₂_of_normalizeAll hns).length_eq ▸ hlen
    refine (lost_renderSequence fun n hn => ?_).imp_left (.sequence hlen')
    obtain ⟨e, he, hen⟩ := exists_mem_of_normalizeAll hns n hn
    exact ih e he hen
  | row _ ih => exact (ih h).imp_left .row
  | @choice es hlen _ ih =>
    obtain ⟨ns, hns, rfl⟩ := map_eq_ok_iff.1 h
    have hlen' : 2 ≤ ns.length := (forall₂_of_normalizeAll hns).length_eq ▸ hlen
    refine (lost_renderChoice fun n hn => ?_).imp_left (.choice hlen')
    obtain ⟨e, he, hen⟩ := exists_mem_of_normalizeAll hns n hn
    exact ih e he hen

end Expr

/-! ## Patterns -/

namespace Pattern

/-- **The rendering of a normal form never means something else.** It is
read back as it is if it holds no escape of width zero. Otherwise it is
rejected because of a malformed escape. -/
theorem parse_toString_of_normalize {pattern : String} {n : Expr}
    (h : normalize pattern = .ok (some n)) :
    (n.IsSized → parse (toString n) = .ok (some n))
    ∧ (¬n.IsSized →
        ∃ span, parse (toString n) = .error (.lex ⟨.malformedUnicodeEscape, span⟩)) := by
  obtain ⟨-, hnone⟩ | ⟨e, f, hparse, hf, hn⟩ := normalize_eq_ok_iff.1 h
  · cases hnone
  obtain rfl := Option.some.inj hn
  obtain ⟨hshape, hnumbered⟩ := isCanonical_of_parse hparse
  have hnumbers := Expr.groupNumbers_of_resembles (Expr.resembles_of_normalize hf)
  obtain hcanonical | hlost := Expr.canonical_or_lost hshape hf
  · refine ⟨fun _ => parse_toString ⟨hcanonical, ?_⟩, fun hsized => absurd hcanonical.isSized hsized⟩
    rw [hnumbers]
    exact hnumbered
  · refine ⟨fun hsized => absurd hsized hlost.not_isSized, fun _ => ?_⟩
    obtain ⟨span, hlex⟩ := hlost.malformed.lex
    refine ⟨span, bind_eq_error_iff.2 (.inl (mapError_eq_error_iff.2 ⟨_, ?_, rfl⟩))⟩
    show Token.lex (String.ofList n.render).toList = _
    rw [String.toList_ofList]
    exact hlex

/-- The normal form of `\d` is read back, that of `\n` is not. -/
theorem parse_toString_of_normalize_escapes :
    let digit : Expr := .symbol (.set ⟨[.member (.range (.literal '0') (.literal '9'))], false⟩)
    let lineFeed : Expr := .symbol (.letter (.unicode 10 0))
    (normalize "\\d" = .ok (some digit) ∧ digit.IsSized ∧ toString digit = "[0-9]"
      ∧ parse "[0-9]" = .ok (some digit))
    ∧ normalize "\\n" = .ok (some lineFeed) ∧ ¬lineFeed.IsSized
      ∧ toString lineFeed = "\\u\x7ba\x7d"
      ∧ ∃ span, parse "\\u\x7ba\x7d" = .error (.lex ⟨.malformedUnicodeEscape, span⟩) := by
  intro digit lineFeed
  have hparse (m : MetaChar) : parse (toString (Expr.symbol (.metaChar m)))
      = .ok (some (.symbol (.metaChar m))) :=
    parse_toString ⟨.row (.item (.atom (.symbol trivial))), rfl⟩
  have hdigit : normalize "\\d" = .ok (some digit) :=
    normalize_eq_ok_iff.2 (.inr ⟨_, digit, hparse .digit, rfl, rfl⟩)
  have hlineFeed : normalize "\\n" = .ok (some lineFeed) :=
    normalize_eq_ok_iff.2 (.inr ⟨_, lineFeed, hparse .lineFeed, rfl, rfl⟩)
  have hsized : digit.IsSized :=
    List.forall_mem_singleton.2 ⟨trivial, trivial⟩
  have hnot : ¬lineFeed.IsSized := fun h => h rfl
  exact ⟨⟨hdigit, hsized, by decide, (parse_toString_of_normalize hdigit).1 hsized⟩,
    hlineFeed, hnot, by decide, (parse_toString_of_normalize hlineFeed).2 hnot⟩

end Pattern

end Regexp
