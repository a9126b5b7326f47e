import Regexp.Proofs.Passes
import Regexp.Proofs.QuantifierRendering
import Regexp.Proofs.SetRendering

/-!
# Rendering and parsing

What is parsed from a pattern is canonical, and a canonical tree is
parsed from the pattern that it is rendered as.

A canonical tree of some level is rendered as tokens from which the
grammar derives it on that level (`Expr.reads_render`), apart from the
numbers of its groups. This holds in front of any text that does not
start with a question mark, which would make a quantifier lazy. Nothing
that is rendered starts with one, so the parts of a tree do not run into
each other.
-/

namespace Regexp

namespace Token

variable {a b c : Bool} {start : Nat} {s s' rest : List Char} {ts us : List Token}

/-- **The text `s` in front of `rest` is read as the tokens `ts`.** `a` and
`b` say whether an opening parenthesis stands right before `s`, and right
before `rest`. -/
def Yields (a : Bool) (start : Nat) (s rest : List Char) (ts : List Token) (b : Bool) : Prop :=
  lexFrom a start (s ++ rest) = (lexFrom b (start + Text.byteLength s) rest).map (ts ++ ·)

/-- **One text after the other.** -/
theorem Yields.append (h : Yields a start s (s' ++ rest) ts b)
    (h' : Yields b (start + Text.byteLength s) s' rest us c) :
    Yields a start (s ++ s') rest (ts ++ us) c := by
  unfold Yields at h h' ⊢
  rw [List.append_assoc, h, h', map_map, Text.byteLength_append, Nat.add_assoc]
  simp only [List.append_assoc]

/-- A text on its own is read to its end. -/
theorem Yields.lex_eq (h : Yields false 0 s [] ts b) : lex s = .ok ts := by
  unfold Yields at h
  rw [List.append_nil] at h
  show lexFrom false 0 s = _
  rw [h, lexFrom, Piece.scan_nil]
  show (lexPieces b []).map _ = _
  rw [lexPieces_nil]
  exact congrArg Except.ok (List.append_nil ts)

end Token

namespace Expr

open Token (Yields)

variable {level : Level} {e : Expr} {es : List Expr} {s s' rest : List Char}
variable {D D' : List Token → Prop}

/-! ## Where a rendered tree starts -/

/-- The text is not empty and does not start with a question mark. -/
def StartsPlain (s : List Char) : Prop := ∃ c s', s = c :: s' ∧ c ≠ '?'

theorem StartsPlain.append (h : StartsPlain s) (s' : List Char) : StartsPlain (s ++ s') := by
  obtain ⟨c, s, rfl, hc⟩ := h
  exact ⟨c, s ++ s', rfl, hc⟩

theorem StartsPlain.head?_ne (h : StartsPlain s) : s.head? ≠ some '?' := by
  obtain ⟨c, s, rfl, hc⟩ := h
  exact fun h => hc (Option.some.inj h)

theorem startsPlain_symbol (s : Symbol) : StartsPlain s.render := by
  cases s with
  | letter a =>
    cases a with
    | literal c =>
      show StartsPlain (Letter.literal c).render
      rw [Token.render_literal]
      split
      next => exact ⟨_, _, rfl, by decide⟩
      next hc =>
        refine ⟨c, [], rfl, ?_⟩
        rintro rfl
        exact hc rfl
    | unicode codePoint width => exact ⟨_, _, rfl, by decide⟩
  | metaChar m => cases m <;> exact ⟨_, _, rfl, by decide⟩
  | set s => exact ⟨_, _, rfl, by decide⟩

theorem startsPlain_renderSequence (h : StartsPlain e.render) (es : List Expr) :
    StartsPlain (renderSequence (e :: es)) :=
  h.append _

theorem startsPlain_renderChoice (h : StartsPlain e.render) (es : List Expr) :
    StartsPlain (renderChoice (e :: es)) := by
  cases es with
  | nil => exact h
  | cons f es => exact h.append _

/-- **Nothing that is rendered starts with a question mark.** -/
theorem startsPlain_render (h : Canonical level e) : StartsPlain e.render := by
  induction h with
  | symbol _ => exact startsPlain_symbol _
  | emptyGroup _ _ => exact ⟨_, _, rfl, by decide⟩
  | group _ _ _ _ => exact ⟨_, _, rfl, by decide⟩
  | atom _ ih => exact ih
  | repetition _ ih => exact ih.append _
  | item _ ih => exact ih
  | @sequence es hlen _ ih =>
    match es, hlen with
    | e :: es, _ => exact startsPlain_renderSequence (ih e List.mem_cons_self) es
  | row _ ih => exact ih
  | @choice es hlen _ ih =>
    match es, hlen with
    | e :: es, _ => exact startsPlain_renderChoice (ih e List.mem_cons_self) es

/-! ## How a rendered tree is read -/

/-- **The text is read as tokens with the property `D`**, whatever stands
before it and whatever follows, except that a question mark may only
follow if `anywhere` says so. -/
def Reads (anywhere : Bool) (s : List Char) (D : List Token → Prop) : Prop :=
  ∀ afterOpen start rest, anywhere = true ∨ rest.head? ≠ some '?' →
    ∃ ts, D ts ∧ Yields afterOpen start s rest ts false

variable {anywhere : Bool}

theorem Reads.imp (h : Reads anywhere s D) (hD : ∀ ts, D ts → D' ts) : Reads anywhere s D' := by
  intro afterOpen start rest hrest
  obtain ⟨ts, hts, hyields⟩ := h afterOpen start rest hrest
  exact ⟨ts, hD ts hts, hyields⟩

theorem Reads.weaken (h : Reads true s D) : Reads false s D :=
  fun afterOpen start rest _ => h afterOpen start rest (.inl rfl)

/-- One text after another one. -/
theorem Reads.append {D'' : List Token → Prop} (h : Reads false s D) (h' : Reads false s' D')
    (hs' : StartsPlain s') (hD : ∀ ts us, D ts → D' us → D'' (ts ++ us)) :
    Reads false (s ++ s') D'' := by
  intro afterOpen start rest hrest
  obtain ⟨ts, hts, hyields⟩ := h afterOpen start (s' ++ rest) (.inr (hs'.append rest).head?_ne)
  obtain ⟨us, hus, hyields'⟩ := h' false (start + Text.byteLength s) rest hrest
  exact ⟨ts ++ us, hD ts us hts hus, hyields.append hyields'⟩

/-- A lexeme is read as a single token. -/
theorem reads_of_lexeme {P : Token → Prop} (h : Token.Lexeme s P)
    (hP : ∀ t, P t → t.isEntity '(' = false) :
    Reads true s fun ts => ∃ t, ts = [t] ∧ P t := by
  intro afterOpen start rest _
  obtain ⟨t, ht, hlex⟩ := h afterOpen start rest
  rw [hP t ht] at hlex
  exact ⟨[t], ⟨t, rfl, ht⟩, hlex⟩

/-- A symbol is read as an atom. -/
theorem reads_symbol {s : Symbol} (h : s.IsWritten) :
    Reads true s.render (Derives .atom · [.symbol s]) := by
  have hnot : ∀ t : Token, t.Spells s → t.isEntity '(' = false :=
    fun t ht => isEntity_of_ofToken (ofToken_of_spells ht) '('
  refine (reads_of_lexeme (Token.lexeme_symbol h) hnot).imp ?_
  rintro _ ⟨t, rfl, ht⟩
  exact .symbol ht

/-- What stands between parentheses is read as if it stood alone. -/
theorem reads_parentheses {D'' : List Token → Prop} (h : Reads false s D)
    (hD : ∀ (o c : Token) (ts : List Token), o.isEntity '(' = true → c.isEntity ')' = true → D ts →
      D'' (o :: (ts ++ [c]))) :
    Reads true ('(' :: (s ++ [')'])) D'' := by
  intro afterOpen start rest _
  have hmark : ([')'] ++ rest).head? ≠ some '?' := by
    rw [List.singleton_append, List.head?_cons]
    decide
  -- right behind the opening parenthesis an operator would quantify nothing
  obtain ⟨o, ho, hopen⟩ := Token.lexeme_entity (.inl rfl) afterOpen start (s ++ [')'] ++ rest)
  rw [ho] at hopen
  obtain ⟨ts, hts, hbody⟩ :=
    h true (start + Text.byteLength ['(']) ([')'] ++ rest) (.inr hmark)
  obtain ⟨c, hc, hclose⟩ := Token.lexeme_entity (.inr (.inl rfl)) false
    (start + Text.byteLength ['('] + Text.byteLength s) rest
  rw [Token.isEntity_of_ne hc (by decide)] at hclose
  have hinner : Yields true (start + Text.byteLength ['(']) (s ++ [')']) rest (ts ++ [c]) false :=
    hbody.append hclose
  have houter : Yields afterOpen start ['('] (s ++ [')'] ++ rest) [o] true := hopen
  exact ⟨o :: (ts ++ [c]), hD o c ts ho hc hts, houter.append hinner⟩

/-- A pair of parentheses is read as an empty group. -/
theorem reads_emptyParentheses : Reads true ['(', ')'] (Derives .atom · [.emptyGroup .plain]) := by
  intro afterOpen start rest _
  obtain ⟨o, ho, hopen⟩ := Token.lexeme_entity (.inl rfl) afterOpen start ([')'] ++ rest)
  rw [ho] at hopen
  obtain ⟨c, hc, hclose⟩ :=
    Token.lexeme_entity (.inr (.inl rfl)) true (start + Text.byteLength ['(']) rest
  rw [Token.isEntity_of_ne hc (by decide)] at hclose
  have houter : Yields afterOpen start ['('] ([')'] ++ rest) [o] true := hopen
  exact ⟨[o, c], .emptyGroup ho hc, houter.append hclose⟩

/-- An atom with a quantifier behind it is read as an item. -/
theorem reads_repetition (h : Reads true s (Derives .atom · [e])) (q : Quantifier) :
    Reads false (s ++ q.render) (Derives .item · [.repetition e q]) := by
  intro afterOpen start rest hrest
  have hrest := hrest.resolve_left nofun
  obtain ⟨ts, hts, hyields⟩ := h afterOpen start (q.render ++ rest) (.inl rfl)
  obtain ⟨t, ht, hlex⟩ :=
    Token.lexFrom_quantity q.quantity hrest (start + Text.byteLength s)
  refine ⟨ts ++ [t], ?_, hyields.append hlex⟩
  have hitem := Derives.repetition hts ht
  rwa [← Quantifier.ofQuantity_eq, Quantifier.ofQuantity_quantity] at hitem

/-- Items one after the other are read as a row. -/
theorem reads_renderSequence (hne : es ≠ []) (hes : ∀ e ∈ es, StartsPlain e.render)
    (h : ∀ e ∈ es, Reads false e.render (Derives .item · [e.unnumber])) :
    Reads false (renderSequence es) (Derives .row · (es.map unnumber)) := by
  induction es with
  | nil => exact (hne rfl).elim
  | cons e es ih =>
    obtain ⟨he, hes'⟩ := List.forall_mem_cons.1 h
    match es with
    | [] =>
      show Reads false (e.render ++ []) _
      rw [List.append_nil]
      exact he.imp fun _ => .item
    | f :: es =>
      obtain ⟨-, hstarts⟩ := List.forall_mem_cons.1 hes
      have hrest := ih (List.cons_ne_nil f es) hstarts hes'
      have hplain := startsPlain_renderSequence (hstarts f List.mem_cons_self) es
      exact he.append hrest hplain fun _ _ => .cons

theorem ofRow_of_two_le (h : 2 ≤ es.length) : ofRow es = .sequence es := by
  match es, h with
  | _ :: _ :: _, _ => rfl

theorem ofBranchList_of_two_le (h : 2 ≤ es.length) : ofBranchList es = .choice es := by
  match es, h with
  | _ :: _ :: _, _ => rfl

/-- The grammar derives the tree from the tokens of a row. -/
def MakesRow (ts : List Token) (e : Expr) : Prop :=
  ∃ es, Derives .row ts es ∧ ofRow es = e

/-- A text behind a pipe. -/
theorem reads_pipe (h : Reads false s D) (hs : StartsPlain s) :
    Reads false ('|' :: s) fun us => ∃ t ts, us = t :: ts ∧ t.isEntity '|' = true ∧ D ts := by
  have hpipe : Reads false ['|'] fun ts => ∃ t, ts = [t] ∧ t.isEntity '|' = true :=
    (reads_of_lexeme (Token.lexeme_entity (.inr (.inr rfl))) fun t ht =>
      Token.isEntity_of_ne ht (by decide)).weaken
  refine hpipe.append h hs ?_
  rintro _ ts ⟨t, rfl, ht⟩ hts
  exact ⟨t, ts, rfl, ht, hts⟩

/-- Rows with pipes between them are read as branches. -/
theorem reads_renderChoice (hne : es ≠ []) (hes : ∀ e ∈ es, StartsPlain e.render)
    (h : ∀ e ∈ es, Reads false e.render (MakesRow · e.unnumber)) :
    Reads false (renderChoice es) (Derives .branches · (es.map unnumber)) := by
  induction es with
  | nil => exact (hne rfl).elim
  | cons e es ih =>
    obtain ⟨he, hes'⟩ := List.forall_mem_cons.1 h
    match es with
    | [] =>
      refine he.imp ?_
      rintro ts ⟨fs, hfs, heq⟩
      rw [List.map_singleton, ← heq]
      exact .branch hfs
    | f :: es =>
      obtain ⟨-, hstarts⟩ := List.forall_mem_cons.1 hes
      have hrest := ih (List.cons_ne_nil f es) hstarts hes'
      have hplain := startsPlain_renderChoice (hstarts f List.mem_cons_self) es
      refine he.append (reads_pipe hrest hplain) ⟨_, _, rfl, by decide⟩ ?_
      rintro ts _ ⟨fs, hfs, heq⟩ ⟨t, us, rfl, ht, hus⟩
      rw [List.map_cons, ← heq]
      exact .pipe hfs ht hus

/-- What the tokens of a canonical tree are to the grammar. -/
def Makes : Level → List Token → Expr → Prop
  | .row, ts, e => MakesRow ts e
  | level, ts, e => Derives level ts [e]

/-- Whether the level is that of atoms. -/
def Level.isAtom : Level → Bool
  | .atom => true
  | _ => false

theorem render_of_label {l : GroupLabel} (hname : l.name = none) (hcapturing : l.capturing = true) :
    l.render = [] ∧ { l with number := none } = GroupLabel.plain := by
  obtain ⟨number, name, capturing⟩ := l
  cases hname
  cases hcapturing
  exact ⟨rfl, rfl⟩

/-- **A canonical tree is rendered as tokens from which the grammar
derives it**, apart from the numbers of its groups. -/
theorem reads_render (h : Canonical level e) :
    Reads level.isAtom e.render (Makes level · e.unnumber) := by
  induction h with
  | symbol h => exact reads_symbol h
  | @emptyGroup l hname hcapturing =>
    obtain ⟨hlabel, hplain⟩ := render_of_label hname hcapturing
    show Reads true ('(' :: (l.render ++ [')'])) (Derives .atom · [.emptyGroup _])
    rw [hlabel, hplain]
    exact reads_emptyParentheses
  | @group l e hname hcapturing _ ih =>
    obtain ⟨hlabel, hplain⟩ := render_of_label hname hcapturing
    show Reads true ('(' :: (l.render ++ e.render ++ [')'])) (Derives .atom · [.group _ e.unnumber])
    rw [hlabel, hplain]
    exact reads_parentheses ih fun _ _ _ ho hc hts => .group ho hc hts
  | atom _ ih => exact ih.weaken.imp fun _ => .atom
  | @repetition e q _ ih => exact reads_repetition ih q
  | item _ ih => exact ih.imp fun ts h => ⟨_, .item h, rfl⟩
  | @sequence es hlen hes ih =>
    have hne : es ≠ [] := by
      rintro rfl
      cases hlen
    have hrow := reads_renderSequence hne (fun e he => startsPlain_render (hes e he)) ih
    refine hrow.imp fun ts hts => ⟨_, hts, ?_⟩
    rw [unnumber, unnumberAll_eq_map]
    refine ofRow_of_two_le ?_
    rwa [List.length_map]
  | row _ ih =>
    refine ih.imp ?_
    rintro ts ⟨fs, hfs, heq⟩
    have hbody := Derives.body (.branch hfs)
    rw [heq] at hbody
    exact hbody
  | @choice es hlen hes ih =>
    have hne : es ≠ [] := by
      rintro rfl
      cases hlen
    have hbranches := reads_renderChoice hne (fun e he => startsPlain_render (hes e he)) ih
    refine hbranches.imp fun ts hts => ?_
    have hlen' : 2 ≤ (es.map unnumber).length := by rwa [List.length_map]
    have hbody := Derives.body hts
    rw [ofBranchList_of_two_le hlen', ← unnumberAll_eq_map] at hbody
    exact hbody

/-- **A canonical tree is parsed from the pattern that it is rendered
as.** -/
theorem parse_of_isCanonical (h : e.IsCanonical) :
    ∃ ts, Token.lex e.render = .ok ts ∧ parse ts = .ok (some e) := by
  obtain ⟨ts, hts, hyields⟩ := reads_render h.shape false 0 [] (.inr nofun)
  have hlex := hyields.lex_eq
  refine ⟨ts, hlex, ?_⟩
  have hflat := Token.flat_of_lex hlex
  -- the grammar knows no numbers, and numbering brings them back
  have hnumber : e.unnumber.numberGroups = e := numberGroups_unnumber h.numbered
  exact (parse_eq_ok_iff hflat).2 (.inr ⟨e.unnumber, by rw [hnumber], hts⟩)

end Expr

namespace Pattern

/-- What is parsed from a pattern is canonical. -/
theorem isCanonical_of_parse {pattern : String} {e : Expr} (h : parse pattern = .ok (some e)) :
    e.IsCanonical := by
  obtain ⟨ts, hts, hparse⟩ := parse_eq_ok_iff.1 h
  exact Expr.isCanonical_of_lex hts hparse

/-- A canonical tree is parsed from its pattern text. -/
theorem parse_toString {e : Expr} (h : e.IsCanonical) : parse (toString e) = .ok (some e) := by
  obtain ⟨ts, hts, hparse⟩ := Expr.parse_of_isCanonical h
  refine parse_eq_ok_iff.2 ⟨ts, ?_, hparse⟩
  show Token.lex (String.ofList e.render).toList = _
  rw [String.toList_ofList]
  exact hts

/-- **Rendering and parsing are inverse to each other on the canonical
trees**, and only canonical trees are ever parsed. -/
theorem parse_roundTrip :
    (∀ (pattern : String) (e : Expr), parse pattern = .ok (some e) → e.IsCanonical) ∧
      ∀ e : Expr, e.IsCanonical → parse (toString e) = .ok (some e) :=
  ⟨fun _ _ => isCanonical_of_parse, fun _ => parse_toString⟩

/-- A set of operators, a dash at its end, and a lazy quantifier. -/
theorem parse_roundTrip_operators :
    let set : Symbol := .set ⟨[.member (.letter (.literal '*')), .member (.letter (.literal '?')),
      .member (.letter (.literal '-'))], false⟩
    let e : Expr := .repetition (.group ⟨some 1, none, true⟩
      (.choice [.symbol (.letter (.literal 'a')), .symbol set])) (.oneOrMore false)
    toString e = "(a|[*?-])+?" ∧ parse "(a|[*?-])+?" = .ok (some e) ∧ e.IsCanonical := by
  intro set e
  have hwritten : set.IsWritten :=
    List.forall_mem_cons.2
      ⟨trivial, List.forall_mem_cons.2 ⟨trivial, List.forall_mem_singleton.2 trivial⟩⟩
  have hshape : Expr.Canonical .body e := by
    refine .row (.item (.repetition (.group rfl rfl (.choice (by decide) ?_))))
    refine List.forall_mem_cons.2 ⟨.item (.atom (.symbol trivial)), ?_⟩
    exact List.forall_mem_singleton.2 (.item (.atom (.symbol hwritten)))
  have hrender : toString e = "(a|[*?-])+?" := by decide
  have hparse := parse_roundTrip.2 e ⟨hshape, rfl⟩
  rw [hrender] at hparse
  exact ⟨hrender, hparse, parse_roundTrip.1 _ _ hparse⟩

end Pattern

end Regexp
