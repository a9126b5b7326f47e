import Regexp.Proofs.Grammar

/-!
# Phrases

An `Expr.Phrase` is a derivation tree of the grammar of patterns. It
keeps the place of each of its tokens, so it knows the list of tokens
that it derives (`Phrase.tokens`) and the tree that this list is parsed
as (`Phrase.tree`). What the grammar derives is just what phrases do
(`Expr.exists_phrase_of_derives`, `Phrase.derives`).

Below the level of atoms, tokens spell symbols and sets in one way only
(`SymbolPhrase.token_inj`, `SetPhrase.setTokens_inj`).
-/

namespace Regexp

/-- The token of a letter at a place. -/
def Letter.token (a : Letter) (place : Span) : Token :=
  match a with
  | .literal c => ⟨.char c, place⟩
  | .unicode codePoint width => ⟨.unicode codePoint width, place⟩

namespace Letter

variable {a b : Letter} {t : Token} {p q : Span} {c : Char}

@[simp] theorem letter?_token (a : Letter) (p : Span) : (a.token p).letter? = some a := by
  cases a <;> rfl

@[simp] theorem isEntity_token (a : Letter) (p : Span) (c : Char) :
    (a.token p).isEntity c = false := by
  cases a <;> rfl

/-- A token that stands for a letter is the token of that letter. -/
theorem token_of_letter? (h : t.letter? = some a) : a.token t.span = t := by
  obtain ⟨kind, span⟩ := t
  cases kind with
  | char c =>
    obtain rfl := Option.some.inj h
    rfl
  | unicode codePoint width =>
    obtain rfl := Option.some.inj h
    rfl
  | _ => cases h

theorem token_inj (h : a.token p = b.token q) : a = b ∧ p = q := by
  have hletter := congrArg Token.letter? h
  rw [letter?_token, letter?_token] at hletter
  obtain rfl := Option.some.inj hletter
  refine ⟨rfl, ?_⟩
  cases a <;> exact congrArg Token.span h

end Letter

namespace Token

variable {t : Token} {c : Char}

/-- A structuring character at its place. -/
theorem eq_of_isEntity (h : t.isEntity c = true) : t = ⟨.entity c, t.span⟩ := by
  obtain ⟨kind, span⟩ := t
  obtain rfl : kind = .entity c := kind_of_isEntity h
  rfl

end Token

/-! ## Sets -/

/-- **A member of a set**, with the places of its tokens. -/
inductive SetPhrase where
  /-- A meta character. -/
  | metaChar (m : MetaChar) (place : Span)
  /-- A letter. -/
  | letter (a : Letter) (place : Span)
  /-- Two letters with a dash between. -/
  | range (first : Letter) (atFirst dash : Span) (last : Letter) (atLast : Span)

namespace SetPhrase

/-- The tokens of the member. -/
def tokens : SetPhrase → List Token
  | metaChar m place => [⟨.metaChar m, place⟩]
  | letter a place => [a.token place]
  | range a p dash b q => [a.token p, ⟨.entity '-', dash⟩, b.token q]

/-- The item that the member denotes. -/
def item : SetPhrase → SetItem
  | metaChar m _ => .metaChar m
  | letter a _ => .member (.letter a)
  | range a _ _ b _ => .member (.range a b)

/-- The tokens between the brackets of a set, where `mark` is the place of
the circumflex in front if there is one. -/
def setTokens (mark : Option Span) (members : List SetPhrase) : List Token :=
  mark.toList.map (⟨.entity '^', ·⟩) ++ members.flatMap tokens

/-- The set that the members denote. -/
def set (mark : Option Span) (members : List SetPhrase) : CharSet :=
  ⟨members.map item, mark.isSome⟩

variable {ts : List Token} {is : List SetItem} {s : CharSet}
variable {m n : SetPhrase} {ms ns : List SetPhrase} {mark mark' : Option Span}

/-- **Tokens list the items of a set just if they are those of its
members.** -/
theorem lists_iff :
    CharSet.Lists ts is ↔ ∃ ms : List SetPhrase, ms.flatMap tokens = ts ∧ ms.map item = is := by
  constructor
  · intro h
    induction h with
    | nil => exact ⟨[], rfl, rfl⟩
    | @metaChar t ts m is h _ ih =>
      obtain ⟨ms, rfl, rfl⟩ := ih
      obtain ⟨kind, span⟩ := t
      obtain rfl : kind = .metaChar m := h
      exact ⟨metaChar m span :: ms, rfl, rfl⟩
    | @letter t ts a is h _ ih =>
      obtain ⟨ms, rfl, rfl⟩ := ih
      refine ⟨letter a t.span :: ms, ?_, rfl⟩
      rw [List.flatMap_cons, tokens, Letter.token_of_letter? h]
      rfl
    | @range t d u ts a b is ha hd hb _ ih =>
      obtain ⟨ms, rfl, rfl⟩ := ih
      refine ⟨range a t.span d.span b u.span :: ms, ?_, rfl⟩
      rw [List.flatMap_cons, tokens, Letter.token_of_letter? ha, Letter.token_of_letter? hb,
        ← Token.eq_of_isEntity hd]
      rfl
  · rintro ⟨ms, rfl, rfl⟩
    induction ms with
    | nil => exact .nil
    | cons m ms ih =>
      cases m with
      | metaChar m p => exact .metaChar rfl ih
      | letter a p => exact .letter (a.letter?_token p) ih
      | range a p d b q => exact .range (a.letter?_token p) rfl (b.letter?_token q) ih

/-- Tokens spell a set just if they are those of its members, behind a
circumflex if the set is negative. -/
theorem spells_iff : CharSet.Spells ts s ↔ ∃ mark ms, setTokens mark ms = ts ∧ set mark ms = s := by
  constructor
  · intro h
    cases h with
    | positive h =>
      obtain ⟨ms, rfl, rfl⟩ := lists_iff.1 h
      exact ⟨none, ms, rfl, rfl⟩
    | @negative t ts is ht h =>
      obtain ⟨ms, rfl, rfl⟩ := lists_iff.1 h
      refine ⟨some t.span, ms, ?_, rfl⟩
      rw [Token.eq_of_isEntity ht]
      rfl
  · rintro ⟨mark, ms, rfl, rfl⟩
    have hlists : CharSet.Lists (ms.flatMap tokens) (ms.map item) := lists_iff.2 ⟨ms, rfl, rfl⟩
    cases mark with
    | none => exact .positive hlists
    | some place => exact .negative rfl hlists

/-! ### Sets are read in one way only -/

/-- A member starts with a token that structures nothing. -/
theorem exists_tokens_eq_cons (m : SetPhrase) :
    ∃ t ts, m.tokens = t :: ts ∧ ∀ c, t.isEntity c = false := by
  cases m with
  | metaChar m place => exact ⟨_, _, rfl, fun _ => rfl⟩
  | letter a place => exact ⟨_, _, rfl, a.isEntity_token place⟩
  | range a p d b q => exact ⟨_, _, rfl, a.isEntity_token p⟩

/-- No structuring character is the first token of members. -/
theorem flatMap_tokens_ne_cons {t : Token} {c : Char} (ht : t.isEntity c = true)
    (ms : List SetPhrase) (ts : List Token) : ms.flatMap tokens ≠ t :: ts := by
  intro h
  cases ms with
  | nil => cases h
  | cons m ms =>
    obtain ⟨u, us, hm, hu⟩ := m.exists_tokens_eq_cons
    rw [List.flatMap_cons, hm] at h
    obtain rfl := (List.cons.inj h).1
    exact Bool.false_ne_true ((hu c).symm.trans ht)

/-- The first member ends in front of the first token that structures
nothing and is none of its own. -/
theorem tokens_append_inj (h : m.tokens ++ ms.flatMap tokens = n.tokens ++ ns.flatMap tokens) :
    m = n ∧ ms.flatMap tokens = ns.flatMap tokens := by
  -- a letter in front of a dash would leave the dash to the members behind it
  have hdash (p : Span) (ms : List SetPhrase) (ts : List Token) :
      ms.flatMap tokens ≠ ⟨.entity '-', p⟩ :: ts :=
    flatMap_tokens_ne_cons (c := '-') rfl ms ts
  cases m with
  | metaChar m p =>
    cases n with
    | metaChar n q =>
      obtain ⟨ht, hs⟩ := List.cons.inj h
      cases ht
      exact ⟨rfl, hs⟩
    | letter b q => cases b <;> cases (List.cons.inj h).1
    | range b q d c r => cases b <;> cases (List.cons.inj h).1
  | letter a p =>
    cases n with
    | metaChar n q => cases a <;> cases (List.cons.inj h).1
    | letter b q =>
      obtain ⟨ht, hs⟩ := List.cons.inj h
      obtain ⟨rfl, rfl⟩ := Letter.token_inj ht
      exact ⟨rfl, hs⟩
    | range b q d c r => exact (hdash _ _ _ (List.cons.inj h).2).elim
  | range a p d b q =>
    cases n with
    | metaChar n r => cases a <;> cases (List.cons.inj h).1
    | letter c r => exact (hdash _ _ _ (List.cons.inj h).2.symm).elim
    | range c r d' e s =>
      obtain ⟨ha, hbehind⟩ := List.cons.inj h
      obtain ⟨hd, hbehind⟩ := List.cons.inj hbehind
      obtain ⟨hb, hs⟩ := List.cons.inj hbehind
      obtain ⟨rfl, rfl⟩ := Letter.token_inj ha
      obtain ⟨rfl, rfl⟩ := Letter.token_inj hb
      cases hd
      exact ⟨rfl, hs⟩

theorem flatMap_tokens_inj (h : ms.flatMap tokens = ns.flatMap tokens) : ms = ns := by
  induction ms generalizing ns with
  | nil =>
    cases ns with
    | nil => rfl
    | cons n ns =>
      obtain ⟨t, ts, hn, -⟩ := n.exists_tokens_eq_cons
      rw [List.flatMap_cons, hn] at h
      cases h
  | cons m ms ih =>
    cases ns with
    | nil =>
      obtain ⟨t, ts, hm, -⟩ := m.exists_tokens_eq_cons
      rw [List.flatMap_cons, hm] at h
      cases h
    | cons n ns =>
      rw [List.flatMap_cons, List.flatMap_cons] at h
      obtain ⟨rfl, hs⟩ := tokens_append_inj h
      rw [ih hs]

/-- **The tokens between brackets come from one circumflex at most and
one list of members only.** -/
theorem setTokens_inj (h : setTokens mark ms = setTokens mark' ns) : mark = mark' ∧ ms = ns := by
  cases mark with
  | none =>
    cases mark' with
    | none => exact ⟨rfl, flatMap_tokens_inj h⟩
    | some q => exact (flatMap_tokens_ne_cons (c := '^') rfl ms _ h).elim
  | some p =>
    cases mark' with
    | none => exact (flatMap_tokens_ne_cons (c := '^') rfl ns _ h.symm).elim
    | some q =>
      obtain ⟨hp, hs⟩ := List.cons.inj h
      cases hp
      exact ⟨rfl, flatMap_tokens_inj hs⟩

end SetPhrase

/-! ## Symbols -/

/-- **A symbol**, with the places of its tokens. -/
inductive SymbolPhrase where
  /-- A letter. -/
  | letter (a : Letter) (place : Span)
  /-- A meta character. -/
  | metaChar (m : MetaChar) (place : Span)
  /-- A set, where `mark` is the place of the circumflex in front of its
  members if there is one. -/
  | set (mark : Option Span) (members : List SetPhrase) (place : Span)

namespace SymbolPhrase

/-- The token of the symbol. -/
def token : SymbolPhrase → Token
  | letter a place => a.token place
  | metaChar m place => ⟨.metaChar m, place⟩
  | set mark members place => ⟨.charSet (SetPhrase.setTokens mark members), place⟩

/-- The symbol that the token spells. -/
def symbol : SymbolPhrase → Symbol
  | letter a _ => .letter a
  | metaChar m _ => .metaChar m
  | set mark members _ => .set (SetPhrase.set mark members)

variable {p q : SymbolPhrase} {t : Token} {s : Symbol}

/-- A token spells a symbol just if it is that of a phrase of the
symbol. -/
theorem spells_iff : t.Spells s ↔ ∃ p : SymbolPhrase, p.token = t ∧ p.symbol = s := by
  constructor
  · intro h
    cases h with
    | @letter a h => exact ⟨letter a t.span, Letter.token_of_letter? h, rfl⟩
    | @metaChar m h =>
      obtain ⟨kind, span⟩ := t
      obtain rfl : kind = .metaChar m := h
      exact ⟨metaChar m span, rfl, rfl⟩
    | @set ts s h hs =>
      obtain ⟨kind, span⟩ := t
      obtain rfl : kind = .charSet ts := h
      obtain ⟨mark, ms, rfl, rfl⟩ := SetPhrase.spells_iff.1 hs
      exact ⟨set mark ms span, rfl, rfl⟩
  · rintro ⟨p, rfl, rfl⟩
    cases p with
    | letter a place => exact .letter (a.letter?_token place)
    | metaChar m place => exact .metaChar rfl
    | set mark ms place => exact .set rfl (SetPhrase.spells_iff.2 ⟨mark, ms, rfl, rfl⟩)

@[simp] theorem isEntity_token (p : SymbolPhrase) (c : Char) : p.token.isEntity c = false := by
  cases p with
  | letter a place => exact a.isEntity_token place c
  | _ => rfl

theorem kind_token_ne_quantity (p : SymbolPhrase) (q : Quantity) : p.token.kind ≠ .quantity q := by
  cases p with
  | letter a place => cases a <;> exact nofun
  | _ => exact nofun

/-- A token spells a symbol in one way only. -/
theorem token_inj (h : p.token = q.token) : p = q := by
  cases p with
  | letter a r =>
    cases q with
    | letter b s =>
      obtain ⟨rfl, rfl⟩ := Letter.token_inj h
      rfl
    | _ => cases a <;> cases h
  | metaChar m r =>
    cases q with
    | letter b s => cases b <;> cases h
    | metaChar n s =>
      cases h
      rfl
    | set mark ms s => cases h
  | set mark ms r =>
    cases q with
    | letter b s => cases b <;> cases h
    | metaChar n s => cases h
    | set mark' ns s =>
      obtain ⟨hkind, rfl⟩ := Token.mk.inj h
      obtain ⟨rfl, rfl⟩ := SetPhrase.setTokens_inj (TokenKind.charSet.inj hkind)
      rfl

end SymbolPhrase

namespace Expr

open Token

/-! ## Phrases -/

/-- **A derivation tree of the grammar**, with the places of its
tokens. -/
inductive Phrase : Level → Type where
  /-- A symbol. -/
  | symbol (s : SymbolPhrase) : Phrase .atom
  /-- A pair of parentheses with nothing between. -/
  | emptyGroup (opened closed : Span) : Phrase .atom
  /-- A body between parentheses. -/
  | group (opened : Span) (inner : Phrase .body) (closed : Span) : Phrase .atom
  /-- An atom without a quantifier. -/
  | atom (a : Phrase .atom) : Phrase .item
  /-- An atom with a quantifier. -/
  | repetition (a : Phrase .atom) (q : Quantity) (place : Span) : Phrase .item
  /-- A single item. -/
  | item (i : Phrase .item) : Phrase .row
  /-- An item in front of others. -/
  | cons (i : Phrase .item) (r : Phrase .row) : Phrase .row
  /-- A single branch. -/
  | branch (r : Phrase .row) : Phrase .branches
  /-- A branch in front of others, and the pipe behind it. -/
  | pipe (r : Phrase .row) (place : Span) (bs : Phrase .branches) : Phrase .branches
  /-- The branches of a body. -/
  | body (bs : Phrase .branches) : Phrase .body

namespace Phrase

/-- **The tokens that the phrase derives**, from left to right. -/
def tokens {level : Level} : Phrase level → List Token
  | symbol s => [s.token]
  | emptyGroup opened closed => [⟨.entity '(', opened⟩, ⟨.entity ')', closed⟩]
  | group opened inner closed => ⟨.entity '(', opened⟩ :: (inner.tokens ++ [⟨.entity ')', closed⟩])
  | atom a => a.tokens
  | repetition a q place => a.tokens ++ [⟨.quantity q, place⟩]
  | item i => i.tokens
  | cons i r => i.tokens ++ r.tokens
  | branch r => r.tokens
  | pipe r place bs => r.tokens ++ ⟨.entity '|', place⟩ :: bs.tokens
  | body bs => bs.tokens

/-- The trees of the phrase: those of the items of a row or of the
branches, and a single one on the other levels. Groups have no name, their
match is kept, and they have no number yet. -/
def trees {level : Level} : Phrase level → List Expr
  | symbol s => [.symbol s.symbol]
  | emptyGroup _ _ => [.emptyGroup ⟨none, none, true⟩]
  | group _ inner _ => inner.trees.map (.group ⟨none, none, true⟩)
  | atom a => a.trees
  | repetition a q _ => a.trees.map (.repetition · q.quantifier)
  | item i => i.trees
  | cons i r => i.trees ++ r.trees
  | branch r => [ofRow r.trees]
  | pipe r _ bs => ofRow r.trees :: bs.trees
  | body bs => [ofBranchList bs.trees]

/-- **The tree of a body**: a choice if there are several branches, and
the one branch otherwise. -/
def tree : Phrase .body → Expr
  | body bs => ofBranchList bs.trees

theorem trees_eq_singleton (p : Phrase .body) : p.trees = [p.tree] := by
  cases p
  rfl

end Phrase

variable {level : Level} {ts us us' : List Token} {es : List Expr} {t : Token}

/-! ## Phrases and derivations -/

/-- **What is derived has a phrase.** -/
theorem exists_phrase_of_derives (h : Derives level ts es) :
    ∃ p : Phrase level, p.tokens = ts ∧ p.trees = es := by
  induction h with
  | symbol h =>
    obtain ⟨p, rfl, rfl⟩ := SymbolPhrase.spells_iff.1 h
    exact ⟨.symbol p, rfl, rfl⟩
  | @emptyGroup o c ho hc =>
    refine ⟨.emptyGroup o.span c.span, ?_, rfl⟩
    rw [eq_of_isEntity ho, eq_of_isEntity hc]
    rfl
  | @group o c ts e ho hc _ ih =>
    obtain ⟨p, rfl, hp⟩ := ih
    refine ⟨.group o.span p c.span, ?_, ?_⟩
    · rw [Phrase.tokens, ← eq_of_isEntity ho, ← eq_of_isEntity hc]
    · rw [Phrase.trees, hp]
      rfl
  | atom _ ih =>
    obtain ⟨p, rfl, hp⟩ := ih
    exact ⟨.atom p, rfl, hp⟩
  | @repetition t ts e q _ ht ih =>
    obtain ⟨p, rfl, hp⟩ := ih
    obtain ⟨kind, span⟩ := t
    obtain rfl : kind = .quantity q := ht
    refine ⟨.repetition p q span, rfl, ?_⟩
    rw [Phrase.trees, hp]
    rfl
  | item _ ih =>
    obtain ⟨p, rfl, hp⟩ := ih
    exact ⟨.item p, rfl, hp⟩
  | cons _ _ ih ihs =>
    obtain ⟨p, rfl, hp⟩ := ih
    obtain ⟨ps, rfl, rfl⟩ := ihs
    refine ⟨.cons p ps, rfl, ?_⟩
    rw [Phrase.trees, hp]
    rfl
  | branch _ ih =>
    obtain ⟨p, rfl, rfl⟩ := ih
    exact ⟨.branch p, rfl, rfl⟩
  | @pipe p ts us es fs _ hp _ ih ihs =>
    obtain ⟨r, rfl, rfl⟩ := ih
    obtain ⟨bs, rfl, rfl⟩ := ihs
    refine ⟨.pipe r p.span bs, ?_, rfl⟩
    rw [Phrase.tokens, ← eq_of_isEntity hp]
  | body _ ih =>
    obtain ⟨p, rfl, rfl⟩ := ih
    exact ⟨.body p, rfl, rfl⟩

/-- An atom and an item have a single tree. -/
theorem exists_eq_singleton_of_derives (h : Derives level ts es)
    (hlevel : level = .atom ∨ level = .item) : ∃ e, es = [e] := by
  cases h with
  | cons | branch | pipe | item | body => obtain h | h := hlevel <;> cases h
  | _ => exact ⟨_, rfl⟩

/-- **A phrase is a derivation** of its trees from its tokens. -/
theorem Phrase.derives (p : Phrase level) : Derives level p.tokens p.trees := by
  induction p with
  | symbol s => exact .symbol (SymbolPhrase.spells_iff.2 ⟨s, rfl, rfl⟩)
  | emptyGroup opened closed => exact .emptyGroup rfl rfl
  | group opened inner closed ih =>
    rw [trees_eq_singleton] at ih
    rw [trees, trees_eq_singleton]
    exact .group rfl rfl ih
  | atom a ih =>
    obtain ⟨e, he⟩ := exists_eq_singleton_of_derives ih (.inl rfl)
    rw [he] at ih
    rw [trees, he]
    exact .atom ih
  | repetition a q place ih =>
    obtain ⟨e, he⟩ := exists_eq_singleton_of_derives ih (.inl rfl)
    rw [he] at ih
    rw [trees, he]
    exact .repetition ih rfl
  | item i ih =>
    obtain ⟨e, he⟩ := exists_eq_singleton_of_derives ih (.inr rfl)
    rw [he] at ih
    rw [trees, he]
    exact .item ih
  | cons i r ih ihs =>
    obtain ⟨e, he⟩ := exists_eq_singleton_of_derives ih (.inr rfl)
    rw [he] at ih
    rw [trees, he]
    exact .cons ih ihs
  | branch r ih => exact .branch ih
  | pipe r place bs ih ihs => exact .pipe ih rfl ihs
  | body bs ih => exact .body ih

end Expr

end Regexp
