import Regexp.Proofs.Numbering
import Regexp.Proofs.Parsing
import Regexp.Proofs.Phrase

/-!
# Patterns are read in one way only

A list of tokens has at most one phrase (`Phrase.eq_of_tokens_eq`). Where
a phrase ends is settled by what stands behind it: behind a whole item no
quantifier, behind a whole row only a pipe or a closing parenthesis, and
behind all branches only a closing parenthesis (`Expr.Follows`). Of two
phrases that start at the same token neither can go on where the other
one ends.

So the parser accepts the empty list and the tokens of phrases, and what
it returns is the tree of the one phrase, with numbers on its groups that
the grammar knows nothing of (`Expr.parse_iff_phrase`).
-/

namespace Regexp.Expr

open Token

variable {level : Level} {ts us us' : List Token}

/-! ## What may follow a phrase -/

/-- **The tokens may follow a phrase of the level**: behind an item no
quantifier, behind a row only a pipe or a closing parenthesis, and behind
branches only a closing parenthesis. -/
def Follows : Level → List Token → Prop
  | .atom, _ => True
  | .item, us => NoQuantifierFirst us
  | .row, us => ∀ t vs, us = t :: vs → t.isEntity '|' = true ∨ t.isEntity ')' = true
  | _, us => ∀ t vs, us = t :: vs → t.isEntity ')' = true

/-- Nothing at all may follow any phrase. -/
theorem follows_nil (level : Level) : Follows level [] := by
  cases level with
  | atom => trivial
  | item => exact noQuantifierFirst_nil
  | _ => exact nofun

/-- The token starts an atom: it is no quantifier, no pipe and no closing
parenthesis. -/
def StartsAtom (t : Token) : Prop :=
  (∀ q, t.kind ≠ .quantity q) ∧ t.isEntity '|' = false ∧ t.isEntity ')' = false

namespace Phrase

/-- Every phrase starts with a token that starts an atom. -/
theorem exists_tokens_eq_cons (p : Phrase level) : ∃ t ts, p.tokens = t :: ts ∧ StartsAtom t := by
  have append {t : Token} {ts us : List Token} (h : ts = t :: us) (vs : List Token) :
      ts ++ vs = t :: (us ++ vs) := by rw [h, List.cons_append]
  induction p with
  | symbol s =>
    exact ⟨_, _, rfl, s.kind_token_ne_quantity, s.isEntity_token _, s.isEntity_token _⟩
  | emptyGroup opened closed => exact ⟨_, _, rfl, nofun, rfl, rfl⟩
  | group opened inner closed => exact ⟨_, _, rfl, nofun, rfl, rfl⟩
  | atom a ih => exact ih
  | repetition a q place ih =>
    obtain ⟨t, ts, h, ht⟩ := ih
    exact ⟨t, _, append h _, ht⟩
  | item i ih => exact ih
  | cons i r ih _ =>
    obtain ⟨t, ts, h, ht⟩ := ih
    exact ⟨t, _, append h _, ht⟩
  | branch r ih => exact ih
  | pipe r place bs ih _ =>
    obtain ⟨t, ts, h, ht⟩ := ih
    exact ⟨t, _, append h _, ht⟩
  | body bs ih => exact ih

/-- Only a closing parenthesis may follow branches, and a phrase starts
with none. -/
theorem not_follows_branches (p : Phrase level) (vs : List Token) :
    ¬ Follows .branches (p.tokens ++ vs) := by
  obtain ⟨t, ts, h, ht⟩ := p.exists_tokens_eq_cons
  intro hfollows
  have hclose := hfollows t (ts ++ vs) (by rw [h, List.cons_append])
  rw [ht.2.2] at hclose
  cases hclose

theorem not_follows_row (p : Phrase level) (vs : List Token) :
    ¬ Follows .row (p.tokens ++ vs) := by
  obtain ⟨t, ts, h, ht⟩ := p.exists_tokens_eq_cons
  intro hfollows
  have hend := hfollows t (ts ++ vs) (by rw [h, List.cons_append])
  rw [ht.2.1, ht.2.2] at hend
  obtain hend | hend := hend <;> cases hend

/-- A phrase may stand behind an item. -/
theorem follows_item (p : Phrase level) (vs : List Token) : Follows .item (p.tokens ++ vs) := by
  obtain ⟨t, ts, h, ht⟩ := p.exists_tokens_eq_cons
  rw [h, List.cons_append]
  rintro u us q heq hq
  obtain ⟨rfl, -⟩ := List.cons.inj heq
  exact ht.1 q hq

end Phrase

/-- What may follow a row may follow its last item. -/
theorem Follows.item (h : Follows .row us) : Follows .item us := by
  rintro t vs q rfl hq
  obtain h | h := h t vs rfl
  · rw [kind_of_isEntity h] at hq
    cases hq
  · rw [kind_of_isEntity h] at hq
    cases hq

/-- What may follow branches may follow the last row. -/
theorem Follows.row (h : Follows .branches us) : Follows .row us :=
  fun t vs heq => .inr (h t vs heq)

theorem follows_row_pipe (p : Span) (vs : List Token) : Follows .row (⟨.entity '|', p⟩ :: vs) := by
  rintro t us heq
  obtain ⟨rfl, -⟩ := List.cons.inj heq
  exact .inl rfl

theorem not_follows_branches_pipe (p : Span) (vs : List Token) :
    ¬ Follows .branches (⟨.entity '|', p⟩ :: vs) :=
  fun h => nomatch h _ _ rfl

theorem follows_body_close (p : Span) (vs : List Token) :
    Follows .body (⟨.entity ')', p⟩ :: vs) := by
  rintro t us heq
  obtain ⟨rfl, -⟩ := List.cons.inj heq
  rfl

theorem not_follows_item_quantity (q : Quantity) (p : Span) (vs : List Token) :
    ¬ Follows .item (⟨.quantity q, p⟩ :: vs) :=
  fun h => h _ _ q rfl rfl

namespace Phrase

/-- **Where a phrase ends is settled by what follows it**: two phrases of
a level in front of tokens that may follow are the same one. -/
theorem unique (p p' : Phrase level) (h : p.tokens ++ us = p'.tokens ++ us')
    (hus : Follows level us) (hus' : Follows level us') : p = p' ∧ us = us' := by
  have hopen (s : SymbolPhrase) (opened : Span) : s.token ≠ ⟨.entity '(', opened⟩ := fun h =>
    Bool.false_ne_true ((s.isEntity_token '(').symm.trans (congrArg (Token.isEntity · '(') h))
  induction p generalizing us us' with
  | symbol s =>
    cases p' with
    | symbol s' =>
      obtain ⟨ht, hs⟩ := List.cons.inj h
      obtain rfl := SymbolPhrase.token_inj ht
      exact ⟨rfl, hs⟩
    | emptyGroup opened closed => exact (hopen s opened (List.cons.inj h).1).elim
    | group opened inner closed => exact (hopen s opened (List.cons.inj h).1).elim
  | emptyGroup opened closed =>
    cases p' with
    | emptyGroup opened' closed' =>
      obtain ⟨ho, hbehind⟩ := List.cons.inj h
      obtain ⟨hc, hs⟩ := List.cons.inj hbehind
      cases ho
      cases hc
      exact ⟨rfl, hs⟩
    | group opened' inner closed' =>
      -- the body would start with the closing parenthesis
      have hs : ⟨.entity ')', closed⟩ :: us = inner.tokens ++ [⟨.entity ')', closed'⟩] ++ us' :=
        (List.cons.inj h).2
      rw [List.append_assoc] at hs
      exact (inner.not_follows_branches _ (hs ▸ follows_body_close closed us)).elim
    | symbol s => exact (hopen s opened (List.cons.inj h).1.symm).elim
  | group opened inner closed ih =>
    cases p' with
    | emptyGroup opened' closed' =>
      have hs : inner.tokens ++ [⟨.entity ')', closed⟩] ++ us = ⟨.entity ')', closed'⟩ :: us' :=
        (List.cons.inj h).2
      rw [List.append_assoc] at hs
      exact (inner.not_follows_branches _ (hs ▸ follows_body_close closed' us')).elim
    | group opened' inner' closed' =>
      rw [tokens, tokens, List.cons_append, List.cons_append, List.append_assoc,
        List.append_assoc] at h
      obtain ⟨ho, hinner⟩ := List.cons.inj h
      obtain ⟨rfl, hbehind⟩ := ih inner' hinner (follows_body_close _ _) (follows_body_close _ _)
      obtain ⟨hc, hs⟩ := List.cons.inj hbehind
      cases ho
      cases hc
      exact ⟨rfl, hs⟩
    | symbol s => exact (hopen s opened (List.cons.inj h).1.symm).elim
  | atom a ih =>
    cases p' with
    | atom a' =>
      obtain ⟨rfl, hs⟩ := ih a' h trivial trivial
      exact ⟨rfl, hs⟩
    | repetition a' q s' =>
      rw [tokens, tokens, List.append_assoc] at h
      obtain ⟨-, rfl⟩ := ih a' h trivial trivial
      exact (not_follows_item_quantity q s' us' hus).elim
  | repetition a q s ih =>
    cases p' with
    | atom a' =>
      rw [tokens, tokens, List.append_assoc] at h
      obtain ⟨-, rfl⟩ := ih a' h trivial trivial
      exact (not_follows_item_quantity q s us hus').elim
    | repetition a' q' s' =>
      rw [tokens, tokens, List.append_assoc, List.append_assoc] at h
      obtain ⟨rfl, hbehind⟩ := ih a' h trivial trivial
      obtain ⟨hq, hs⟩ := List.cons.inj hbehind
      cases hq
      exact ⟨rfl, hs⟩
  | item i ih =>
    cases p' with
    | item i' =>
      obtain ⟨rfl, hs⟩ := ih i' h hus.item hus'.item
      exact ⟨rfl, hs⟩
    | cons i' r' =>
      rw [tokens, tokens, List.append_assoc] at h
      obtain ⟨-, rfl⟩ := ih i' h hus.item (r'.follows_item us')
      exact (r'.not_follows_row us' hus).elim
  | cons i r ih ihs =>
    cases p' with
    | item i' =>
      rw [tokens, tokens, List.append_assoc] at h
      obtain ⟨-, rfl⟩ := ih i' h (r.follows_item us) hus'.item
      exact (r.not_follows_row us hus').elim
    | cons i' r' =>
      rw [tokens, tokens, List.append_assoc, List.append_assoc] at h
      obtain ⟨rfl, hbehind⟩ := ih i' h (r.follows_item us) (r'.follows_item us')
      obtain ⟨rfl, hs⟩ := ihs r' hbehind hus hus'
      exact ⟨rfl, hs⟩
  | branch r ih =>
    cases p' with
    | branch r' =>
      obtain ⟨rfl, hs⟩ := ih r' h hus.row hus'.row
      exact ⟨rfl, hs⟩
    | pipe r' s' bs' =>
      rw [tokens, tokens, List.append_assoc] at h
      obtain ⟨-, rfl⟩ := ih r' h hus.row (follows_row_pipe _ _)
      exact (not_follows_branches_pipe _ _ hus).elim
  | pipe r s bs ih ihs =>
    cases p' with
    | branch r' =>
      rw [tokens, tokens, List.append_assoc] at h
      obtain ⟨-, rfl⟩ := ih r' h (follows_row_pipe _ _) hus'.row
      exact (not_follows_branches_pipe _ _ hus').elim
    | pipe r' s' bs' =>
      rw [tokens, tokens, List.append_assoc, List.append_assoc] at h
      obtain ⟨rfl, hpipe⟩ := ih r' h (follows_row_pipe _ _) (follows_row_pipe _ _)
      obtain ⟨hp, hbehind⟩ := List.cons.inj hpipe
      obtain ⟨rfl, hs⟩ := ihs bs' hbehind hus hus'
      cases hp
      exact ⟨rfl, hs⟩
  | body bs ih =>
    cases p' with
    | body bs' =>
      obtain ⟨rfl, hs⟩ := ih bs' h hus hus'
      exact ⟨rfl, hs⟩

/-- **The grammar is unambiguous**: tokens have at most one phrase of each
level. -/
theorem eq_of_tokens_eq {p p' : Phrase level} (h : p.tokens = p'.tokens) : p = p' := by
  have hnil : p.tokens ++ [] = p'.tokens ++ [] := by rw [h]
  exact (unique p p' hnil (follows_nil level) (follows_nil level)).1

end Phrase

/-! ## The tree of a phrase -/

theorem unnumber_ofRow (es : List Expr) : (ofRow es).unnumber = ofRow (es.map unnumber) := by
  match es with
  | [] | [_] => rfl
  | e :: f :: es => exact congrArg sequence (unnumberAll_eq_map (e :: f :: es))

theorem unnumber_ofBranchList (es : List Expr) :
    (ofBranchList es).unnumber = ofBranchList (es.map unnumber) := by
  match es with
  | [] | [_] => rfl
  | e :: f :: es => exact congrArg choice (unnumberAll_eq_map (e :: f :: es))

namespace Phrase

/-- **The trees of a phrase have no numbers** that could be taken away. -/
theorem map_unnumber_trees (p : Phrase level) : p.trees.map unnumber = p.trees := by
  have hmap {f : Expr → Expr} {es : List Expr} (hf : ∀ e, (f e).unnumber = f e.unnumber)
      (hes : es.map unnumber = es) : (es.map f).map unnumber = es.map f := by
    calc (es.map f).map unnumber
      _ = (es.map unnumber).map f := by
        rw [List.map_map, List.map_map]
        exact List.map_congr_left fun e _ => hf e
      _ = es.map f := by rw [hes]
  induction p with
  | symbol s => rfl
  | emptyGroup opened closed => rfl
  | group opened inner closed ih => exact hmap (fun _ => rfl) ih
  | atom a ih => exact ih
  | repetition a q place ih => exact hmap (fun _ => rfl) ih
  | item i ih => exact ih
  | cons i r ih ihs => rw [trees, List.map_append, ih, ihs]
  | branch r ih => rw [trees, List.map_singleton, unnumber_ofRow, ih]
  | pipe r place bs ih ihs => rw [trees, List.map_cons, unnumber_ofRow, ih, ihs]
  | body bs ih => rw [trees, List.map_singleton, unnumber_ofBranchList, ih]

theorem unnumber_tree (p : Phrase .body) : p.tree.unnumber = p.tree := by
  have h := p.map_unnumber_trees
  rw [p.trees_eq_singleton] at h
  exact (List.cons.inj h).1

end Phrase

/-! ## What the parser accepts -/

/-- **The parser accepts exactly its grammar and returns the tree of the
one derivation.** Tokens without groups are accepted just if there are
none or a phrase derives them; without tokens there is no tree; and a
phrase is the only one with its tokens, which are parsed as its tree, the
groups numbered `1, 2, …` in the order of their opening parentheses. -/
theorem parse_iff_phrase (hts : Flat ts) :
    ((∃ e?, parse ts = .ok e?) ↔ ts = [] ∨ ∃ p : Phrase .body, p.tokens = ts)
      ∧ (ts = [] → parse ts = .ok none)
      ∧ ∀ p : Phrase .body, p.tokens = ts →
        (∃ e, parse ts = .ok (some e) ∧ e.unnumber = p.tree
          ∧ e.groupNumbers = numbersFrom 0 e.groupNumbers.length)
        ∧ ∀ p' : Phrase .body, p'.tokens = ts → p' = p := by
  have hphrase (p : Phrase .body) (hp : p.tokens = ts) :
      parse ts = .ok (some p.tree.numberGroups) := by
    have hderives := p.derives
    rw [p.trees_eq_singleton, hp] at hderives
    exact (parse_eq_ok_iff hts).2 (.inr ⟨p.tree, rfl, hderives⟩)
  refine ⟨⟨?_, ?_⟩, ?_, fun p hp => ⟨⟨p.tree.numberGroups, hphrase p hp, ?_, ?_⟩, ?_⟩⟩
  · rintro ⟨e?, h⟩
    obtain ⟨hnil, -⟩ | ⟨e, -, he⟩ := (parse_eq_ok_iff hts).1 h
    · exact .inl hnil
    · obtain ⟨p, hp, -⟩ := exists_phrase_of_derives he
      exact .inr ⟨p, hp⟩
  · rintro (hnil | ⟨p, hp⟩)
    · exact ⟨none, (parse_eq_ok_iff hts).2 (.inl ⟨hnil, rfl⟩)⟩
    · exact ⟨_, hphrase p hp⟩
  · exact fun hnil => (parse_eq_ok_iff hts).2 (.inl ⟨hnil, rfl⟩)
  · rw [unnumber_numberGroups, p.unnumber_tree]
  · rw [groupNumbers_numberGroups, length_numbersFrom]
  · exact fun p' hp' => Phrase.eq_of_tokens_eq (hp'.trans hp.symm)

/-- The tokens of `(a{2}?|[^b-c])`: one group, a lazy exact count that is
as good as a greedy one, and a negative set of a range. -/
theorem parse_iff_phrase_group :
    let ts : List Token := [⟨.entity '(', ⟨0, 1⟩⟩, ⟨.char 'a', ⟨1, 2⟩⟩,
      ⟨.quantity ⟨.exactly 2, false⟩, ⟨2, 6⟩⟩, ⟨.entity '|', ⟨6, 7⟩⟩,
      ⟨.charSet [⟨.entity '^', ⟨8, 9⟩⟩, ⟨.char 'b', ⟨9, 10⟩⟩, ⟨.entity '-', ⟨10, 11⟩⟩,
        ⟨.char 'c', ⟨11, 12⟩⟩], ⟨7, 13⟩⟩,
      ⟨.entity ')', ⟨13, 14⟩⟩]
    let set : CharSet := ⟨[.member (.range (.literal 'b') (.literal 'c'))], true⟩
    Flat ts ∧ ∃ p : Phrase .body, p.tokens = ts
      ∧ parse ts = .ok (some (.group ⟨some 1, none, true⟩
        (.choice [.repetition (.char 'a') (.exactly 2), .symbol (.set set)])))
      ∧ ∀ p' : Phrase .body, p'.tokens = ts → p' = p := by
  intro ts set
  have hflat : Flat ts := show ∀ t ∈ ts, t.isGroup = false by decide
  let a : Phrase .row := .item (.repetition (.symbol (.letter (.literal 'a') ⟨1, 2⟩))
    ⟨.exactly 2, false⟩ ⟨2, 6⟩)
  let member : SetPhrase := .range (.literal 'b') ⟨9, 10⟩ ⟨10, 11⟩ (.literal 'c') ⟨11, 12⟩
  let b : Phrase .row := .item (.atom (.symbol (.set (some ⟨8, 9⟩) [member] ⟨7, 13⟩)))
  let inner : Phrase .body := .body (.pipe a ⟨6, 7⟩ (.branch b))
  let p : Phrase .body := .body (.branch (.item (.atom (.group ⟨0, 1⟩ inner ⟨13, 14⟩))))
  obtain ⟨⟨e, hparse, htree, hnumbers⟩, hunique⟩ := (parse_iff_phrase hflat).2.2 p rfl
  -- the numbers in order settle what the tree leaves open
  have he := numberGroups_unnumber hnumbers
  rw [htree] at he
  rw [← he] at hparse
  exact ⟨hflat, p, rfl, hparse, hunique⟩

end Regexp.Expr
