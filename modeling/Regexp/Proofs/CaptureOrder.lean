import Regexp.Proofs.Balance
import Regexp.Proofs.Lexing
import Regexp.Proofs.NormalForm
import Regexp.Proofs.Passes
import Regexp.Proofs.Phrase

/-!
# Groups are numbered in the order of their parentheses

A traversal of a tree that meets each group before what it holds meets
the groups in the order in which they are opened in the text: one group
for each opening parenthesis, however groups, branches and repetitions
are nested (`Expr.Phrase.opened_eq`). So the groups of a parsed pattern
are numbered `1, 2, …` up to the number of its opening parentheses, and
they keep these numbers when the tree is normalized
(`Pattern.groupNumbers_of_parse`).
-/

namespace Regexp

namespace Expr

variable {level : Level}

/-! ## Rows and branches -/

theorem groupNumbersOfAll_append (es fs : List Expr) :
    groupNumbersOfAll (es ++ fs) = groupNumbersOfAll es ++ groupNumbersOfAll fs := by
  induction es with
  | nil => rfl
  | cons e es ih =>
    rw [List.cons_append, groupNumbersOfAll, groupNumbersOfAll, ih, List.append_assoc]

theorem groupNumbersOfAll_singleton (e : Expr) : groupNumbersOfAll [e] = e.groupNumbers :=
  List.append_nil _

theorem groupNumbers_ofRow (es : List Expr) : (ofRow es).groupNumbers = groupNumbersOfAll es := by
  unfold ofRow
  split
  next e => exact (groupNumbersOfAll_singleton e).symm
  next => rfl

theorem groupNumbers_ofBranchList (es : List Expr) :
    (ofBranchList es).groupNumbers = groupNumbersOfAll es := by
  unfold ofBranchList
  split
  next e => exact (groupNumbersOfAll_singleton e).symm
  next => rfl

/-! ## Where the groups open -/

namespace Phrase

/-- **Where the groups of the phrase open**, each group before those
inside it: the order in which `groupNumbers` lists the groups of its
trees. -/
def opened {level : Level} : Phrase level → List Span
  | symbol _ => []
  | emptyGroup opened _ => [opened]
  | group opened inner _ => opened :: inner.opened
  | atom a => a.opened
  | repetition a _ _ => a.opened
  | item i => i.opened
  | cons i r => i.opened ++ r.opened
  | branch r => r.opened
  | pipe r _ bs => r.opened ++ bs.opened
  | body bs => bs.opened

/-- The trees have one group for each that opens. -/
theorem length_groupNumbers (p : Phrase level) :
    (groupNumbersOfAll p.trees).length = p.opened.length := by
  induction p with
  | symbol s => rfl
  | emptyGroup place place' => rfl
  | group place inner place' ih =>
    rw [trees_eq_singleton, groupNumbersOfAll_singleton] at ih
    rw [trees, trees_eq_singleton, List.map_singleton, groupNumbersOfAll_singleton, groupNumbers,
      List.length_cons, ih, opened, List.length_cons]
  | repetition a q place ih =>
    obtain ⟨e, he⟩ := exists_eq_singleton_of_derives a.derives (.inl rfl)
    rw [he] at ih
    rw [trees, he]
    exact ih
  | cons i r ih ihs =>
    rw [trees, groupNumbersOfAll_append, List.length_append, ih, ihs, opened, List.length_append]
  | branch r ih =>
    rw [trees, groupNumbersOfAll_singleton, groupNumbers_ofRow, ih]
    rfl
  | pipe r place bs ih ihs =>
    rw [trees, groupNumbersOfAll, groupNumbers_ofRow, List.length_append, ih, ihs, opened,
      List.length_append]
  | body bs ih =>
    rw [trees, groupNumbersOfAll_singleton, groupNumbers_ofBranchList, ih]
    rfl
  | _ => assumption

/-- **Groups open in the order of the text**, one at each opening
parenthesis. -/
theorem opened_eq (p : Phrase level) :
    p.opened = (p.tokens.filter (·.isEntity '(')).map (·.span) := by
  induction p with
  | symbol s => simp [opened, tokens]
  | emptyGroup place place' => rfl
  | group place inner place' ih =>
    rw [opened, tokens, List.filter_cons_of_pos rfl, List.filter_append, List.map_cons,
      List.map_append, ← ih]
    exact congrArg (place :: ·) (List.append_nil _).symm
  | repetition a q place ih =>
    rw [opened, tokens, List.filter_append, List.map_append, ← ih]
    exact (List.append_nil _).symm
  | cons i r ih ihs => rw [opened, tokens, List.filter_append, List.map_append, ih, ihs]
  | pipe r place bs ih ihs =>
    rw [opened, tokens, List.filter_append, List.filter_cons_of_neg (Bool.eq_false_iff.1 rfl),
      List.map_append, ih, ihs]
  | _ => assumption

end Phrase

end Expr

/-! ## The groups of a pattern -/

namespace Pattern

variable {pattern : String} {e : Expr}

/-- **The groups of a pattern are numbered by their opening
parentheses**, `1, 2, …` up to the number of opening parentheses among the
tokens, in the order of a traversal that meets each group before what it
holds. This is the order of the text: the traversal meets the groups as
they are opened. Normalizing the tree keeps the numbers. -/
theorem groupNumbers_of_parse (h : parse pattern = .ok (some e)) :
    ∃ ts, lex pattern = .ok ts
      ∧ e.groupNumbers = (List.range' 1 (Token.countEntity '(' ts)).map some
      ∧ (∃ p : Expr.Phrase .body, p.tokens = ts ∧ p.tree.numberGroups = e
          ∧ p.opened = (ts.filter (·.isEntity '(')).map (·.span))
      ∧ ∀ f, e.normalize = .ok f → f.groupNumbers = e.groupNumbers := by
  obtain ⟨ts, hlex, htree⟩ := parse_eq_ok_iff.1 h
  obtain ⟨-, hnone⟩ | ⟨g, hg, hderives⟩ := (Expr.parse_eq_ok_iff (Token.flat_of_lex hlex)).1 htree
  · cases hnone
  obtain rfl := Option.some.inj hg
  obtain ⟨p, rfl, hp⟩ := Expr.exists_phrase_of_derives hderives
  rw [p.trees_eq_singleton] at hp
  obtain rfl := (List.cons.inj hp).1
  refine ⟨_, lex_eq_ok_iff.2 hlex, ?_, ⟨p, rfl, rfl, p.opened_eq⟩, fun f hf =>
    Expr.groupNumbers_of_resembles (Expr.resembles_of_normalize hf)⟩
  have hcount : p.tree.groupNumbers.length = Token.countEntity '(' p.tokens := by
    calc p.tree.groupNumbers.length
      _ = (Expr.groupNumbersOfAll p.trees).length := by
        rw [p.trees_eq_singleton, Expr.groupNumbersOfAll_singleton]
      _ = p.opened.length := p.length_groupNumbers
      _ = Token.countEntity '(' p.tokens := by
        rw [p.opened_eq, List.length_map, Token.countEntity, List.countP_eq_length_filter]
  rw [Expr.groupNumbers_numberGroups, hcount, Expr.numbersFrom]

/-- In `((a)|(b|()){2,2})*` a repetition holds a choice, one branch of
which is repeated and holds a choice with an empty group: four groups, and
they keep their numbers when the equal bounds become one. -/
theorem groupNumbers_of_parse_nested :
    let pattern := "((a)|(b|())\x7b2,2\x7d)*"
    let capture n : GroupLabel := ⟨some n, none, true⟩
    let tree (q : Quantifier) : Expr := .repetition (.group (capture 1)
      (.choice [.group (capture 2) (.char 'a'), .repetition (.group (capture 3)
        (.choice [.char 'b', .emptyGroup (capture 4)])) q])) (.zeroOrMore true)
    let e := tree (.between 2 2 true)
    parse pattern = .ok (some e) ∧ e.normalize = .ok (tree (.exactly 2))
      ∧ (∃ ts, lex pattern = .ok ts ∧ Token.countEntity '(' ts = 4)
      ∧ e.groupNumbers = (List.range' 1 4).map some
      ∧ (tree (.exactly 2)).groupNumbers = (List.range' 1 4).map some := by
  intro pattern capture tree e
  have htext : pattern.toList = ['(', '(', 'a', ')', '|', '(', 'b', '|', '(', ')', ')',
      '\x7b', '2', ',', '2', '\x7d', ')', '*'] := by decide
  obtain ⟨ts, hlex, htree, hcount⟩ : ∃ ts, Token.lex pattern.toList = .ok ts
      ∧ Expr.parse ts = .ok (some e) ∧ Token.countEntity '(' ts = 4 := by
    rw [htext]
    exact ⟨_, by with_unfolding_all rfl, by with_unfolding_all rfl, by with_unfolding_all rfl⟩
  have hparse : parse pattern = .ok (some e) := parse_eq_ok_iff.2 ⟨ts, hlex, htree⟩
  have hnormal : e.normalize = .ok (tree (.exactly 2)) := rfl
  obtain ⟨us, hus, hnumbers, -, hkeep⟩ := groupNumbers_of_parse hparse
  obtain rfl := Except.ok.inj (hus.symm.trans (lex_eq_ok_iff.2 hlex))
  rw [hcount] at hnumbers
  exact ⟨hparse, hnormal, ⟨us, hus, hcount⟩, hnumbers, (hkeep _ hnormal).trans hnumbers⟩

end Pattern

end Regexp
