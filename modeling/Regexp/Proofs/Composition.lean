import Regexp.Proofs.Embedding
import Regexp.Proofs.Matching

/-!
# Patterns compose as text

Two patterns between parentheses, one behind the other, match the texts
that fall into one of the first and one of the second; with a pipe
between they match the texts of either; and one pattern between
parentheses with an operator behind matches any number of its texts, at
least one, or at most one (`Pattern.matches_composed`). This is a law
about the texts of patterns, and it holds for all patterns that compile.

In a composed pattern each operand is read as it was on its own
(`Expr.reads_operand`), apart from the numbers of its groups, and these
do not matter (`Expr.means_numberGroups`).
-/

namespace Regexp

namespace Pattern

open Regexp.Expr (Derives Reads Means StartsPlain)
open Token (flat_of_lex)

variable {p q s : String} {a b : Automaton} {e f : Expr} {L M : List Char → Prop}

/-- **The pattern matches just the texts in `L`**, and it compiles. -/
def Matches (pattern : String) (L : String → Prop) : Prop :=
  (∃ a, compile pattern = .ok a) ∧ ∀ text, test pattern text = .ok true ↔ L text

/-! ## Operands -/

/-- **An operand**: a text between parentheses that is an atom whatever
surrounds it, and whose tree means what the text means as a pattern. -/
structure Operand (p : String) (e : Expr) : Prop where
  /-- It is read as an atom. -/
  reads : Reads true ('(' :: (p.toList ++ [')'])) (Derives .atom · [e])
  /-- It means what the pattern matches. -/
  means : e.Means fun w => test p (String.ofList w) = .ok true

theorem test_ofList_eq_ok_iff (h : compile p = .ok a) (w : List Char) :
    test p (String.ofList w) = .ok true ↔ a.accepts w = true := by
  rw [test_eq_ok_iff, String.toList_ofList]
  constructor
  · rintro ⟨a', ha', haccepts⟩
    obtain rfl := Except.ok.inj (ha'.symm.trans h)
    exact haccepts
  · exact fun haccepts => ⟨a, h, haccepts⟩

/-- **Every pattern that compiles is an operand.** -/
theorem exists_operand (h : compile p = .ok a) : ∃ e, Operand p e := by
  obtain ⟨e?, hnormal, ha⟩ := compile_eq_ok_iff.1 h
  have htest (w : List Char) : test p (String.ofList w) = .ok true ↔ Denotes e? w :=
    (test_ofList_eq_ok_iff h w).trans (accepts_iff_denotes hnormal ha w)
  obtain ⟨hparse, rfl⟩ | ⟨g, f, hparse, hf, rfl⟩ := normalize_eq_ok_iff.1 hnormal
  · obtain ⟨ts, hlex, htree⟩ := parse_eq_ok_iff.1 hparse
    obtain ⟨rfl, -⟩ | ⟨e, he, -⟩ := (Expr.parse_eq_ok_iff (flat_of_lex hlex)).1 htree
    · refine ⟨_, Expr.reads_operand hlex (.inl ⟨rfl, rfl⟩), ?_⟩
      exact (Expr.means_emptyGroup _).congr fun w => (htest w).symm
    · cases he
  · obtain ⟨ts, hlex, htree⟩ := parse_eq_ok_iff.1 hparse
    obtain ⟨-, hnone⟩ | ⟨e, he, hderives⟩ := (Expr.parse_eq_ok_iff (flat_of_lex hlex)).1 htree
    · cases hnone
    · obtain rfl := Option.some.inj he
      refine ⟨_, Expr.reads_operand hlex (.inr ⟨e, rfl, hderives⟩), Means.group ?_ _⟩
      have hauto := Expr.exists_ofExpr?_eq_ok_iff.1 ⟨a, ha⟩
      exact Expr.means_numberGroups.1 ⟨f, hf, hauto, fun w => (htest w).symm⟩

/-! ## Composed patterns -/

theorem Matches.congr {K N : String → Prop} (h : Matches s K) (hKN : ∀ text, K text ↔ N text) :
    Matches s N :=
  ⟨h.1, fun text => (h.2 text).trans (hKN text)⟩

/-- **What is read as a body matches what its tree means.** -/
theorem matches_of_reads (h : Reads false s.toList (Derives .body · [e])) (hmeans : e.Means L) :
    Matches s fun text => L text.toList := by
  obtain ⟨ts, hts, hyields⟩ := h false 0 [] (.inr nofun)
  have hlex := hyields.lex_eq
  have htree := (Expr.parse_eq_ok_iff (flat_of_lex hlex)).2 (.inr ⟨e, rfl, hts⟩)
  have hparse := parse_eq_ok_iff.2 ⟨ts, hlex, htree⟩
  obtain ⟨a, ha, hL⟩ := exists_automaton_of_means hparse (Expr.means_numberGroups.2 hmeans)
  refine ⟨⟨a, ha⟩, fun text => ?_⟩
  calc test s text = .ok true
    _ ↔ a.accepts text.toList = true := by
      rw [← test_ofList_eq_ok_iff ha, String.ofList_toList]
    _ ↔ L text.toList := hL text.toList

theorem matches_sequence (hp : Operand p e) (hq : Operand q f) :
    Matches ("(" ++ p ++ ")(" ++ q ++ ")") fun text =>
      ∃ u v, text = u ++ v ∧ test p u = .ok true ∧ test q v = .ok true := by
  have htext : ("(" ++ p ++ ")(" ++ q ++ ")").toList
      = '(' :: (p.toList ++ [')']) ++ '(' :: (q.toList ++ [')']) := by simp
  have hreads : Reads false ("(" ++ p ++ ")(" ++ q ++ ")").toList
      (Derives .body · [.sequence [e, f]]) := by
    rw [htext]
    refine hp.reads.weaken.append hq.reads.weaken ⟨_, _, rfl, by decide⟩ fun ts us hts hus => ?_
    exact .body (.branch (.cons (.atom hts) (.item (.atom hus))))
  refine (matches_of_reads hreads (hp.means.sequence hq.means)).congr fun text => ?_
  constructor
  · rintro ⟨u, v, h, hu, hv⟩
    refine ⟨String.ofList u, String.ofList v, ?_, hu, hv⟩
    rw [← String.ofList_append, ← h, String.ofList_toList]
  · rintro ⟨u, v, rfl, hu, hv⟩
    refine ⟨u.toList, v.toList, String.toList_append, ?_, ?_⟩
    · rwa [String.ofList_toList]
    · rwa [String.ofList_toList]

theorem matches_choice (hp : Operand p e) (hq : Operand q f) :
    Matches ("(" ++ p ++ ")|(" ++ q ++ ")") fun text =>
      test p text = .ok true ∨ test q text = .ok true := by
  have htext : ("(" ++ p ++ ")|(" ++ q ++ ")").toList
      = '(' :: (p.toList ++ [')']) ++ '|' :: '(' :: (q.toList ++ [')']) := by simp
  have hreads : Reads false ("(" ++ p ++ ")|(" ++ q ++ ")").toList
      (Derives .body · [.choice [e, f]]) := by
    rw [htext]
    have hbehind := Expr.reads_pipe hq.reads.weaken ⟨_, _, rfl, by decide⟩
    refine hp.reads.weaken.append hbehind ⟨_, _, rfl, by decide⟩ ?_
    rintro ts _ hts ⟨t, us, rfl, ht, hus⟩
    exact .body (.pipe (.item (.atom hts)) ht (.branch (.item (.atom hus))))
  refine (matches_of_reads hreads (hp.means.choice hq.means)).congr fun text => ?_
  rw [String.ofList_toList]

theorem matches_repetition (hp : Operand p e) {r : Quantifier} (hr : r.isUnbounded = true)
    (hs : s.toList = '(' :: (p.toList ++ [')']) ++ r.render) :
    Matches s fun text =>
      ∃ us : List String, r.Admits us.length ∧ (∀ u ∈ us, test p u = .ok true)
        ∧ text = String.join us := by
  have hreads : Reads false s.toList (Derives .body · [.repetition e r]) := by
    rw [hs]
    exact (Expr.reads_repetition hp.reads r).imp fun ts hts => .body (.branch (.item hts))
  refine (matches_of_reads hreads (hp.means.repetition hr)).congr fun text => ?_
  constructor
  · rintro ⟨ws, hadmits, hws, h⟩
    refine ⟨ws.map String.ofList, ?_, List.forall_mem_map.2 hws, ?_⟩
    · rwa [List.length_map]
    · rw [← String.toList_inj, h, String.toList_join, List.flatMap_def, List.map_map]
      simp only [Function.comp_def, String.toList_ofList, List.map_id']
  · rintro ⟨us, hadmits, hus, rfl⟩
    refine ⟨us.map String.toList, ?_, List.forall_mem_map.2 fun u hu => ?_, ?_⟩
    · rwa [List.length_map]
    · rw [String.ofList_toList]
      exact hus u hu
    · rw [String.toList_join, List.flatMap_def]

/-- **Patterns compose as text**, whatever the operands are: also if they
have a choice on top, match the empty text or are empty. The question mark
of a lazy quantifier changes nothing. -/
theorem matches_composed (hp : compile p = .ok a) (hq : compile q = .ok b) :
    Matches ("(" ++ p ++ ")(" ++ q ++ ")") (fun text =>
      ∃ u v, text = u ++ v ∧ test p u = .ok true ∧ test q v = .ok true)
    ∧ Matches ("(" ++ p ++ ")|(" ++ q ++ ")") (fun text =>
      test p text = .ok true ∨ test q text = .ok true)
    ∧ ∀ mark ∈ ["", "?"],
      Matches ("(" ++ p ++ ")*" ++ mark) (fun text =>
        ∃ us : List String, (∀ u ∈ us, test p u = .ok true) ∧ text = String.join us)
      ∧ Matches ("(" ++ p ++ ")+" ++ mark) (fun text =>
        ∃ us : List String, us ≠ [] ∧ (∀ u ∈ us, test p u = .ok true) ∧ text = String.join us)
      ∧ Matches ("(" ++ p ++ ")?" ++ mark) (fun text =>
        ∃ us : List String, us.length ≤ 1 ∧ (∀ u ∈ us, test p u = .ok true)
          ∧ text = String.join us) := by
  obtain ⟨e, he⟩ := exists_operand hp
  obtain ⟨f, hf⟩ := exists_operand hq
  refine ⟨matches_sequence he hf, matches_choice he hf, fun mark hmark => ?_⟩
  obtain ⟨greedy, hrender⟩ : ∃ greedy : Bool, ∀ count : Count,
      Quantity.render ⟨count, greedy⟩ = count.render ++ mark.toList := by
    obtain rfl | hlazy := List.mem_cons.1 hmark
    · exact ⟨true, fun count => rfl⟩
    · obtain rfl := List.mem_singleton.1 hlazy
      exact ⟨false, fun count => rfl⟩
  have hs (op : String) {count : Count} (hop : op.toList = ')' :: count.render) :
      ("(" ++ p ++ op ++ mark).toList
        = '(' :: (p.toList ++ [')']) ++ Quantity.render ⟨count, greedy⟩ := by
    simp [hrender, hop]
  refine ⟨?_, ?_, ?_⟩
  · have hstar := matches_repetition he (r := .zeroOrMore greedy) rfl (hs ")*" (by decide))
    exact hstar.congr fun text => exists_congr fun us => and_iff_right trivial
  · have hplus := matches_repetition he (r := .oneOrMore greedy) rfl (hs ")+" (by decide))
    exact hplus.congr fun text => exists_congr fun us => and_congr_left' List.length_pos_iff
  · exact matches_repetition he (r := .zeroOrOne greedy) rfl (hs ")?" (by decide))

/-- A choice between parentheses stays together, and nothing between
parentheses matches the empty text. -/
theorem matches_composed_choice :
    (∃ a, compile "a|b*" = .ok a) ∧ (∃ b, compile "" = .ok b)
    ∧ Matches "(a|b*)()" (fun text =>
      ∃ u v, text = u ++ v ∧ test "a|b*" u = .ok true ∧ test "" v = .ok true)
    ∧ Matches "(a|b*)|()" (fun text => test "a|b*" text = .ok true ∨ test "" text = .ok true)
    ∧ Matches "(a|b*)+" (fun text =>
      ∃ us : List String, us ≠ [] ∧ (∀ u ∈ us, test "a|b*" u = .ok true) ∧ text = String.join us)
    ∧ Matches "(a|b*)??" (fun text =>
      ∃ us : List String, us.length ≤ 1 ∧ (∀ u ∈ us, test "a|b*" u = .ok true)
        ∧ text = String.join us) := by
  let e : Expr := .choice [.char 'a', .repetition (.char 'b') (.zeroOrMore true)]
  have he : e.IsCanonical := by
    refine ⟨.choice (by decide) (List.forall_mem_cons.2 ⟨.item (.atom (.symbol trivial)), ?_⟩), rfl⟩
    exact List.forall_mem_singleton.2 (.item (.repetition (.symbol trivial)))
  have hrender : toString e = "a|b*" := by decide
  have hparse := parse_toString he
  rw [hrender] at hparse
  have hnormal := normalize_eq_ok_iff.2 (.inr ⟨e, e, hparse, rfl, rfl⟩)
  have hp := compile_eq_ok_iff.2 ⟨some e, hnormal, rfl⟩
  have hlex : Token.lex "".toList = .ok [] := by with_unfolding_all rfl
  have hparse' := parse_eq_ok_iff.2 ⟨[], hlex, rfl⟩
  have hnormal' := normalize_eq_ok_iff.2 (.inl ⟨hparse', rfl⟩)
  have hq := compile_eq_ok_iff.2 ⟨none, hnormal', rfl⟩
  obtain ⟨hsequence, hchoice, hrepetition⟩ := matches_composed hp hq
  obtain ⟨-, hplus, -⟩ := hrepetition "" List.mem_cons_self
  obtain ⟨-, -, hlazy⟩ := hrepetition "?" (List.mem_cons_of_mem _ (List.mem_singleton_self "?"))
  exact ⟨⟨_, hp⟩, ⟨_, hq⟩, hsequence, hchoice, hplus, hlazy⟩

end Pattern

end Regexp
