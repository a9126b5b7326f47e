import Regexp.Expr.Builder
import Regexp.Proofs.Matching

/-!
# Quoting

The tree of a literal text is rendered with a backslash before every
character that has a meaning of its own, and with nothing else. Read as a
pattern, it matches the text and no other (`Pattern.test_toString_ofString`):
the tree is canonical, so it is what is parsed, normalizing leaves it
alone, and it denotes the text.

The empty text is an exception. It is rendered as the empty pattern, and
an empty pattern has no tree.
-/

namespace Regexp

namespace Expr

variable {cs w : List Char} {s : String}

/-- The tree of a literal text, for all but a single character a
sequence. -/
theorem ofString_cases (s : String) :
    (∃ c, s.toList = [c] ∧ ofString s = char c)
      ∨ s.toList.length ≠ 1 ∧ ofString s = .sequence (s.toList.map char) := by
  unfold ofString
  split
  next c hc => exact .inl ⟨c, hc, rfl⟩
  next hne =>
    refine .inr ⟨fun hlen => ?_, rfl⟩
    obtain ⟨c, hc⟩ := List.length_eq_one_iff.1 hlen
    exact hne c hc

/-! ## A character after the other -/

theorem normalizeAll_map_char (cs : List Char) :
    normalizeAll (cs.map char) = .ok (cs.map char) := by
  induction cs with
  | nil => rfl
  | cons c cs ih =>
    have hc : (char c).normalize = .ok (char c) := rfl
    rw [List.map_cons, normalizeAll, hc]
    exact congrArg (Except.map (char c :: ·)) ih

theorem allConstructible_map_char (cs : List Char) : allConstructible (cs.map char) = true := by
  induction cs with
  | nil => rfl
  | cons c cs ih => exact ih

theorem groupNumbersOfAll_map_char (cs : List Char) : groupNumbersOfAll (cs.map char) = [] := by
  induction cs with
  | nil => rfl
  | cons c cs ih => exact ih

/-- A literal character denotes itself. -/
theorem denotes_char {c : Char} : (char c).Denotes w ↔ w = [c] := by
  rw [char, denotes_symbol]
  constructor
  · rintro ⟨d, hd, rfl⟩
    rw [Symbol.includes_letter, Letter.includes_iff, Letter.codePoint_literal] at hd
    rw [Char.ext hd]
  · rintro rfl
    exact ⟨c, Letter.includes_iff.2 rfl, rfl⟩

/-- **Literal characters in a row denote their text.** -/
theorem denotes_sequence_map_char : (sequence (cs.map char)).Denotes w ↔ w = cs := by
  induction cs generalizing w with
  | nil => exact denotes_sequence_nil
  | cons c cs ih =>
    rw [List.map_cons, denotes_sequence_cons]
    constructor
    · rintro ⟨u, v, hu, hv, rfl⟩
      rw [denotes_char.1 hu, ih.1 hv]
      rfl
    · rintro rfl
      exact ⟨[c], cs, denotes_char.2 rfl, ih.2 rfl, rfl⟩

/-! ## Literal texts -/

/-- **The tree of a literal text means the text.** Nothing in it would
change by normalizing. -/
theorem means_ofString (s : String) : (ofString s).Means (· = s.toList) := by
  obtain ⟨c, hc, htree⟩ | ⟨-, htree⟩ := ofString_cases s
  · rw [htree, hc]
    exact ⟨char c, rfl, rfl, fun _ => denotes_char⟩
  · rw [htree]
    have hauto : (sequence (s.toList.map char)).isConstructible = true := by
      rw [isConstructible, allConstructible_map_char]
    refine ⟨_, ?_, hauto, fun _ => denotes_sequence_map_char⟩
    rw [normalize, normalizeAll_map_char]
    rfl

/-- **The tree of a literal text is canonical**, unless the text is
empty. -/
theorem isCanonical_ofString (h : s ≠ "") : (ofString s).IsCanonical := by
  have hatom (c : Char) : Canonical .atom (char c) := .symbol trivial
  obtain ⟨c, -, htree⟩ | ⟨hlen, htree⟩ := ofString_cases s
  · rw [htree]
    exact ⟨.row (.item (.atom (hatom c))), rfl⟩
  · have hne : s.toList.length ≠ 0 := by
      rwa [Ne, List.length_eq_zero_iff, String.toList_eq_nil_iff]
    rw [htree]
    refine ⟨.row (.sequence ?_ (List.forall_mem_map.2 fun c _ => .atom (hatom c))), ?_⟩
    · rw [List.length_map]
      omega
    · rw [groupNumbers, groupNumbersOfAll_map_char]
      rfl

end Expr

namespace Pattern

/-- The pattern of a literal text has an automaton that accepts the text
and nothing else. -/
theorem exists_automaton_ofString (s : String) :
    ∃ a, compile (toString (Expr.ofString s)) = .ok a
      ∧ ∀ w, a.accepts w = true ↔ w = s.toList := by
  by_cases h : s = ""
  · subst h
    have hlex : Token.lex (toString (Expr.ofString "")).toList = .ok [] := by
      with_unfolding_all rfl
    have hparse := parse_eq_ok_iff.2 ⟨[], hlex, rfl⟩
    have hnormal := normalize_eq_ok_iff.2 (.inl ⟨hparse, rfl⟩)
    exact ⟨_, compile_eq_ok_iff.2 ⟨none, hnormal, rfl⟩, Automaton.accepts_of_ofExpr?_none rfl⟩
  · have hparse := parse_toString (Expr.isCanonical_ofString h)
    exact exists_automaton_of_means hparse (Expr.means_ofString s)

/-- **Quoting is exact**: rendered as a pattern, a literal text matches
itself and no other text, whatever characters it holds. -/
theorem test_toString_ofString (s text : String) :
    test (toString (Expr.ofString s)) text = .ok (decide (text = s)) := by
  obtain ⟨a, ha, haccepts⟩ := exists_automaton_ofString s
  refine test_eq_ok_iff.2 ⟨a, ha, ?_⟩
  rw [Bool.eq_iff_iff, haccepts, decide_eq_true_iff, String.toList_inj]

end Pattern

end Regexp
