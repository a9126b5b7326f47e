import Regexp.Pattern

/-!
# When the passes go through

Each function of `Regexp.Pattern` is the one before it and one more pass.
It goes through if both do (`Pattern.parse_eq_ok_iff`,
`Pattern.normalize_eq_ok_iff`, `Pattern.compile_eq_ok_iff`,
`Pattern.test_eq_ok_iff`).
-/

namespace Regexp

namespace Pattern

variable {pattern text : String}

theorem lex_eq_ok_iff {ts : List Token} :
    lex pattern = .ok ts ↔ Token.lex pattern.toList = .ok ts :=
  mapError_eq_ok_iff

theorem parse_eq_ok_iff {e? : Option Expr} :
    parse pattern = .ok e? ↔
      ∃ ts, Token.lex pattern.toList = .ok ts ∧ Expr.parse ts = .ok e? := by
  unfold parse
  rw [bind_eq_ok_iff]
  simp only [lex_eq_ok_iff, mapError_eq_ok_iff]

/-- The normal form of a tree, if there is a tree. -/
theorem normalize_eq_ok_iff {e? : Option Expr} :
    normalize pattern = .ok e? ↔
      parse pattern = .ok none ∧ e? = none ∨
      ∃ e f, parse pattern = .ok (some e) ∧ e.normalize = .ok f ∧ e? = some f := by
  unfold normalize
  rw [bind_eq_ok_iff]
  constructor
  · rintro ⟨g?, hparse, h⟩
    cases g? with
    | none => exact .inl ⟨hparse, (Except.ok.inj h).symm⟩
    | some e =>
      obtain ⟨f, hf, rfl⟩ := map_eq_ok_iff.1 (mapError_eq_ok_iff.1 h)
      exact .inr ⟨e, f, hparse, hf, rfl⟩
  · rintro (⟨hparse, rfl⟩ | ⟨e, f, hparse, hf, rfl⟩)
    · exact ⟨none, hparse, rfl⟩
    · exact ⟨some e, hparse, mapError_eq_ok_iff.2 (map_eq_ok_iff.2 ⟨f, hf, rfl⟩)⟩

theorem compile_eq_ok_iff {a : Automaton} :
    compile pattern = .ok a ↔
      ∃ e?, normalize pattern = .ok e? ∧ Automaton.ofExpr? e? = .ok a := by
  unfold compile
  rw [bind_eq_ok_iff]
  simp only [mapError_eq_ok_iff]

/-- **Where a located error comes from**: reading the tokens or building
the tree. -/
theorem located_of_compile {err : PatternError} {span : Span} (h : compile pattern = .error err)
    (hspan : err.span? = some span) :
    (∃ e, Token.lex pattern.toList = .error e ∧ e.span = span)
      ∨ ∃ ts e, Token.lex pattern.toList = .ok ts ∧ Expr.parse ts = .error e ∧ e.span = span := by
  unfold compile normalize parse lex at h
  obtain h | ⟨e?, -, h⟩ := bind_eq_error_iff.1 h
  · obtain h | ⟨g?, -, h⟩ := bind_eq_error_iff.1 h
    · obtain h | ⟨ts, hlex, h⟩ := bind_eq_error_iff.1 h
      · obtain ⟨e, hlex, rfl⟩ := mapError_eq_error_iff.1 h
        exact .inl ⟨e, hlex, Option.some.inj hspan⟩
      · obtain ⟨e, htree, rfl⟩ := mapError_eq_error_iff.1 h
        exact .inr ⟨ts, e, mapError_eq_ok_iff.1 hlex, htree, Option.some.inj hspan⟩
    · cases g? with
      | none => cases h
      | some e =>
        obtain ⟨fault, -, rfl⟩ := mapError_eq_error_iff.1 h
        cases hspan
  · obtain ⟨fault, -, rfl⟩ := mapError_eq_error_iff.1 h
    cases hspan

theorem test_eq_ok_iff {b : Bool} :
    test pattern text = .ok b ↔ ∃ a, compile pattern = .ok a ∧ a.accepts text.toList = b := by
  unfold test
  rw [bind_eq_ok_iff]
  constructor
  · rintro ⟨a, ha, h⟩
    exact ⟨a, ha, Except.ok.inj h⟩
  · rintro ⟨a, ha, rfl⟩
    exact ⟨a, ha, rfl⟩

end Pattern

end Regexp
