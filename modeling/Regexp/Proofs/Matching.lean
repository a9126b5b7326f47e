import Regexp.Proofs.Meaning
import Regexp.Proofs.RoundTrip
import Regexp.Proofs.Verdict

/-!
# Testing a pattern

A pattern matches the texts that its normal form denotes
(`Pattern.test_of_compile`). This rests on the shape of what is parsed:
there the body of every repetition is a symbol or a group, which has ends
of its own, and normalizing keeps it one. So the normal form of a
canonical tree is tight, and its automaton accepts what it denotes and
nothing else.
-/

namespace Regexp

namespace Expr

variable {level : Level} {e f : Expr} {es fs : List Expr}

/-- The normal form of an atom has ends of its own, so that it may be the
body of any repetition. -/
theorem allows_of_normalize (h : Canonical .atom e) (hf : e.normalize = .ok f) (q : Quantifier) :
    f.allows q = true := by
  have hskippable : f.isSkippable = true ∧ f.endsFresh = true := by
    cases h with
    | symbol _ =>
      obtain ⟨s, -, rfl⟩ := map_eq_ok_iff.1 hf
      exact ⟨rfl, rfl⟩
    | emptyGroup _ _ =>
      obtain rfl := Except.ok.inj hf
      exact ⟨rfl, rfl⟩
    | group _ _ _ =>
      obtain ⟨g, -, rfl⟩ := map_eq_ok_iff.1 hf
      exact ⟨rfl, rfl⟩
  unfold allows
  split
  · exact hskippable.1
  · rw [hskippable.1, Bool.or_true]
  · exact hskippable.1
  · rfl

/-- **The normal form of a canonical tree is tight.** -/
theorem Canonical.isTight_of_normalize (h : Canonical level e) (hf : e.normalize = .ok f) :
    f.isTight = true := by
  induction h generalizing f with
  | symbol _ =>
    obtain ⟨s, -, rfl⟩ := map_eq_ok_iff.1 hf
    rfl
  | emptyGroup _ _ =>
    obtain rfl := Except.ok.inj hf
    rfl
  | group _ _ _ ih =>
    obtain ⟨g, hg, rfl⟩ := map_eq_ok_iff.1 hf
    rw [isTight]
    exact ih hg
  | atom _ ih => exact ih hf
  | repetition h ih =>
    obtain ⟨g, hg, rfl⟩ := map_eq_ok_iff.1 hf
    rw [isTight, ih hg, allows_of_normalize h hg]
    rfl
  | item _ ih => exact ih hf
  | sequence _ _ ih =>
    obtain ⟨gs, hgs, rfl⟩ := map_eq_ok_iff.1 hf
    refine allTight_iff.2 fun g hg => ?_
    obtain ⟨e, he, hge⟩ := exists_mem_of_normalizeAll hgs g hg
    exact ih e he hge
  | row _ ih => exact ih hf
  | choice _ _ ih =>
    obtain ⟨gs, hgs, rfl⟩ := map_eq_ok_iff.1 hf
    refine allTight_iff.2 fun g hg => ?_
    obtain ⟨e, he, hge⟩ := exists_mem_of_normalizeAll hgs g hg
    exact ih e he hge

end Expr

namespace Pattern

/-- The text is one that the tree denotes, or the empty text if there is
no tree. -/
def Denotes : Option Expr → List Char → Prop
  | none, w => w = []
  | some e, w => e.Denotes w

variable {pattern : String} {a : Automaton}

/-- The automaton of a pattern accepts what the normal form of the pattern
denotes. -/
theorem accepts_iff_denotes {e? : Option Expr} (hnormal : normalize pattern = .ok e?)
    (h : Automaton.ofExpr? e? = .ok a) (w : List Char) : a.accepts w = true ↔ Denotes e? w := by
  obtain ⟨-, rfl⟩ | ⟨e, f, hparse, hf, rfl⟩ := normalize_eq_ok_iff.1 hnormal
  · exact Automaton.accepts_of_ofExpr?_none h w
  · have htight := (isCanonical_of_parse hparse).shape.isTight_of_normalize hf
    exact Expr.accepts_iff_denotes_of_isTight h htight w

/-- **A pattern accepts what its tree means**, and it compiles if its tree
means anything. -/
theorem exists_automaton_of_means {e : Expr} {L : List Char → Prop}
    (hparse : parse pattern = .ok (some e)) (h : e.Means L) :
    ∃ a, compile pattern = .ok a ∧ ∀ w, a.accepts w = true ↔ L w := by
  obtain ⟨f, hf, hauto, hL⟩ := h
  have hnormal := normalize_eq_ok_iff.2 (.inr ⟨e, f, hparse, hf, rfl⟩)
  obtain ⟨a, ha⟩ := Expr.exists_ofExpr?_eq_ok_iff.2 hauto
  refine ⟨a, compile_eq_ok_iff.2 ⟨some f, hnormal, ha⟩, fun w => ?_⟩
  exact (accepts_iff_denotes hnormal ha w).trans (hL w)

/-- **A pattern matches exactly the texts that its normal form denotes**,
and the test of a pattern that compiles always has an outcome. -/
theorem test_of_compile (h : compile pattern = .ok a) :
    ∃ e?, normalize pattern = .ok e? ∧ ∀ text : String,
      (test pattern text = .ok true ↔ Denotes e? text.toList) ∧
        (test pattern text = .ok false ↔ ¬ Denotes e? text.toList) := by
  obtain ⟨e?, hnormal, ha⟩ := compile_eq_ok_iff.1 h
  refine ⟨e?, hnormal, fun text => ?_⟩
  have hverdict := accepts_iff_denotes hnormal ha text.toList
  have htest (b : Bool) : test pattern text = .ok b ↔ a.accepts text.toList = b := by
    rw [test_eq_ok_iff]
    constructor
    · rintro ⟨a', ha', hb⟩
      obtain rfl := Except.ok.inj (ha'.symm.trans h)
      exact hb
    · exact fun hb => ⟨a, h, hb⟩
  rw [htest, htest, ← hverdict, Bool.not_eq_true]
  exact ⟨Iff.rfl, Iff.rfl⟩

/-- Behind a group the greedy `?` has a body with ends of its own, also
if the group starts with a circle. -/
theorem test_of_compile_group :
    ∃ a e?, compile "(a*b)?" = .ok a ∧ normalize "(a*b)?" = .ok e? ∧ ∀ text : String,
      (test "(a*b)?" text = .ok true ↔ Denotes e? text.toList) ∧
        (test "(a*b)?" text = .ok false ↔ ¬ Denotes e? text.toList) := by
  let body : Expr := .sequence [.repetition (.char 'a') (.zeroOrMore true), .char 'b']
  let e : Expr := .repetition (.group ⟨some 1, none, true⟩ body) (.zeroOrOne true)
  have hbody : Expr.Canonical .body body := by
    refine .row (.sequence (by decide) (List.forall_mem_cons.2 ⟨.repetition (.symbol trivial), ?_⟩))
    exact List.forall_mem_singleton.2 (.atom (.symbol trivial))
  have he : e.IsCanonical := ⟨.row (.item (.repetition (.group rfl rfl hbody))), rfl⟩
  have hrender : toString e = "(a*b)?" := by decide
  have hparse := parse_toString he
  rw [hrender] at hparse
  have hnormal := normalize_eq_ok_iff.2 (.inr ⟨e, e, hparse, rfl, rfl⟩)
  have hcompile := compile_eq_ok_iff.2 ⟨some e, hnormal, rfl⟩
  obtain ⟨e?, h⟩ := test_of_compile hcompile
  exact ⟨_, e?, hcompile, h⟩

end Pattern

end Regexp
