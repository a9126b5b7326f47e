import Regexp.Span
import Regexp.MetaChar
import Regexp.Quantifier

/-!
# Why a pattern is rejected

A pattern goes through four passes, and each has faults of its own:
reading tokens (`LexFault`), building the tree (`ParseFault`),
normalizing it (`NormalizeFault`) and compiling it (`CompileFault`). The
faults of the first two passes have a place in the pattern and are
`Located`; a tree no longer knows where its parts stood.

`PatternError` joins the four, with one message for each fault.
-/

namespace Regexp

/-- A fault together with the part of the pattern that it is about. -/
structure Located (φ : Type) where
  /-- What is wrong. -/
  fault : φ
  /-- Where it is wrong. -/
  span : Span
deriving DecidableEq, Repr

/-- A text between backticks, as messages quote parts of a pattern. -/
def quoted (s : List Char) : String :=
  "`" ++ String.ofList s ++ "`"

/-! ## Reading tokens -/

/-- Why a pattern cannot be split into tokens. -/
inductive LexFault where
  /-- A set has no closing bracket. -/
  | unterminatedSet
  /-- A bounded quantifier has no closing brace. -/
  | unterminatedQuantity
  /-- There is nothing between the braces. -/
  | emptyQuantity
  /-- The braces hold a comma with nothing before it. -/
  | missingLowerBound
  /-- The character behind a backslash has no meaning there, or the
  pattern ends with the backslash. -/
  | unsupportedEscape (target : Option Char)
  /-- A unicode escape has no braces, or not four or six characters
  between them. -/
  | malformedUnicodeEscape
  /-- A unicode escape holds something that is no hexadecimal digit. -/
  | invalidHexDigits
  /-- A unicode escape holds nothing but blanks. -/
  | blankHexDigits
  /-- A unicode escape denotes a number above the last code point. -/
  | codePointOutOfRange
  /-- A bound holds something that is no decimal digit, or is too
  large. -/
  | invalidDecimalDigits
  /-- A bound holds nothing but blanks. -/
  | blankDecimalDigits
deriving DecidableEq, Repr

/-- The wording of the fault. -/
def LexFault.message : LexFault → String
  | unterminatedSet => "unterminated character set: missing `]`"
  | unterminatedQuantity => "unterminated quantifier: missing `\x7d`"
  | emptyQuantity => "empty quantifier `\x7b\x7d`"
  | missingLowerBound => "quantifier is missing its lower bound"
  | unsupportedEscape (some c) => "unsupported escape " ++ quoted ['\\', c]
  | unsupportedEscape none => "pattern ends with a lone `\\`"
  | malformedUnicodeEscape =>
    "unicode escape must be `\\u\x7bhhhh\x7d` or `\\u\x7bhhhhhh\x7d`"
  | invalidHexDigits => "invalid hex digits in unicode escape"
  | blankHexDigits => "unicode escape has no hex digits"
  | codePointOutOfRange => "code point is above U+10FFFF"
  | invalidDecimalDigits => "invalid decimal digits in quantifier"
  | blankDecimalDigits => "quantifier bound has no digits"

/-! ## Building the tree -/

/-- What a question mark right behind an opening parenthesis announces.
None of these is supported. -/
inductive GroupFeature where
  /-- A group whose match is not kept. -/
  | nonCapturing
  /-- A group with a name. -/
  | named
  /-- An assertion about the text that follows. -/
  | lookAhead
  /-- An assertion about the text before. -/
  | lookBehind
  /-- Anything else. -/
  | unknown
deriving DecidableEq, Repr

/-- How messages name the feature. -/
def GroupFeature.describe : GroupFeature → String
  | nonCapturing => "non-capturing group `(?:...)`"
  | named => "named group `(?<name>...)`"
  | lookAhead => "lookahead `(?=...)`"
  | lookBehind => "lookbehind `(?<=...)`"
  | unknown => "group modifier `(?...)`"

/-- Why tokens make no tree. -/
inductive ParseFault where
  /-- A parenthesis has no partner. -/
  | unbalancedGroup
  /-- A pipe has nothing on one of its sides. -/
  | danglingPipe
  /-- A group starts with a question mark. -/
  | unsupportedGroupFeature (feature : GroupFeature)
  /-- A token stands where none of its kind may stand; `found` describes
  it. -/
  | unexpectedToken (found : String)
deriving DecidableEq, Repr

/-- The wording of the fault. -/
def ParseFault.message : ParseFault → String
  | unbalancedGroup => "unbalanced parenthesis"
  | danglingPipe => "`|` needs an expression on both sides"
  | unsupportedGroupFeature feature => "unsupported group syntax: " ++ feature.describe
  | unexpectedToken found => "invalid token in this position: " ++ found

/-! ## Normalizing and compiling -/

/-- Why a tree has no normal form. -/
inductive NormalizeFault where
  /-- The meta character has no normal form. -/
  | unsupportedMetaChar (m : MetaChar)
  /-- The meta character has none inside a set. -/
  | unsupportedNestedMetaChar (m : MetaChar)
deriving DecidableEq, Repr

/-- The wording of the fault. -/
def NormalizeFault.message : NormalizeFault → String
  | unsupportedMetaChar m => "meta character " ++ quoted m.render ++ " is not supported"
  | unsupportedNestedMetaChar m => quoted m.render ++ " cannot be used inside a character set"

/-- Why a tree has no automaton. -/
inductive CompileFault where
  /-- The quantifier has bounds. -/
  | unsupportedQuantifier (q : Quantifier)
  /-- A part of the tree is no regular operation; `node` describes it. -/
  | unsupportedNode (node : String)
deriving DecidableEq, Repr

/-- The wording of the fault. -/
def CompileFault.message : CompileFault → String
  | unsupportedQuantifier q => "bounded repetition " ++ quoted q.render ++ " is not supported"
  | unsupportedNode node => node ++ " cannot be compiled"

/-! ## All passes -/

/-- Why a pattern has no automaton: a fault of one of the four passes. -/
inductive PatternError where
  /-- The pattern cannot be split into tokens. -/
  | lex (e : Located LexFault)
  /-- The tokens make no tree. -/
  | parse (e : Located ParseFault)
  /-- The tree has no normal form. -/
  | normalize (fault : NormalizeFault)
  /-- The normal form has no automaton. -/
  | compile (fault : CompileFault)
deriving DecidableEq, Repr

namespace PatternError

/-- The wording of the error. -/
def message : PatternError → String
  | lex e => e.fault.message
  | parse e => e.fault.message
  | normalize fault => fault.message
  | compile fault => fault.message

/-- The part of the pattern that the error is about, where it is
known. -/
def span? : PatternError → Option Span
  | lex e => some e.span
  | parse e => some e.span
  | normalize _ => none
  | compile _ => none

end PatternError

/-! ## Outcomes -/

section Outcomes

variable {ε ε' α β γ : Type}

theorem not_exists_error_eq_ok {e : ε} : ¬ ∃ a : α, (.error e : Except ε α) = .ok a :=
  fun ⟨_, h⟩ => nomatch h

/-- What went through still does if its outcome is changed, and only
that. -/
theorem map_eq_ok_iff {r : Except ε α} {f : α → β} {b : β} :
    r.map f = .ok b ↔ ∃ a, r = .ok a ∧ f a = b := by
  cases r with
  | error e => exact iff_of_false (fun h => nomatch h) fun ⟨_, h, _⟩ => nomatch h
  | ok a =>
    constructor
    · intro h
      exact ⟨a, rfl, Except.ok.inj h⟩
    · rintro ⟨_, h, rfl⟩
      obtain rfl := Except.ok.inj h
      rfl

theorem map_eq_error_iff {r : Except ε α} {f : α → β} {e : ε} :
    r.map f = .error e ↔ r = .error e := by
  cases r with
  | error e' =>
    constructor
    · exact fun h => congrArg Except.error (Except.error.inj h)
    · exact fun h => congrArg Except.error (Except.error.inj h)
  | ok a => exact iff_of_false nofun nofun

theorem map_map (r : Except ε α) (f : α → β) (g : β → γ) :
    (r.map f).map g = r.map fun a => g (f a) := by
  cases r <;> rfl

/-- The fault of an outcome, if it has one. -/
def faultOf? : Except ε α → Option ε
  | .error e => some e
  | .ok _ => none

theorem faultOf?_eq_some_iff {r : Except ε α} {e : ε} : faultOf? r = some e ↔ r = .error e := by
  cases r with
  | error e' =>
    constructor
    · exact fun h => congrArg Except.error (Option.some.inj h)
    · exact fun h => congrArg some (Except.error.inj h)
  | ok a => exact iff_of_false nofun nofun

theorem faultOf?_eq_none_iff {r : Except ε α} : faultOf? r = none ↔ ∃ a, r = .ok a := by
  cases r with
  | error e => exact iff_of_false nofun not_exists_error_eq_ok
  | ok a => exact iff_of_true rfl ⟨a, rfl⟩

@[simp] theorem faultOf?_map (r : Except ε α) (f : α → β) : faultOf? (r.map f) = faultOf? r := by
  cases r <;> rfl

theorem faultOf?_mapError (r : Except ε α) (f : ε → ε') :
    faultOf? (r.mapError f) = (faultOf? r).map f := by
  cases r <;> rfl

theorem toOption_map (r : Except ε α) (f : α → β) : (r.map f).toOption = r.toOption.map f := by
  cases r <;> rfl

theorem toOption_eq_some_iff {r : Except ε α} {a : α} : r.toOption = some a ↔ r = .ok a := by
  cases r with
  | error e => exact iff_of_false nofun nofun
  | ok b =>
    constructor
    · exact fun h => congrArg Except.ok (Option.some.inj h)
    · exact fun h => congrArg some (Except.ok.inj h)

theorem mapError_eq_ok_iff {r : Except ε α} {f : ε → ε'} {a : α} :
    r.mapError f = .ok a ↔ r = .ok a := by
  cases r with
  | error e => exact iff_of_false nofun nofun
  | ok b =>
    constructor
    · exact fun h => congrArg Except.ok (Except.ok.inj h)
    · exact fun h => congrArg Except.ok (Except.ok.inj h)

theorem mapError_eq_error_iff {r : Except ε α} {f : ε → ε'} {e' : ε'} :
    r.mapError f = .error e' ↔ ∃ e, r = .error e ∧ f e = e' := by
  cases r with
  | error e =>
    constructor
    · exact fun h => ⟨e, rfl, Except.error.inj h⟩
    · rintro ⟨_, h, rfl⟩
      obtain rfl := Except.error.inj h
      rfl
  | ok a => exact iff_of_false nofun fun ⟨_, h, _⟩ => nomatch h

/-- Two passes go through if the first one does, and the second one with
its outcome. -/
theorem bind_eq_ok_iff {r : Except ε α} {f : α → Except ε β} {b : β} :
    (r >>= f) = .ok b ↔ ∃ a, r = .ok a ∧ f a = .ok b := by
  cases r with
  | error e => exact iff_of_false nofun fun ⟨_, h, _⟩ => nomatch h
  | ok a =>
    constructor
    · exact fun h => ⟨a, rfl, h⟩
    · rintro ⟨_, h, hb⟩
      obtain rfl := Except.ok.inj h
      exact hb

/-- The first pass that fails decides the error. -/
theorem bind_eq_error_iff {r : Except ε α} {f : α → Except ε β} {e : ε} :
    (r >>= f) = .error e ↔ r = .error e ∨ ∃ a, r = .ok a ∧ f a = .error e := by
  cases r with
  | error e' =>
    constructor
    · exact fun h => .inl (congrArg Except.error (Except.error.inj h))
    · rintro (h | ⟨_, h, _⟩)
      · exact congrArg Except.error (Except.error.inj h)
      · cases h
  | ok a =>
    constructor
    · exact fun h => .inr ⟨a, rfl, h⟩
    · rintro (h | ⟨_, h, he⟩)
      · cases h
      · obtain rfl := Except.ok.inj h
        exact he

end Outcomes

end Regexp
