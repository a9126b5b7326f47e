import Regexp.Token.Basic

/-!
# Matching parentheses

`Token.nest` replaces each pair of parentheses, with all that stands
between, by one group token. The parentheses that are still open form a
stack (`OpenGroup`), so a closing one finds its partner on top, and what
is left on the stack in the end has no partner.

A closing parenthesis without a partner is reported where it stands. If
there is none, the parenthesis that was opened last among those never
closed is reported.
-/

namespace Regexp

/-- The outcome of building a tree from tokens. -/
abbrev ParseResult (α : Type) := Except (Located ParseFault) α

/-- A parenthesis that is not closed yet. -/
structure OpenGroup where
  /-- Where it stands. -/
  paren : Span
  /-- The tokens before it since the parenthesis around it, the last one
  first. -/
  before : List Token

namespace Token

/-- The tokens with their parentheses matched, where `opened` are the
parentheses still open, the innermost first, and `done` are the tokens
since the innermost one, the last one first. -/
def nestFrom (opened : List OpenGroup) (done : List Token) : List Token → ParseResult (List Token)
  | [] =>
    match opened with
    | [] => .ok done.reverse
    | g :: _ => .error ⟨.unbalancedGroup, g.paren⟩
  | t :: ts =>
    if t.isEntity '(' then nestFrom (⟨t.span, done⟩ :: opened) [] ts
    else if t.isEntity ')' then
      match opened with
      | [] => .error ⟨.unbalancedGroup, t.span⟩
      | g :: outer => nestFrom outer (⟨.group done.reverse, g.paren.cover t.span⟩ :: g.before) ts
    else nestFrom opened (t :: done) ts

/-- The tokens with each pair of parentheses and what stands between
replaced by a group. -/
def nest (tokens : List Token) : ParseResult (List Token) :=
  nestFrom [] [] tokens

end Token

end Regexp
