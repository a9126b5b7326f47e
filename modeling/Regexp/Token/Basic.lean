import Regexp.Letter
import Regexp.Error

/-!
# Tokens

A `Token` is a piece of a pattern whose meaning is settled, with the span
that it was read from. A set holds its members as tokens of their own. So
does a group, but groups only arise when parentheses are matched
(`Token.nest`); before that a parenthesis is a token among others.
-/

namespace Regexp

/-- What a token is, where `τ` is the type of the tokens that it may
hold. -/
inductive TokenKind (τ : Type) where
  /-- A literal character. -/
  | char (c : Char)
  /-- A unicode escape with the number of characters between its
  braces. -/
  | unicode (codePoint : UInt32) (width : Nat)
  /-- The dot or a letter escape. -/
  | metaChar (m : MetaChar)
  /-- A character that structures the pattern: a parenthesis or a pipe,
  an operator right behind an opening parenthesis, and inside a set the
  leading circumflex or the dash of a range. -/
  | entity (c : Char)
  /-- A set, with what stands between its brackets. -/
  | charSet (members : List τ)
  /-- A quantifier. -/
  | quantity (q : Quantity)
  /-- A group, with what stands between its parentheses. -/
  | group (tokens : List τ)
deriving Repr

/-- A token of a pattern. -/
structure Token where
  /-- What it is. -/
  kind : TokenKind Token
  /-- Where it was read. -/
  span : Span

namespace TokenKind

variable {τ : Type}

/-- The name of the kind. Lazy quantifiers have a name of their own. -/
def name : TokenKind τ → String
  | char _ => "Char"
  | unicode _ _ => "Unicode"
  | metaChar _ => "Meta"
  | entity _ => "Entity"
  | charSet _ => "CharSet"
  | quantity q => if q.greedy then "Quantity" else "LazyQuantity"
  | group _ => "Group"

/-- How messages describe a token of this kind. -/
def describe : TokenKind τ → String
  | char c => quoted [c]
  | entity c => quoted [c]
  | unicode codePoint _ =>
    quoted ('\\' :: 'u' :: '\x7b' :: (Nat.toDigits 16 codePoint.toNat ++ ['\x7d']))
  | metaChar m => quoted m.render
  | charSet _ => "character set"
  | quantity q => "quantifier " ++ quoted q.render
  | group _ => "group"

end TokenKind

namespace Token

/-- Whether the token is the structuring character `c`. -/
def isEntity (t : Token) (c : Char) : Bool :=
  match t.kind with
  | .entity d => d == c
  | _ => false

/-- The letter that the token stands for, if it stands for one. -/
def letter? (t : Token) : Option Letter :=
  match t.kind with
  | .char c => some (.literal c)
  | .unicode codePoint width => some (.unicode codePoint width)
  | _ => none

end Token

end Regexp
