import Regexp.Json.Basic
import Regexp.Token.Basic
import Regexp.Expr.Basic

/-!
# Tokens and trees as JSON documents

The documents in which tokens and syntax trees are shown. A value of a
type with several alternatives is an object with one field, named for the
alternative; an alternative without content is just that name.
-/

namespace Regexp

/-- The name by which documents know the meta character. -/
def MetaChar.name : MetaChar → String
  | dot => "Dot"
  | formFeed => "FormFeed"
  | carriageReturn => "CarriageReturn"
  | lineFeed => "LineFeed"
  | tab => "Tab"
  | verticalTab => "VerticalTab"
  | null => "Null"
  | backspace => "Backspace"
  | space => "Space"
  | notSpace => "NotSpace"
  | word => "Word"
  | notWord => "NotWord"
  | digit => "Digit"
  | notDigit => "NotDigit"

namespace Json

/-- The document of a span. -/
def ofSpan (a : Span) : Json :=
  .object [("start", .number a.start.toNat), ("end", .number a.stop.toNat)]

/-- The document of a meta character. -/
def ofMetaChar (m : MetaChar) : Json :=
  .string m.name

/-- The document of a bound. -/
def ofBound (n : UInt32) : Json :=
  .number n.toNat

/-- The document of a unicode escape. -/
def ofUnicode (codePoint : UInt32) (width : Nat) : Json :=
  tagged "Unicode" (.object [("code_point", ofBound codePoint), ("width", .number width)])

/-! ## Tokens -/

/-- The document of a count. -/
def ofCount : Count → Json
  | .zeroOrOne => .string "Question"
  | .oneOrMore => .string "Plus"
  | .zeroOrMore => .string "Star"
  | .exactly n => tagged "Exactly" (ofBound n)
  | .between lower upper =>
    tagged "Range" (.object [("from", ofBound lower), ("to", ofBound upper)])
  | .atLeast n => tagged "AtLeast" (ofBound n)

mutual

/-- The document of a token. -/
def ofToken : Token → Json
  | ⟨.char c, span⟩ => placed (tagged "Char" (char c)) span
  | ⟨.unicode codePoint width, span⟩ => placed (ofUnicode codePoint width) span
  | ⟨.metaChar m, span⟩ => placed (tagged "Meta" (ofMetaChar m)) span
  | ⟨.entity c, span⟩ => placed (tagged "Entity" (char c)) span
  | ⟨.charSet members, span⟩ => placed (tagged "CharSet" (.array (ofTokens members))) span
  | ⟨.quantity q, span⟩ =>
    placed
      (tagged "Quantity" (.object [("kind", ofCount q.count), ("greedy", .bool q.greedy)])) span
  | ⟨.group tokens, span⟩ => placed (tagged "Group" (.array (ofTokens tokens))) span
where
  /-- The document of a kind with the span of its token. -/
  placed (kind : Json) (span : Span) : Json :=
    .object [("kind", kind), ("span", ofSpan span)]

/-- The documents of tokens. -/
def ofTokens : List Token → List Json
  | [] => []
  | t :: ts => ofToken t :: ofTokens ts

end

/-! ## Trees -/

/-- The document of a letter. -/
def ofLetter : Letter → Json
  | .literal c => tagged "Literal" (.object [("value", char c)])
  | .unicode codePoint width => ofUnicode codePoint width

/-- The document of an item of a set. -/
def ofSetItem : SetItem → Json
  | .member (.letter a) => tagged "Char" (ofLetter a)
  | .member (.range a b) => tagged "Range" (.object [("start", ofLetter a), ("end", ofLetter b)])
  | .metaChar m => tagged "Meta" (ofMetaChar m)

/-- The document of a symbol. -/
def ofSymbol : Symbol → Json
  | .letter a => tagged "Char" (ofLetter a)
  | .metaChar m => tagged "Meta" (ofMetaChar m)
  | .set s =>
    tagged "CharSet"
      (.object [("items", .array (s.items.map ofSetItem)), ("negative", .bool s.negative)])

/-- The document of a quantifier. -/
def ofQuantifier : Quantifier → Json
  | .oneOrMore greedy => tagged "OneOrMore" (.object [("greedy", .bool greedy)])
  | .zeroOrOne greedy => tagged "OneOrZero" (.object [("greedy", .bool greedy)])
  | .zeroOrMore greedy => tagged "ZeroOrMore" (.object [("greedy", .bool greedy)])
  | .between lower upper greedy =>
    tagged "Range"
      (.object [("from", ofBound lower), ("to", ofBound upper), ("greedy", .bool greedy)])
  | .exactly n => tagged "ManyTimes" (ofBound n)
  | .atLeast n greedy =>
    tagged "ManyTimesOrMore" (.object [("n", ofBound n), ("greedy", .bool greedy)])

/-- The document of a group, given that of its body. -/
def ofGroup (l : GroupLabel) (body : Json) : Json :=
  tagged "Group"
    (.object
      [("expr", body), ("number", ofOption .number l.number), ("name", ofOption .string l.name),
        ("capturing", .bool l.capturing)])

/-- The document of a direction. -/
def ofDirection : Direction → Json
  | .ahead => .string "Ahead"
  | .behind => .string "Behind"

mutual

/-- The document of a tree. -/
def ofExpr : Expr → Json
  | .symbol s => tagged "Symbol" (ofSymbol s)
  | .sequence es => tagged "Alternative" (.array (ofExprs es))
  | .choice es => tagged "Disjunction" (.array (ofExprs es))
  | .emptyGroup l => ofGroup l .null
  | .group l e => ofGroup l (ofExpr e)
  | .repetition e q =>
    tagged "Repetition" (.object [("expr", ofExpr e), ("quantifier", ofQuantifier q)])
  | .lookAround d negative e =>
    tagged "LookAround"
      (.object [("kind", ofDirection d), ("negative", .bool negative), ("expr", ofExpr e)])

/-- The documents of trees. -/
def ofExprs : List Expr → List Json
  | [] => []
  | e :: es => ofExpr e :: ofExprs es

end

end Json

end Regexp
