import Regexp.Token.Nesting
import Regexp.Expr.Numbering

/-!
# Building trees from tokens

The tokens of a pattern, or of what stands between two parentheses, are
split at the pipes into branches, and each branch is a row of atoms with
at most one quantifier behind each. `Expr.parse` matches the parentheses,
builds the tree and numbers its groups.

Pipes are checked first, all of them on one level before anything else on
that level; after that the first token that cannot stand where it stands
is the one reported.
-/

namespace Regexp

/-- The fault of a token that cannot stand where it stands. -/
def Token.unexpected (t : Token) : Located ParseFault :=
  ⟨.unexpectedToken t.kind.describe, t.span⟩

/-! ## Sets -/

namespace CharSet

/-- The items that the members of a set denote. A dash makes a range of
the letter before it and the letter behind it. -/
def itemsOf : List Token → ParseResult (List SetItem)
  | [] => .ok []
  | t :: ts =>
    match t.letter?, t.kind with
    | some a, _ =>
      match ts with
      | [] => .ok [.member (.letter a)]
      | d :: us =>
        if d.isEntity '-' then
          match us with
          | [] => .error d.unexpected
          | u :: us =>
            match u.letter? with
            | some b => (itemsOf us).map (.member (.range a b) :: ·)
            | none => .error d.unexpected
        else (itemsOf (d :: us)).map (.member (.letter a) :: ·)
    | none, .metaChar m => (itemsOf ts).map (.metaChar m :: ·)
    | none, _ => .error t.unexpected

/-- The set that the tokens between two brackets denote. -/
def ofTokens : List Token → ParseResult CharSet
  | [] => .ok ⟨[], false⟩
  | t :: ts =>
    if t.isEntity '^' then (itemsOf ts).map (⟨·, true⟩)
    else (itemsOf (t :: ts)).map (⟨·, false⟩)

end CharSet

/-! ## Groups -/

/-- What the tokens behind an opening parenthesis and a question mark
announce. -/
def GroupFeature.ofTokens (ts : List Token) : GroupFeature :=
  match charAt 0, charAt 1 with
  | some ':', _ => nonCapturing
  | some '=', _ => lookAhead
  | some '!', _ => lookAhead
  | some '<', some '=' => lookBehind
  | some '<', some '!' => lookBehind
  | some '<', _ => named
  | _, _ => unknown
where
  /-- The literal character that the token at a position is. -/
  charAt (i : Nat) : Option Char :=
    match ts[i]? with
    | some ⟨.char c, _⟩ => some c
    | _ => none

/-- What is wrong with the beginning of a group: `span` is that of the
group, and `ts` are the tokens between its parentheses. -/
def groupFault? (span : Span) : List Token → Option (Located ParseFault)
  | [] => none
  | t :: ts =>
    if t.isEntity '?' then some ⟨.unsupportedGroupFeature (.ofTokens ts), span⟩
    else if t.isEntity '*' || t.isEntity '+' then some t.unexpected
    else none

/-! ## Branches -/

/-- The first pipe that has nothing on one of its sides. `atStart` says
whether the tokens stand at the start of their level or right behind a
pipe. -/
def danglingPipe? (atStart : Bool) : List Token → Option (Located ParseFault)
  | [] => none
  | t :: ts =>
    if t.isEntity '|' then
      if atStart || ts.isEmpty then some ⟨.danglingPipe, t.span⟩ else danglingPipe? true ts
    else danglingPipe? false ts

namespace Expr

/-- One item after the other; nothing if there are no items, and the item
itself if there is only one. -/
def ofItems : List Expr → Option Expr
  | [] => none
  | [e] => some e
  | es => some (.sequence es)

/-- The choice between branches, each given by its items; without a
choice the one branch itself. -/
def ofBranches : List (List Expr) → Option Expr
  | [] => none
  | [items] => ofItems items
  | branches => some (.choice (branches.filterMap ofItems))

/-- The group around a body that may be absent. Numbers are assigned
later. -/
def ofGroupBody : Option Expr → Expr
  | none => .emptyGroup .plain
  | some e => .group .plain e

/-- The branches with `e` put in front of the first one. -/
def consItem (e : Expr) : List (List Expr) → List (List Expr)
  | [] => [[e]]
  | b :: bs => (e :: b) :: bs

mutual

/-- The tree of a single token. Only a token that stands for itself or
holds others has one. -/
def ofToken : Token → ParseResult Expr
  | ⟨.char c, _⟩ => .ok (.symbol (.letter (.literal c)))
  | ⟨.unicode codePoint width, _⟩ => .ok (.symbol (.letter (.unicode codePoint width)))
  | ⟨.metaChar m, _⟩ => .ok (.symbol (.metaChar m))
  | ⟨.charSet members, _⟩ => (CharSet.ofTokens members).map (.symbol <| .set ·)
  | ⟨.group tokens, span⟩ =>
    match (groupFault? span tokens).or (danglingPipe? true tokens) with
    | some e => .error e
    | none => (branchesOf tokens).map fun bs => ofGroupBody (ofBranches bs)
  | ⟨.entity c, span⟩ => .error (Token.unexpected ⟨.entity c, span⟩)
  | ⟨.quantity q, span⟩ => .error (Token.unexpected ⟨.quantity q, span⟩)

/-- The items of the branches that pipes separate, on one level. -/
def branchesOf : List Token → ParseResult (List (List Expr))
  | [] => .ok [[]]
  | ⟨.entity '|', _⟩ :: ts => (branchesOf ts).map ([] :: ·)
  | t :: ⟨.quantity q, _⟩ :: ts =>
    match ofToken t with
    | .error e => .error e
    | .ok a => (branchesOf ts).map (consItem (.repetition a (.ofQuantity q)))
  | t :: ts =>
    match ofToken t with
    | .error e => .error e
    | .ok a => (branchesOf ts).map (consItem a)

end

/-- The tree of tokens whose parentheses are matched, or nothing if there
are none. Groups have no numbers yet. -/
def ofNested (tokens : List Token) : ParseResult (Option Expr) :=
  match danglingPipe? true tokens with
  | some e => .error e
  | none => (branchesOf tokens).map ofBranches

/-- The tree of a list of tokens, or nothing if there are none. -/
def parse (tokens : List Token) : ParseResult (Option Expr) :=
  match Token.nest tokens with
  | .error e => .error e
  | .ok nested => (ofNested nested).map (·.map numberGroups)

end Expr

end Regexp
