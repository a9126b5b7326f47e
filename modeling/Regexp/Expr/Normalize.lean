import Regexp.Error
import Regexp.Expr.Basic

/-!
# Normal forms

Automata are made from normalized trees, in which no meta character is
left: control escapes have become code points and class escapes sets.
Inside a set the members of a class take the place of its escape, which
is why the escape of a complement cannot stand there. Bounds that are
equal have become an exact count. All else, the shape of the tree
included, stays as it is.

The dot, `\b` and `\0` have no normal form.
-/

namespace Regexp

/-- The outcome of normalizing. -/
abbrev NormalizeResult (α : Type) := Except NormalizeFault α

/-- Whether the meta character has a normal form outside sets. -/
def MetaChar.hasNormalForm : MetaChar → Bool
  | dot | backspace | null => false
  | _ => true

/-- The symbol that takes the place of a meta character. -/
def MetaChar.normalize (m : MetaChar) : NormalizeResult Symbol :=
  match m.hasNormalForm, m.expand? with
  | true, some s => .ok s
  | _, _ => .error (.unsupportedMetaChar m)

/-- The items that take the place of an item of a set. -/
def SetItem.normalize : SetItem → NormalizeResult (List SetItem)
  | .member m => .ok [.member m]
  | .metaChar m =>
    if m.hasNormalForm then
      if m.isNegated then .error (.unsupportedNestedMetaChar m)
      else
        match m.classMembers?, m.codePoint? with
        | some members, _ => .ok (members.map .member)
        | none, some p => .ok [.member (.letter (.ofCodePoint p))]
        | none, none => .error (.unsupportedMetaChar m)
    else .error (.unsupportedMetaChar m)

namespace CharSet

/-- The items that take the place of the items of a set. -/
def normalizeItems : List SetItem → NormalizeResult (List SetItem)
  | [] => .ok []
  | i :: is =>
    match i.normalize with
    | .error e => .error e
    | .ok js => (normalizeItems is).map (js ++ ·)

/-- The normal form of a set. -/
def normalize (s : CharSet) : NormalizeResult CharSet :=
  (normalizeItems s.items).map (⟨·, s.negative⟩)

end CharSet

/-- The normal form of a symbol. -/
def Symbol.normalize : Symbol → NormalizeResult Symbol
  | .letter a => .ok (.letter a)
  | .metaChar m => m.normalize
  | .set s => s.normalize.map .set

namespace Expr

mutual

/-- The normal form of a tree. -/
def normalize : Expr → NormalizeResult Expr
  | symbol s => s.normalize.map symbol
  | sequence es => (normalizeAll es).map sequence
  | choice es => (normalizeAll es).map choice
  | emptyGroup l => .ok (emptyGroup l)
  | group l e => e.normalize.map (group l)
  | repetition e q => e.normalize.map (repetition · q.normalize)
  | lookAround d negative e => e.normalize.map (lookAround d negative)

/-- The normal forms of the parts, from left to right. -/
def normalizeAll : List Expr → NormalizeResult (List Expr)
  | [] => .ok []
  | e :: es =>
    match e.normalize with
    | .error fault => .error fault
    | .ok e => (normalizeAll es).map (e :: ·)

end

end Expr

end Regexp
