import Regexp.CharClass

/-!
# Symbols

A `Symbol` is anything in a pattern that consumes exactly one character:
a letter, a meta character, or a bracketed set. `Symbol.includes` says
which characters it consumes; it is all that matching ever asks of a
symbol.
-/

namespace Regexp

/-- What stands between the brackets of a set. -/
inductive SetItem where
  /-- A letter or a range of letters. -/
  | member (m : SetMember)
  /-- A meta character with its own characters. -/
  | metaChar (m : MetaChar)
deriving DecidableEq, Repr

/-- Whether `c` is among the characters of the item. -/
def SetItem.includes : SetItem → Char → Bool
  | .member m, c => m.includes c
  | .metaChar m, c => m.includes c

/-- A bracketed set of characters. -/
structure CharSet where
  /-- The items between the brackets, in order. -/
  items : List SetItem
  /-- Whether the set stands for the complement of its items. -/
  negative : Bool
deriving DecidableEq, Repr

/-- Whether `c` belongs to the set: it is in one of the items, unless the
set is negative. -/
def CharSet.includes (s : CharSet) (c : Char) : Bool :=
  s.items.any (·.includes c) != s.negative

/-- Anything that consumes exactly one character. -/
inductive Symbol where
  /-- A single letter. -/
  | letter (a : Letter)
  /-- A meta character. -/
  | metaChar (m : MetaChar)
  /-- A bracketed set. -/
  | set (s : CharSet)
deriving DecidableEq, Repr

namespace Symbol

/-- Whether the symbol consumes `c`. -/
def includes : Symbol → Char → Bool
  | letter a, c => a.includes c
  | metaChar m, c => m.includes c
  | set s, c => s.includes c

@[simp] theorem includes_letter (a : Letter) (c : Char) :
    (letter a).includes c = a.includes c := rfl

@[simp] theorem includes_metaChar (m : MetaChar) (c : Char) :
    (metaChar m).includes c = m.includes c := rfl

@[simp] theorem includes_set (s : CharSet) (c : Char) : (set s).includes c = s.includes c := rfl

end Symbol

/-- What a meta character stands for outside a set: a control escape for
its code point, a class escape for its set. The dot has no such form. -/
def MetaChar.expand? (m : MetaChar) : Option Symbol :=
  match m.codePoint? with
  | some p => some (.letter (.ofCodePoint p))
  | none => m.classMembers?.map fun members => .set ⟨members.map .member, m.isNegated⟩

/-- **Expansion keeps the characters**: what a meta character stands for
includes the same characters as the meta character itself. -/
theorem MetaChar.includes_of_expand?_eq_some {m : MetaChar} {s : Symbol} (h : m.expand? = some s)
    (c : Char) : s.includes c = m.includes c := by
  have any_map (members : List SetMember) :
      (members.map SetItem.member).any (·.includes c) = members.any (·.includes c) := by
    simp [List.any_map, Function.comp_def, SetItem.includes]
  cases m <;> simp only [expand?, codePoint?, classMembers?, Option.map_some, Option.map_none,
    Option.some.injEq, reduceCtorEq] at h <;> subst h <;>
    simp [includes, codePoint?, classMembers?, CharSet.includes, any_map, Letter.includes,
      Letter.ofCodePoint, isNegated, eq_comm, Bool.beq_eq_decide_eq]

end Regexp
