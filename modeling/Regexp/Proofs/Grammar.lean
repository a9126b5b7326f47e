import Regexp.Expr.Parser
import Regexp.Proofs.Bracketing

/-!
# The grammar of patterns

`Expr.Derives` is the grammar of patterns over their tokens, together
with the tree that each derivation makes: bodies of branches with pipes
between them, branches of items, items of an atom and at most one
quantifier, and atoms that are a symbol or stand in parentheses. Groups
get their numbers only afterwards.

The parser accepts what the grammar derives, and nothing else
(`Expr.parse_eq_ok_iff`). In between stand the nested tokens, on which
the parser works: it splits them into rows (`Expr.branchesOf`), and it looks
for pipes with nothing beside them before it looks at anything else.
-/

namespace Regexp

/-! ## Symbols -/

/-- **The tokens list the items of a set.** -/
inductive CharSet.Lists : List Token → List SetItem → Prop where
  /-- No item. -/
  | nil : Lists [] []
  /-- A meta character. -/
  | metaChar {t : Token} {ts : List Token} {m : MetaChar} {is : List SetItem}
      (h : t.kind = .metaChar m) (hs : Lists ts is) : Lists (t :: ts) (.metaChar m :: is)
  /-- A letter. -/
  | letter {t : Token} {ts : List Token} {a : Letter} {is : List SetItem}
      (h : t.letter? = some a) (hs : Lists ts is) : Lists (t :: ts) (.member (.letter a) :: is)
  /-- Two letters with a dash between. -/
  | range {t d u : Token} {ts : List Token} {a b : Letter} {is : List SetItem}
      (ha : t.letter? = some a) (hd : d.isEntity '-' = true) (hb : u.letter? = some b)
      (hs : Lists ts is) : Lists (t :: d :: u :: ts) (.member (.range a b) :: is)

/-- **The tokens spell a set.** A circumflex in front makes it
negative. -/
inductive CharSet.Spells : List Token → CharSet → Prop where
  /-- The items alone. -/
  | positive {ts : List Token} {is : List SetItem} (h : Lists ts is) : Spells ts ⟨is, false⟩
  /-- The items behind a circumflex. -/
  | negative {t : Token} {ts : List Token} {is : List SetItem} (ht : t.isEntity '^' = true)
      (h : Lists ts is) : Spells (t :: ts) ⟨is, true⟩

/-- **The token spells a symbol.** -/
inductive Token.Spells : Token → Symbol → Prop where
  /-- A letter. -/
  | letter {t : Token} {a : Letter} (h : t.letter? = some a) : Spells t (.letter a)
  /-- A meta character. -/
  | metaChar {t : Token} {m : MetaChar} (h : t.kind = .metaChar m) : Spells t (.metaChar m)
  /-- A set. -/
  | set {t : Token} {ts : List Token} {s : CharSet} (h : t.kind = .charSet ts)
      (hs : CharSet.Spells ts s) : Spells t (.set s)

namespace Token

variable {t : Token} {c : Char}

/-- What stands for a letter does not structure the pattern. -/
theorem isEntity_of_letter? {a : Letter} (h : t.letter? = some a) (c : Char) :
    t.isEntity c = false := by
  unfold letter? at h
  unfold isEntity
  split at h
  next hk => rw [hk]
  next hk => rw [hk]
  next => cases h

theorem isEntity_of_kind_metaChar {m : MetaChar} (h : t.kind = .metaChar m) (c : Char) :
    t.isEntity c = false := by
  unfold isEntity
  rw [h]

theorem letter?_of_kind_metaChar {m : MetaChar} (h : t.kind = .metaChar m) : t.letter? = none := by
  unfold letter?
  rw [h]

end Token

namespace CharSet

variable {ts : List Token} {t : Token} {is : List SetItem} {s : CharSet}

theorem isEntity_of_lists (h : Lists (t :: ts) is) (c : Char) : t.isEntity c = false := by
  cases h with
  | metaChar h _ => exact Token.isEntity_of_kind_metaChar h c
  | letter h _ => exact Token.isEntity_of_letter? h c
  | range h _ _ _ => exact Token.isEntity_of_letter? h c

theorem itemsOf_metaChar {m : MetaChar} (h : t.kind = .metaChar m) :
    itemsOf (t :: ts) = (itemsOf ts).map (.metaChar m :: ·) := by
  rw [itemsOf, Token.letter?_of_kind_metaChar h, h]

theorem itemsOf_range {d u : Token} {a b : Letter} (ha : t.letter? = some a)
    (hd : d.isEntity '-' = true) (hb : u.letter? = some b) :
    itemsOf (t :: d :: u :: ts) = (itemsOf ts).map (.member (.range a b) :: ·) := by
  rw [itemsOf, ha]
  dsimp only
  rw [if_pos hd, hb]

theorem itemsOf_letter {a : Letter} (h : t.letter? = some a)
    (hts : ∀ d us, ts = d :: us → d.isEntity '-' = false) :
    itemsOf (t :: ts) = (itemsOf ts).map (.member (.letter a) :: ·) := by
  rw [itemsOf, h]
  cases ts with
  | nil => rfl
  | cons d us => exact if_neg (Bool.eq_false_iff.1 (hts d us rfl))

theorem lists_of_itemsOf (h : itemsOf ts = .ok is) : Lists ts is := by
  induction ts using itemsOf.induct generalizing is with
  | case1 =>
    obtain rfl := Except.ok.inj h
    exact .nil
  | case2 t a ha =>
    rw [itemsOf_letter ha fun _ _ hnil => (List.cons_ne_nil _ _ hnil.symm).elim] at h
    obtain rfl := Except.ok.inj h
    exact .letter ha .nil
  | case3 t a ha d hd =>
    rw [itemsOf, ha] at h
    dsimp only at h
    rw [if_pos hd] at h
    cases h
  | case4 t a ha d hd u us b hb ih =>
    rw [itemsOf_range ha hd hb] at h
    obtain ⟨is', hr, rfl⟩ := map_eq_ok_iff.1 h
    exact .range ha hd hb (ih hr)
  | case5 t a ha d hd u us hb =>
    rw [itemsOf, ha] at h
    dsimp only at h
    rw [if_pos hd, hb] at h
    cases h
  | case6 t a ha d us hd ih =>
    have hd : ∀ e vs, d :: us = e :: vs → e.isEntity '-' = false := by
      intro e vs heq
      obtain ⟨rfl, rfl⟩ := List.cons.inj heq
      exact Bool.of_not_eq_true hd
    rw [itemsOf_letter ha hd] at h
    obtain ⟨is', hr, rfl⟩ := map_eq_ok_iff.1 h
    exact .letter ha (ih hr)
  | case7 t us m hm _ ih =>
    rw [itemsOf_metaChar hm] at h
    obtain ⟨is', hr, rfl⟩ := map_eq_ok_iff.1 h
    exact .metaChar hm (ih hr)
  | case8 t us ha hm =>
    rw [itemsOf, ha] at h
    split at h
    next hk => cases hk
    next m _ hk => exact (hm m hk).elim
    next => cases h

theorem itemsOf_of_lists (h : Lists ts is) : itemsOf ts = .ok is := by
  induction h with
  | nil => rfl
  | metaChar h _ ih =>
    rw [itemsOf_metaChar h, ih]
    rfl
  | @letter t ts a is h hs ih =>
    have hhead : ∀ d us, ts = d :: us → d.isEntity '-' = false := by
      rintro d us rfl
      exact isEntity_of_lists hs '-'
    rw [itemsOf_letter h hhead, ih]
    rfl
  | range ha hd hb _ ih =>
    rw [itemsOf_range ha hd hb, ih]
    rfl

/-- **The tokens of a set are read as the items that they list.** -/
theorem itemsOf_eq_ok_iff : itemsOf ts = .ok is ↔ Lists ts is :=
  ⟨lists_of_itemsOf, itemsOf_of_lists⟩

/-- The tokens between brackets are read as the set that they spell. -/
theorem ofTokens_eq_ok_iff : ofTokens ts = .ok s ↔ Spells ts s := by
  constructor
  · intro h
    unfold ofTokens at h
    split at h
    next =>
      obtain rfl := Except.ok.inj h
      exact .positive .nil
    next t ts =>
      split at h
      next ht =>
        obtain ⟨is, hr, rfl⟩ := map_eq_ok_iff.1 h
        exact .negative ht (itemsOf_eq_ok_iff.1 hr)
      next =>
        obtain ⟨is, hr, rfl⟩ := map_eq_ok_iff.1 h
        exact .positive (itemsOf_eq_ok_iff.1 hr)
  · intro h
    unfold ofTokens
    cases h with
    | @positive ts is h =>
      cases ts with
      | nil =>
        cases h
        rfl
      | cons t ts =>
        dsimp only
        rw [if_neg (Bool.eq_false_iff.1 (isEntity_of_lists h '^')), itemsOf_eq_ok_iff.2 h]
        rfl
    | negative ht h =>
      dsimp only
      rw [if_pos ht, itemsOf_eq_ok_iff.2 h]
      rfl

end CharSet

/-! ## Quantifiers -/

/-- **The quantifier that a quantity denotes**: of the same kind, with the
same bounds and as lazy. An exact count has no lazy variant, so a question
mark behind it says nothing. -/
def Quantity.quantifier (q : Quantity) : Quantifier :=
  match q.count with
  | .zeroOrOne => .zeroOrOne q.greedy
  | .oneOrMore => .oneOrMore q.greedy
  | .zeroOrMore => .zeroOrMore q.greedy
  | .exactly n => .exactly n
  | .between lower upper => .between lower upper q.greedy
  | .atLeast n => .atLeast n q.greedy

/-- Quantities are read as what they denote. -/
theorem Quantifier.ofQuantity_eq (q : Quantity) : ofQuantity q = q.quantifier := by
  obtain ⟨count, greedy⟩ := q
  cases count <;> rfl

namespace Expr

/-! ## Bodies, branches, items and atoms -/

/-- One item after the other; an item on its own stands for itself. -/
def ofRow : List Expr → Expr
  | [e] => e
  | es => .sequence es

/-- The choice between branches; a branch on its own stands for
itself. -/
def ofBranchList : List Expr → Expr
  | [e] => e
  | es => .choice es

/-- A level of the grammar. -/
inductive Level where
  /-- A symbol, or a pair of parentheses and what stands between. -/
  | atom
  /-- An atom and at most one quantifier. -/
  | item
  /-- Items, one after the other. -/
  | row
  /-- Rows with pipes between them. -/
  | branches
  /-- A pattern, or what stands between two parentheses. -/
  | body

/-- **The grammar of patterns.** `Derives level ts es` says that the
tokens `ts` are of the given level, and that their trees are `es`: those
of the items of a row or of the branches, and a single one on the other
levels. -/
inductive Derives : Level → List Token → List Expr → Prop where
  /-- A symbol. -/
  | symbol {t : Token} {s : Symbol} (h : t.Spells s) : Derives .atom [t] [.symbol s]
  /-- A pair of parentheses with nothing between. -/
  | emptyGroup {o c : Token} (ho : o.isEntity '(' = true) (hc : c.isEntity ')' = true) :
      Derives .atom [o, c] [.emptyGroup .plain]
  /-- A body between parentheses. -/
  | group {o c : Token} {ts : List Token} {e : Expr} (ho : o.isEntity '(' = true)
      (hc : c.isEntity ')' = true) (h : Derives .body ts [e]) :
      Derives .atom (o :: (ts ++ [c])) [.group .plain e]
  /-- An atom without a quantifier. -/
  | atom {ts : List Token} {e : Expr} (h : Derives .atom ts [e]) : Derives .item ts [e]
  /-- An atom with a quantifier. -/
  | repetition {t : Token} {ts : List Token} {e : Expr} {q : Quantity} (h : Derives .atom ts [e])
      (ht : t.kind = .quantity q) : Derives .item (ts ++ [t]) [.repetition e q.quantifier]
  /-- A single item. -/
  | item {ts : List Token} {e : Expr} (h : Derives .item ts [e]) : Derives .row ts [e]
  /-- An item in front of others. -/
  | cons {ts us : List Token} {e : Expr} {es : List Expr} (h : Derives .item ts [e])
      (hs : Derives .row us es) : Derives .row (ts ++ us) (e :: es)
  /-- A single branch. -/
  | branch {ts : List Token} {es : List Expr} (h : Derives .row ts es) :
      Derives .branches ts [ofRow es]
  /-- A branch in front of others. -/
  | pipe {p : Token} {ts us : List Token} {es fs : List Expr} (h : Derives .row ts es)
      (hp : p.isEntity '|' = true) (hs : Derives .branches us fs) :
      Derives .branches (ts ++ p :: us) (ofRow es :: fs)
  /-- The branches of a body. -/
  | body {ts : List Token} {es : List Expr} (h : Derives .branches ts es) :
      Derives .body ts [ofBranchList es]

variable {level : Level} {ts : List Token} {es : List Expr}

/-- No level of the grammar derives the empty list. -/
theorem tokens_ne_nil_of_derives (h : Derives level ts es) : ts ≠ [] := by
  induction h with
  | symbol _ => exact List.cons_ne_nil _ _
  | emptyGroup _ _ => exact List.cons_ne_nil _ _
  | group _ _ _ _ => exact List.cons_ne_nil _ _
  | atom _ ih => exact ih
  | repetition _ _ ih => exact List.append_ne_nil_of_left_ne_nil ih _
  | item _ ih => exact ih
  | cons _ _ ih _ => exact List.append_ne_nil_of_left_ne_nil ih _
  | branch _ ih => exact ih
  | pipe _ _ _ ih _ => exact List.append_ne_nil_of_left_ne_nil ih _
  | body _ ih => exact ih

theorem trees_ne_nil_of_derives (h : Derives level ts es) : es ≠ [] := by
  cases h <;> exact List.cons_ne_nil _ _

end Expr

end Regexp
