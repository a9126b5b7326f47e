import Regexp.Expr.Render
import Regexp.Proofs.Numbering
import Regexp.Proofs.Parsing

/-!
# Canonical trees

A canonical tree has the shape of a pattern: a body is a choice of at
least two rows or a single one, a row a sequence of at least two items or
a single one, and an item an atom or a repetition of one. Its letters and
sets are such as a pattern can write, and its groups are numbered in the
order of their opening parentheses (`Expr.IsCanonical`).

The trees that the grammar derives are canonical, apart from the numbers,
if the tokens were read from a text (`Expr.canonical_of_derives`).
-/

namespace Regexp

/-! ## What a pattern can write -/

/-- The letter is one that a pattern can write: a unicode escape has four
digits or six, and denotes a code point. -/
def Letter.IsWritten : Letter → Prop
  | .literal _ => True
  | .unicode codePoint width =>
    width = 4 ∧ codePoint ≤ 0xffff ∨ width = 6 ∧ codePoint ≤ 0x10ffff

/-- The item is one that a pattern can write. Inside a set the dot is a
literal character. -/
def SetItem.IsWritten : SetItem → Prop
  | .member (.letter a) => a.IsWritten
  | .member (.range a b) => a.IsWritten ∧ b.IsWritten
  | .metaChar m => m ≠ .dot

/-- The symbol is one that a pattern can write. -/
def Symbol.IsWritten : Symbol → Prop
  | .letter a => a.IsWritten
  | .metaChar _ => True
  | .set s => ∀ i ∈ s.items, i.IsWritten

namespace Expr

/-- **The shape of a pattern**, level by level. The label of a group
holds nothing but its number. -/
inductive Canonical : Level → Expr → Prop where
  /-- A symbol is an atom. -/
  | symbol {s : Symbol} (h : s.IsWritten) : Canonical .atom (.symbol s)
  /-- A group without a body is an atom. -/
  | emptyGroup {l : GroupLabel} (hname : l.name = none) (hcapturing : l.capturing = true) :
      Canonical .atom (.emptyGroup l)
  /-- A group around a body is an atom. -/
  | group {l : GroupLabel} {e : Expr} (hname : l.name = none) (hcapturing : l.capturing = true)
      (h : Canonical .body e) : Canonical .atom (.group l e)
  /-- An item may be an atom. -/
  | atom {e : Expr} (h : Canonical .atom e) : Canonical .item e
  /-- An item may be an atom with a quantifier. -/
  | repetition {e : Expr} {q : Quantifier} (h : Canonical .atom e) :
      Canonical .item (.repetition e q)
  /-- A row may be an item. -/
  | item {e : Expr} (h : Canonical .item e) : Canonical .row e
  /-- A row may be two items or more. -/
  | sequence {es : List Expr} (hlen : 2 ≤ es.length) (h : ∀ e ∈ es, Canonical .item e) :
      Canonical .row (.sequence es)
  /-- A body may be a row. -/
  | row {e : Expr} (h : Canonical .row e) : Canonical .body e
  /-- A body may be two rows or more. -/
  | choice {es : List Expr} (hlen : 2 ≤ es.length) (h : ∀ e ∈ es, Canonical .row e) :
      Canonical .body (.choice es)

/-- **A canonical tree**: it has the shape of a pattern, and its groups
are numbered `1, 2, …` in the order of their opening parentheses. -/
structure IsCanonical (e : Expr) : Prop where
  /-- The shape. -/
  shape : Canonical .body e
  /-- The numbers. -/
  numbered : e.groupNumbers = numbersFrom 0 e.groupNumbers.length

variable {level : Level} {e : Expr} {es : List Expr}

/-! ## Numbering keeps the shape -/

theorem length_numberAllFrom (n : Nat) (es : List Expr) :
    (numberAllFrom n es).1.length = es.length := by
  induction es generalizing n with
  | nil => rfl
  | cons e es ih =>
    show (numberAllFrom (numberFrom n e).2 es).1.length + 1 = _
    rw [ih, List.length_cons]

/-- The numbered trees of a list are the trees numbered from somewhere
on. -/
theorem forall_mem_numberAllFrom {p : Expr → Prop} (h : ∀ e ∈ es, ∀ n, p (numberFrom n e).1)
    (n : Nat) : ∀ e ∈ (numberAllFrom n es).1, p e := by
  induction es generalizing n with
  | nil => exact fun _ he => nomatch he
  | cons e es ih =>
    obtain ⟨he, hes⟩ := List.forall_mem_cons.1 h
    show ∀ f ∈ (numberFrom n e).1 :: (numberAllFrom (numberFrom n e).2 es).1, p f
    exact List.forall_mem_cons.2 ⟨he n, ih hes _⟩

theorem Canonical.numberFrom (h : Canonical level e) (n : Nat) :
    Canonical level (numberFrom n e).1 := by
  induction h generalizing n with
  | symbol h => exact .symbol h
  | emptyGroup hname hcapturing => exact .emptyGroup hname hcapturing
  | group hname hcapturing _ ih => exact .group hname hcapturing (ih _)
  | atom _ ih => exact .atom (ih n)
  | repetition _ ih => exact .repetition (ih n)
  | item _ ih => exact .item (ih n)
  | @sequence es hlen _ ih =>
    refine .sequence ?_ (forall_mem_numberAllFrom ih n)
    rwa [length_numberAllFrom]
  | row _ ih => exact .row (ih n)
  | @choice es hlen _ ih =>
    refine .choice ?_ (forall_mem_numberAllFrom ih n)
    rwa [length_numberAllFrom]

/-- A tree of the right shape is canonical once it is numbered. -/
theorem Canonical.isCanonical_numberGroups (h : Canonical .body e) :
    e.numberGroups.IsCanonical := by
  refine ⟨h.numberFrom 0, ?_⟩
  rw [groupNumbers_numberGroups, length_numbersFrom]

end Expr

/-! ## What the grammar derives -/

/-- **The token was read from a text**, as far as a symbol that it spells
is concerned. -/
def Token.IsWritten (t : Token) : Prop :=
  ∀ s, t.Spells s → s.IsWritten

namespace Expr

variable {level : Level} {e : Expr} {es : List Expr} {ts : List Token}

/-- The level of the trees that a level lists. -/
def Level.part : Level → Level
  | .row => .item
  | .branches => .row
  | level => level

theorem canonical_ofRow (hne : es ≠ []) (h : ∀ e ∈ es, Canonical .item e) :
    Canonical .row (ofRow es) := by
  match es, hne with
  | [e], _ => exact .item (h e List.mem_cons_self)
  | _ :: _ :: _, _ => exact .sequence (Nat.le_add_left 2 _) h

theorem canonical_ofBranchList (hne : es ≠ []) (h : ∀ e ∈ es, Canonical .row e) :
    Canonical .body (ofBranchList es) := by
  match es, hne with
  | [e], _ => exact .row (h e List.mem_cons_self)
  | _ :: _ :: _, _ => exact .choice (Nat.le_add_left 2 _) h

/-- **What the grammar derives from tokens of a text has the shape of a
pattern.** -/
theorem canonical_of_derives (h : Derives level ts es) (hts : ∀ t ∈ ts, t.IsWritten) :
    ∀ e ∈ es, Canonical level.part e := by
  induction h with
  | symbol h =>
    rw [List.forall_mem_singleton] at hts ⊢
    exact .symbol (hts _ h)
  | emptyGroup _ _ => exact List.forall_mem_singleton.2 (.emptyGroup rfl rfl)
  | group _ _ _ ih =>
    have hbody := ih fun t ht => hts t (List.mem_cons_of_mem _ (List.mem_append_left _ ht))
    exact List.forall_mem_singleton.2 (.group rfl rfl (List.forall_mem_singleton.1 hbody))
  | atom _ ih => exact List.forall_mem_singleton.2 (.atom (List.forall_mem_singleton.1 (ih hts)))
  | repetition _ _ ih =>
    have hatom := ih fun t ht => hts t (List.mem_append_left _ ht)
    exact List.forall_mem_singleton.2 (.repetition (List.forall_mem_singleton.1 hatom))
  | item _ ih => exact ih hts
  | cons _ _ ih ihs =>
    rw [List.forall_mem_append] at hts
    exact List.forall_mem_cons.2 ⟨List.forall_mem_singleton.1 (ih hts.1), ihs hts.2⟩
  | branch h ih =>
    exact List.forall_mem_singleton.2 (canonical_ofRow (trees_ne_nil_of_derives h) (ih hts))
  | pipe h _ _ ih ihs =>
    rw [List.forall_mem_append, List.forall_mem_cons] at hts
    exact List.forall_mem_cons.2
      ⟨canonical_ofRow (trees_ne_nil_of_derives h) (ih hts.1), ihs hts.2.2⟩
  | body h ih =>
    exact List.forall_mem_singleton.2 (canonical_ofBranchList (trees_ne_nil_of_derives h) (ih hts))

/-- **What is parsed from tokens of a text is canonical.** -/
theorem isCanonical_of_parse (hflat : Token.Flat ts) (hts : ∀ t ∈ ts, t.IsWritten)
    (h : parse ts = .ok (some e)) : e.IsCanonical := by
  obtain ⟨-, hnone⟩ | ⟨f, hf, hderives⟩ := (parse_eq_ok_iff hflat).1 h
  · cases hnone
  · obtain rfl := Option.some.inj hf
    have hshape := List.forall_mem_singleton.1 (canonical_of_derives hderives hts)
    exact Canonical.isCanonical_numberGroups hshape

end Expr

end Regexp
