import Regexp.Expr.Normal
import Regexp.Proofs.NormalAutomaton

/-!
# Normal trees are the fixed points

Normalizing a tree rewrites its symbols and quantifiers and leaves the
rest as it is: the result has the nodes of the tree, each group with its
label and each look-around with its kind (`Expr.Resembles`). Nothing is
left in it that would be rewritten once more, since the members of classes
are letters and ranges of letters, and whatever stands below a node is
rewritten with it (`Expr.isNormal_of_normalize`).

So the trees that normalizing leaves alone are the normal ones, and
normalizing twice is normalizing once (`Expr.fixedPoints_of_normalize`).
-/

namespace Regexp

/-! ## What is left of a symbol -/

section Symbols

variable {m : MetaChar} {i : SetItem} {is js : List SetItem} {s t : Symbol}

/-- Members of a class are no meta characters. -/
theorem SetItem.isNormal_of_mem_map {members : List SetMember} :
    ∀ j ∈ members.map SetItem.member, j.IsNormal := by
  intro j hj
  obtain ⟨member, -, rfl⟩ := List.mem_map.1 hj
  trivial

/-- **What a meta character stands for holds none.** -/
theorem MetaChar.isNormal_of_expand? (h : m.expand? = some s) : s.IsNormal := by
  unfold expand? at h
  split at h
  next =>
    obtain rfl := Option.some.inj h
    trivial
  next =>
    obtain ⟨members, -, rfl⟩ := Option.map_eq_some_iff.1 h
    exact SetItem.isNormal_of_mem_map

/-- What takes the place of an item is no meta character, however many
items that are. -/
theorem SetItem.isNormal_of_normalize (h : i.normalize = .ok js) : ∀ j ∈ js, j.IsNormal := by
  cases i with
  | member member =>
    obtain rfl := Except.ok.inj h
    exact List.forall_mem_singleton.2 trivial
  | metaChar m =>
    rw [normalize] at h
    split at h
    next =>
      split at h
      next => cases h
      next =>
        split at h
        next =>
          obtain rfl := Except.ok.inj h
          exact isNormal_of_mem_map
        next =>
          obtain rfl := Except.ok.inj h
          exact List.forall_mem_singleton.2 trivial
        next => cases h
    next => cases h

theorem CharSet.isNormal_of_normalizeItems (h : normalizeItems is = .ok js) :
    ∀ j ∈ js, j.IsNormal := by
  induction is generalizing js with
  | nil =>
    obtain rfl := Except.ok.inj h
    exact nofun
  | cons i is ih =>
    rw [normalizeItems] at h
    split at h
    next => cases h
    next ks hks =>
      obtain ⟨ls, hls, rfl⟩ := map_eq_ok_iff.1 h
      exact List.forall_mem_append.2 ⟨SetItem.isNormal_of_normalize hks, ih hls⟩

/-- **A normalized symbol is normal.** -/
theorem Symbol.isNormal_of_normalize (h : s.normalize = .ok t) : t.IsNormal := by
  cases s with
  | letter a =>
    obtain rfl := Except.ok.inj h
    trivial
  | metaChar m =>
    rw [normalize, MetaChar.normalize] at h
    split at h
    next s _ hexpand =>
      obtain rfl := Except.ok.inj h
      exact MetaChar.isNormal_of_expand? hexpand
    next => cases h
  | set s =>
    obtain ⟨s', hs', rfl⟩ := map_eq_ok_iff.1 h
    obtain ⟨js, hjs, rfl⟩ := map_eq_ok_iff.1 hs'
    exact CharSet.isNormal_of_normalizeItems hjs

theorem CharSet.normalizeItems_of_isNormal (h : ∀ i ∈ is, i.IsNormal) :
    normalizeItems is = .ok is := by
  induction is with
  | nil => rfl
  | cons i is ih =>
    obtain ⟨hi, his⟩ := List.forall_mem_cons.1 h
    cases i with
    | member member =>
      rw [normalizeItems, ih his]
      rfl
    | metaChar m => exact hi.elim

/-- A normal symbol is left alone. -/
theorem Symbol.normalize_of_isNormal (h : s.IsNormal) : s.normalize = .ok s := by
  cases s with
  | letter a => rfl
  | metaChar m => exact h.elim
  | set s =>
    rw [normalize, CharSet.normalize, CharSet.normalizeItems_of_isNormal h]
    rfl

end Symbols

/-! ## The shape of a tree -/

/-- **The quantifier is the same**, or equal bounds have become an exact
count. -/
inductive Quantifier.Collapses : Quantifier → Quantifier → Prop where
  /-- The same quantifier. -/
  | refl {q : Quantifier} : Collapses q q
  /-- Equal bounds. -/
  | bounds {n : UInt32} {greedy : Bool} : Collapses (between n n greedy) (exactly n)

theorem Quantifier.collapses_normalize (q : Quantifier) : q.Collapses q.normalize := by
  cases q with
  | between lower upper greedy =>
    by_cases h : lower = upper
    · subst h
      rw [normalize, if_pos rfl]
      exact .bounds
    · rw [normalize, if_neg h]
      exact .refl
  | _ => exact .refl

namespace Expr

/-- **The second tree has the shape of the first**: the same nodes, groups
with the same labels and look-arounds of the same kind. Only equal bounds
may have become an exact count, and a symbol may be written in another way
that includes the same characters. -/
inductive Resembles : Expr → Expr → Prop where
  /-- Symbols that include the same characters. -/
  | symbol {s t : Symbol} (h : ∀ c, t.includes c = s.includes c) :
      Resembles (.symbol s) (.symbol t)
  /-- Sequences of as many items, which resemble each other in order. -/
  | sequence {es ns : List Expr} (h : List.Forall₂ Resembles es ns) :
      Resembles (.sequence es) (.sequence ns)
  /-- Choices between as many branches, which resemble each other in
  order. -/
  | choice {es ns : List Expr} (h : List.Forall₂ Resembles es ns) :
      Resembles (.choice es) (.choice ns)
  /-- Groups without a body, of the same label. -/
  | emptyGroup {l : GroupLabel} : Resembles (.emptyGroup l) (.emptyGroup l)
  /-- Groups of the same label. -/
  | group {l : GroupLabel} {e n : Expr} (h : Resembles e n) : Resembles (.group l e) (.group l n)
  /-- Repetitions, as often. -/
  | repetition {e n : Expr} {q r : Quantifier} (h : Resembles e n) (hq : q.Collapses r) :
      Resembles (.repetition e q) (.repetition n r)
  /-- Look-arounds of the same kind. -/
  | lookAround {d : Direction} {negative : Bool} {e n : Expr} (h : Resembles e n) :
      Resembles (.lookAround d negative e) (.lookAround d negative n)

variable {e n : Expr} {es ns : List Expr}

/-- **A normal form has the shape of its tree.** -/
theorem resembles_of_normalize (h : e.normalize = .ok n) : e.Resembles n := by
  induction e generalizing n with
  | symbol s =>
    obtain ⟨t, ht, rfl⟩ := map_eq_ok_iff.1 h
    exact .symbol fun c => Symbol.includes_of_normalize c ht
  | sequence es ih =>
    obtain ⟨ns, hns, rfl⟩ := map_eq_ok_iff.1 h
    exact .sequence (forall₂_of_mem ih hns)
  | choice es ih =>
    obtain ⟨ns, hns, rfl⟩ := map_eq_ok_iff.1 h
    exact .choice (forall₂_of_mem ih hns)
  | emptyGroup l =>
    obtain rfl := Except.ok.inj h
    exact .emptyGroup
  | group l e ih =>
    obtain ⟨m, hm, rfl⟩ := map_eq_ok_iff.1 h
    exact .group (ih hm)
  | repetition e q ih =>
    obtain ⟨m, hm, rfl⟩ := map_eq_ok_iff.1 h
    exact .repetition (ih hm) q.collapses_normalize
  | lookAround d negative e ih =>
    obtain ⟨m, hm, rfl⟩ := map_eq_ok_iff.1 h
    exact .lookAround (ih hm)

/-- What holds for the numbers of all trees of a list holds for the
list. -/
theorem groupNumbersOfAll_of_forall₂ (h : List.Forall₂ Resembles es ns)
    (ih : ∀ e ∈ es, ∀ {n}, e.Resembles n → n.groupNumbers = e.groupNumbers) :
    groupNumbersOfAll ns = groupNumbersOfAll es := by
  induction h with
  | nil => rfl
  | cons he _ ihs =>
    obtain ⟨ihe, ihes⟩ := List.forall_mem_cons.1 ih
    rw [groupNumbersOfAll, groupNumbersOfAll, ihe he, ihs ihes]

/-- **Trees of the same shape have the same numbers**, in the same
order. -/
theorem groupNumbers_of_resembles (h : e.Resembles n) : n.groupNumbers = e.groupNumbers := by
  -- by induction on the tree, since the relation holds lists of itself
  induction e generalizing n with
  | symbol s =>
    cases h
    rfl
  | sequence es ih =>
    cases h with
    | sequence h => exact groupNumbersOfAll_of_forall₂ h fun e he _ => ih e he
  | choice es ih =>
    cases h with
    | choice h => exact groupNumbersOfAll_of_forall₂ h fun e he _ => ih e he
  | emptyGroup l =>
    cases h
    rfl
  | group l e ih =>
    cases h with
    | group h => exact congrArg (l.number :: ·) (ih h)
  | repetition e q ih =>
    cases h with
    | @repetition _ m _ _ h _ =>
      show m.groupNumbers = e.groupNumbers
      exact ih h
  | lookAround d negative e ih =>
    cases h with
    | @lookAround _ _ _ m h =>
      show m.groupNumbers = e.groupNumbers
      exact ih h

/-! ## Fixed points -/

/-- What holds for all trees of a list holds for the list. -/
theorem allNormal_of_normalizeAll
    (ih : ∀ e ∈ es, ∀ {n}, e.normalize = .ok n → n.IsNormal) (h : normalizeAll es = .ok ns) :
    AllNormal ns := by
  refine allNormal_iff.2 fun n hn => ?_
  obtain ⟨e, he, hen⟩ := exists_mem_of_normalizeAll h n hn
  exact ih e he hen

/-- **A normal form is normal**, at any depth. -/
theorem isNormal_of_normalize (h : e.normalize = .ok n) : n.IsNormal := by
  induction e generalizing n with
  | symbol s =>
    obtain ⟨t, ht, rfl⟩ := map_eq_ok_iff.1 h
    exact Symbol.isNormal_of_normalize ht
  | sequence es ih =>
    obtain ⟨ns, hns, rfl⟩ := map_eq_ok_iff.1 h
    exact allNormal_of_normalizeAll ih hns
  | choice es ih =>
    obtain ⟨ns, hns, rfl⟩ := map_eq_ok_iff.1 h
    exact allNormal_of_normalizeAll ih hns
  | emptyGroup l =>
    obtain rfl := Except.ok.inj h
    trivial
  | group l e ih =>
    obtain ⟨m, hm, rfl⟩ := map_eq_ok_iff.1 h
    show m.IsNormal
    exact ih hm
  | repetition e q ih =>
    obtain ⟨m, hm, rfl⟩ := map_eq_ok_iff.1 h
    exact ⟨ih hm, q.isNormal_normalize⟩
  | lookAround d negative e ih =>
    obtain ⟨m, hm, rfl⟩ := map_eq_ok_iff.1 h
    show m.IsNormal
    exact ih hm

theorem normalizeAll_of_allNormal (ih : ∀ e ∈ es, e.IsNormal → e.normalize = .ok e)
    (h : AllNormal es) : normalizeAll es = .ok es := by
  induction es with
  | nil => rfl
  | cons e es ihs =>
    obtain ⟨ihe, ihes⟩ := List.forall_mem_cons.1 ih
    exact normalizeAll_cons_eq_ok_iff.2 ⟨e, es, ihe h.1, ihs ihes h.2, rfl⟩

/-- **A normal tree is left alone.** -/
theorem normalize_of_isNormal (h : e.IsNormal) : e.normalize = .ok e := by
  induction e with
  | symbol s => exact map_eq_ok_iff.2 ⟨s, Symbol.normalize_of_isNormal h, rfl⟩
  | sequence es ih => exact map_eq_ok_iff.2 ⟨es, normalizeAll_of_allNormal ih h, rfl⟩
  | choice es ih => exact map_eq_ok_iff.2 ⟨es, normalizeAll_of_allNormal ih h, rfl⟩
  | emptyGroup l => rfl
  | group l e ih => exact map_eq_ok_iff.2 ⟨e, ih h, rfl⟩
  | repetition e q ih =>
    refine map_eq_ok_iff.2 ⟨e, ih h.1, ?_⟩
    rw [Quantifier.normalize_eq_self_iff.2 h.2]
  | lookAround d negative e ih => exact map_eq_ok_iff.2 ⟨e, ih h, rfl⟩

/-- **The normal trees are the fixed points of normalizing.** What a tree
is normalized to is normal, has the shape of the tree, and stays as it is
when it is normalized again. -/
theorem fixedPoints_of_normalize (e : Expr) :
    (∀ n, e.normalize = .ok n → n.IsNormal ∧ e.Resembles n ∧ n.normalize = .ok n)
      ∧ (e.normalize = .ok e ↔ e.IsNormal) := by
  refine ⟨fun n h => ?_, isNormal_of_normalize, normalize_of_isNormal⟩
  have hnormal := isNormal_of_normalize h
  exact ⟨hnormal, resembles_of_normalize h, normalize_of_isNormal hnormal⟩

/-- A negative look-behind and in it a named group around
`\n{2,2}?[^\d-]`: the bounds become one, the class is spliced into the
set, and the rest stays as it is. -/
theorem fixedPoints_of_normalize_lookAround :
    let label : GroupLabel := ⟨some 4, some "digits", false⟩
    let e := lookAround .behind true (.group label (.sequence
      [.repetition (.symbol (.metaChar .lineFeed)) (.between 2 2 false),
        .symbol (.set ⟨[.metaChar .digit, .member (.letter (.literal '-'))], true⟩)]))
    let n := lookAround .behind true (.group label (.sequence
      [.repetition (.symbol (.letter (.unicode 10 0))) (.exactly 2),
        .symbol (.set ⟨[.member (.range (.literal '0') (.literal '9')),
          .member (.letter (.literal '-'))], true⟩)]))
    e.normalize = .ok n ∧ n.IsNormal ∧ e.Resembles n ∧ n.normalize = .ok n ∧ ¬ e.IsNormal := by
  intro label e n
  have hn : e.normalize = .ok n := rfl
  obtain ⟨hforms, hfixed⟩ := fixedPoints_of_normalize e
  obtain ⟨hnormal, hshape, hagain⟩ := hforms n hn
  refine ⟨hn, hnormal, hshape, hagain, fun he => ?_⟩
  have hsame : e = n := Except.ok.inj ((hfixed.2 he).symm.trans hn)
  exact absurd hsame (by decide)

end Expr

end Regexp
