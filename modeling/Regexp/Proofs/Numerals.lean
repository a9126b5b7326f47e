import Mathlib.Algebra.Group.Nat.Defs
import Mathlib.Data.Nat.Digits.Defs
import Mathlib.Tactic.Ring
import Regexp.Text.Numeral

/-!
# What numerals are read

A text spells the number that its digits add up to by their places
(`Numeral.Spells`). It is read as a number just if it spells the number
(`Numeral.read_eq_ok_iff`), and then the number is less than the power of
the text's length (`Numeral.lt_of_read`). A number that small is written
with just as many digits as asked for (`Numeral.length_write`).
-/

namespace Regexp.Numeral

/-! ## Digits -/

/-- The digits of the base sixteen in the order of their values, with
letters in lower case. -/
def lowerDigits : List Char :=
  ['0', '1', '2', '3', '4', '5', '6', '7', '8', '9', 'a', 'b', 'c', 'd', 'e', 'f']

/-- The same digits with letters in upper case. -/
def upperDigits : List Char :=
  ['0', '1', '2', '3', '4', '5', '6', '7', '8', '9', 'A', 'B', 'C', 'D', 'E', 'F']

/-- **The character is a digit of the base**, and `d` is its value. -/
def IsDigit (base : Nat) (c : Char) (d : Nat) : Prop :=
  d < base ∧ (lowerDigits[d]? = some c ∨ upperDigits[d]? = some c)

/-- **The text spells the number**: one or more digits, the most
significant one first, and blanks behind them. -/
def Spells (base : Nat) (text : List Char) (n : Nat) : Prop :=
  ∃ (s : List Char) (ds : List Nat) (k : Nat), text = s ++ List.replicate k ' ' ∧ s ≠ []
    ∧ List.Forall₂ (IsDigit base) s ds ∧ Nat.ofDigits base ds.reverse = n

section Digits

variable {base d : Nat} {c : Char} {digits : List Char}

/-- A digit spells its value. -/
theorem IsDigit.spells (h : IsDigit base c d) : Spells base [c] d :=
  ⟨[c], [d], 0, rfl, List.cons_ne_nil c [], .cons h .nil, Nat.ofDigits_singleton⟩

/-- A character of a range stands in the list of digits where it stands in
the range. -/
theorem getElem?_of_range {k : Nat} {first last : Char}
    (hdigits : ∀ e ≤ last.toNat - first.toNat, digits[k + e]? = some (Char.ofNat (first.toNat + e)))
    (h : first ≤ c ∧ c ≤ last) : digits[k + (c.toNat - first.toNat)]? = some c := by
  have hfirst : first.toNat ≤ c.toNat := h.1
  have hlast : c.toNat ≤ last.toNat := h.2
  rw [hdigits _ (Nat.sub_le_sub_right hlast _), Nat.add_sub_cancel' hfirst, Char.ofNat_toNat]

/-- What stands in the list of digits is read as its place. -/
theorem digit?_of_getElem? (hdigits : ∀ e < digits.length, (digits[e]?).bind (digit? 16) = some e)
    (h : digits[d]? = some c) : digit? 16 c = some d := by
  obtain ⟨hd, -⟩ := List.getElem?_eq_some_iff.1 h
  have hvalue := hdigits d hd
  rwa [h] at hvalue

/-- **A digit is read as its value**, and nothing else is read. -/
theorem digit?_eq_some_iff : digit? base c = some d ↔ IsDigit base c d := by
  constructor
  · intro h
    obtain ⟨hvalue, hbase⟩ := Option.filter_eq_some_iff.1 h
    refine ⟨of_decide_eq_true hbase, ?_⟩
    split at hvalue
    next hc =>
      obtain rfl := Option.some.inj hvalue
      have hplace : lowerDigits[0 + (c.toNat - '0'.toNat)]? = some c :=
        getElem?_of_range (by decide) hc
      rw [Nat.zero_add] at hplace
      exact .inl hplace
    next =>
      split at hvalue
      next hc =>
        obtain rfl := Option.some.inj hvalue
        exact .inl (getElem?_of_range (by decide) hc)
      next =>
        split at hvalue
        next hc =>
          obtain rfl := Option.some.inj hvalue
          exact .inr (getElem?_of_range (by decide) hc)
        next => cases hvalue
  · rintro ⟨hbase, h⟩
    have hvalue : digit? 16 c = some d :=
      h.elim (digit?_of_getElem? (by decide)) (digit?_of_getElem? (by decide))
    exact Option.filter_eq_some_iff.2 ⟨(Option.filter_eq_some_iff.1 hvalue).1, decide_eq_true hbase⟩

/-- **Digits denote what they add up to**, behind those that denote `acc`. -/
theorem value?_eq_some_iff {s : List Char} {acc n : Nat} :
    value? base acc s = some n ↔ ∃ ds : List Nat, List.Forall₂ (IsDigit base) s ds
      ∧ acc * base ^ ds.length + Nat.ofDigits base ds.reverse = n := by
  induction s generalizing acc with
  | nil =>
    constructor
    · intro h
      obtain rfl := Option.some.inj h
      exact ⟨[], .nil, by simp⟩
    · rintro ⟨ds, h, rfl⟩
      cases h
      simp [value?]
  | cons c s ih =>
    have hplace (d : Nat) (ds : List Nat) :
        acc * base ^ (d :: ds).length + Nat.ofDigits base (d :: ds).reverse
          = (acc * base + d) * base ^ ds.length + Nat.ofDigits base ds.reverse := by
      rw [List.reverse_cons, Nat.ofDigits_append, Nat.ofDigits_singleton, List.length_reverse,
        List.length_cons]
      ring
    rw [value?, Option.bind_eq_some_iff]
    constructor
    · rintro ⟨d, hd, hvalue⟩
      obtain ⟨ds, hds, rfl⟩ := ih.1 hvalue
      exact ⟨d :: ds, .cons (digit?_eq_some_iff.1 hd) hds, hplace d ds⟩
    · rintro ⟨_, hds, rfl⟩
      cases hds with
      | @cons _ d _ ds hd hds =>
        exact ⟨d, digit?_eq_some_iff.2 hd, ih.2 ⟨ds, hds, (hplace d ds).symm⟩⟩

/-- A text spells a number just if its digits are read as it. -/
theorem spells_iff {text : List Char} {n : Nat} :
    Spells base text n ↔
      ∃ s k, text = s ++ List.replicate k ' ' ∧ s ≠ [] ∧ value? base 0 s = some n := by
  simp only [Spells, value?_eq_some_iff, Nat.zero_mul, Nat.zero_add]
  constructor
  · rintro ⟨s, ds, k, htext, hne, hds, hn⟩
    exact ⟨s, k, htext, hne, ds, hds, hn⟩
  · rintro ⟨s, k, htext, hne, ds, hds, hn⟩
    exact ⟨s, ds, k, htext, hne, hds, hn⟩

end Digits

/-! ## What is read -/

theorem trimEnd_append_replicate (s : List Char) (k : Nat) :
    trimEnd (s ++ List.replicate k ' ') = trimEnd s := by
  induction k with
  | zero => rw [List.replicate_zero, List.append_nil]
  | succ k ih => rw [List.replicate_succ', ← List.append_assoc, trimEnd_append_blank, ih]

/-- Only blanks are trimmed. -/
theorem exists_eq_trimEnd_append (s : List Char) : ∃ k, s = trimEnd s ++ List.replicate k ' ' := by
  induction s with
  | nil => exact ⟨0, rfl⟩
  | cons c s ih =>
    obtain ⟨k, hk⟩ := ih
    rw [trimEnd]
    split
    next h =>
      rw [h, List.nil_append] at hk
      split
      next hc => exact ⟨k + 1, by rw [hc, hk]; rfl⟩
      next => exact ⟨k, congrArg (c :: ·) hk⟩
    next d ds h =>
      rw [h] at hk
      exact ⟨k, congrArg (c :: ·) hk⟩

/-- Digits are not trimmed. -/
theorem trimEnd_of_value? {base acc n : Nat} {s : List Char} (h : value? base acc s = some n) :
    trimEnd s = s := by
  by_cases hs : s = []
  · rw [hs, trimEnd_nil]
  · have hlast : s.getLast hs ≠ ' ' := by
      intro hblank
      obtain ⟨d, hd⟩ := exists_digit?_of_mem h _ (List.getLast_mem hs)
      rw [hblank] at hd
      cases hd
    rw [← List.dropLast_concat_getLast hs, trimEnd_append_singleton hlast]

/-- **A numeral is read as the number that it spells**, and nothing else
is read. -/
theorem read_eq_ok_iff {base n : Nat} {text : List Char} :
    read base text = .ok n ↔ Spells base text n := by
  rw [spells_iff]
  constructor
  · intro h
    obtain ⟨k, hk⟩ := exists_eq_trimEnd_append text
    refine ⟨trimEnd text, k, hk, ?_⟩
    unfold read at h
    split at h
    next => cases h
    next hne =>
      split at h
      next hn =>
        obtain rfl := Except.ok.inj h
        exact ⟨hne, hn⟩
      next => cases h
  · rintro ⟨digits, k, rfl, hne, hvalue⟩
    unfold read
    rw [trimEnd_append_replicate, trimEnd_of_value? hvalue]
    split
    next => exact (hne rfl).elim
    next => rw [hvalue]

/-! ## How large a numeral can be -/

theorem lt_of_digit? {base d : Nat} {c : Char} (h : digit? base c = some d) : d < base := by
  unfold digit? at h
  have h := (Option.filter_eq_some_iff.1 h).2
  simpa using h

theorem lt_of_value? {base acc n : Nat} {s : List Char} (h : value? base acc s = some n) :
    n < (acc + 1) * base ^ s.length := by
  induction s generalizing acc with
  | nil =>
    cases h
    simp
  | cons c s ih =>
    obtain ⟨d, hd, h⟩ := Option.bind_eq_some_iff.1 h
    have hle : acc * base + d + 1 ≤ (acc + 1) * base := by
      have := lt_of_digit? hd
      rw [Nat.add_mul, Nat.one_mul]
      omega
    calc n < (acc * base + d + 1) * base ^ s.length := ih h
      _ ≤ (acc + 1) * base * base ^ s.length := Nat.mul_le_mul_right _ hle
      _ = (acc + 1) * base ^ (c :: s).length := by
        rw [List.length_cons, Nat.pow_succ', Nat.mul_assoc]

theorem length_trimEnd_le (s : List Char) : (trimEnd s).length ≤ s.length := by
  induction s with
  | nil => exact Nat.le_refl 0
  | cons c s ih =>
    rw [trimEnd]
    split
    next =>
      split
      · exact Nat.zero_le _
      · exact Nat.succ_le_succ (Nat.zero_le _)
    next h =>
      rw [h] at ih
      exact Nat.succ_le_succ ih

/-- **A numeral is less than the power of its length.** -/
theorem lt_of_read {base n : Nat} {text : List Char} (hb : 0 < base) (h : read base text = .ok n) :
    n < base ^ text.length := by
  unfold read at h
  split at h
  next => cases h
  next =>
    split at h
    next hn =>
      cases h
      have hlt := lt_of_value? hn
      rw [Nat.zero_add, Nat.one_mul] at hlt
      exact Nat.lt_of_lt_of_le hlt (Nat.pow_le_pow_right hb (length_trimEnd_le text))
    next => cases h

/-- **A small number is written with just as many digits as asked
for.** -/
theorem length_write {base width n : Nat} (h1 : 1 < base) (hwidth : 0 < width)
    (hn : n < base ^ width) : (write base width n).length = width := by
  have hlen := (Nat.length_toDigits_le_iff h1 hwidth).2 hn
  rw [write, List.length_append, List.length_replicate]
  exact Nat.sub_add_cancel hlen

end Regexp.Numeral
