/-!
# Numerals

A written numeral is one or more digits of a base up to sixteen, upper or
lower case, and may be padded with blanks on the right. `Numeral.read`
tells apart the two ways in which a text fails to be one: it holds
nothing but blanks, or it holds something that is no digit.

`Numeral.write` goes the other way, in lower case and padded with zeros
on the left. What it writes reads back (`Numeral.read_write`).
-/

namespace Regexp.Numeral

/-- Why a text is no numeral. -/
inductive Fault where
  /-- It holds nothing but blanks. -/
  | blank
  /-- Some character in front of the padding is no digit. -/
  | notDigit
deriving DecidableEq, Repr

/-- The value of a digit of the given base, which is at most sixteen. -/
def digit? (base : Nat) (c : Char) : Option Nat :=
  let value? :=
    if '0' ≤ c ∧ c ≤ '9' then some (c.toNat - '0'.toNat)
    else if 'a' ≤ c ∧ c ≤ 'f' then some (10 + (c.toNat - 'a'.toNat))
    else if 'A' ≤ c ∧ c ≤ 'F' then some (10 + (c.toNat - 'A'.toNat))
    else none
  value?.filter (· < base)

/-- The text without the blanks at its end. -/
def trimEnd : List Char → List Char
  | [] => []
  | c :: cs =>
    match trimEnd cs with
    | [] => if c = ' ' then [] else [c]
    | d :: ds => c :: d :: ds

/-- The number that a text of digits denotes, continuing from the digits
read so far, which denote `acc`. -/
def value? (base acc : Nat) : List Char → Option Nat
  | [] => some acc
  | c :: cs => (digit? base c).bind fun d => value? base (acc * base + d) cs

/-- The number that a numeral denotes. -/
def read (base : Nat) (text : List Char) : Except Fault Nat :=
  match trimEnd text with
  | [] => .error .blank
  | digits =>
    match value? base 0 digits with
    | some n => .ok n
    | none => .error .notDigit

/-- The lower-case digits of `n`, with zeros in front up to `width`
digits. -/
def write (base width n : Nat) : List Char :=
  let digits := Nat.toDigits base n
  List.replicate (width - digits.length) '0' ++ digits

@[simp] theorem trimEnd_nil : trimEnd [] = [] := rfl

/-- Blanks at the end do not count. -/
theorem trimEnd_append_blank (s : List Char) : trimEnd (s ++ [' ']) = trimEnd s := by
  induction s with
  | nil => rfl
  | cons c s ih => simp [trimEnd, ih]

/-! ## Reading what was written -/

/-- The digits of a base denote their values. -/
theorem digit?_digitChar {base d : Nat} (hb : base ≤ 16) (hd : d < base) :
    digit? base d.digitChar = some d := by
  have values : ∀ d < 16, ((digit? 16 d.digitChar).filter (· < 16)) = some d := by decide
  have h := values d (by omega)
  rw [digit?, Option.filter_filter] at h
  rw [digit?, Option.filter_eq_some_iff]
  rw [Option.filter_eq_some_iff] at h
  exact ⟨h.1, by simpa using hd⟩

/-- Digits are read one part after the other. -/
theorem value?_append (base acc : Nat) (s t : List Char) :
    value? base acc (s ++ t) = (value? base acc s).bind (value? base · t) := by
  induction s generalizing acc with
  | nil => rfl
  | cons c s ih => cases h : digit? base c <;> simp [value?, h, ih]

/-- **The digits of a number denote it**. -/
theorem value?_toDigits {base : Nat} (h1 : 1 < base) (hb : base ≤ 16) (n : Nat) :
    value? base 0 (Nat.toDigits base n) = some n := by
  induction n using Nat.strongRecOn with
  | ind n ih =>
    by_cases hn : n < base
    · simp [Nat.toDigits_of_lt_base hn, value?, digit?_digitChar hb hn]
    · have hd : n % base < base := Nat.mod_lt n (by omega)
      have hlt : n / base < n := Nat.div_lt_self (by omega) h1
      rw [Nat.toDigits_of_base_le h1 (by omega), value?_append, ih _ hlt]
      simp [value?, digit?_digitChar hb hd, Nat.div_add_mod']

/-- Zeros in front do not count. -/
theorem value?_replicate_zero {base : Nat} (h1 : 1 < base) (hb : base ≤ 16) (k : Nat) :
    value? base 0 (List.replicate k '0') = some 0 := by
  have zero : digit? base '0' = some 0 := digit?_digitChar hb (Nat.lt_of_succ_lt h1)
  induction k with
  | zero => rfl
  | succ k ih => simpa [List.replicate_succ, value?, zero] using ih

/-- A text that ends in something else than a blank is not trimmed. -/
theorem trimEnd_append_singleton {c : Char} (hc : c ≠ ' ') (s : List Char) :
    trimEnd (s ++ [c]) = s ++ [c] := by
  induction s with
  | nil => simp [trimEnd, hc]
  | cons d s ih =>
    rw [List.cons_append, trimEnd, ih]
    cases s <;> rfl

/-- The digits of a number end in something else than a blank. -/
theorem exists_toDigits_eq_append {base : Nat} (h1 : 1 < base) (hb : base ≤ 16) (n : Nat) :
    ∃ s c, c ≠ ' ' ∧ Nat.toDigits base n = s ++ [c] := by
  have ne_blank : ∀ d < 16, d.digitChar ≠ ' ' := by decide
  by_cases hn : n < base
  · exact ⟨[], _, ne_blank n (Nat.lt_of_lt_of_le hn hb), Nat.toDigits_of_lt_base hn⟩
  · have hd : n % base < base := Nat.mod_lt n (Nat.zero_lt_of_lt h1)
    exact ⟨_, _, ne_blank _ (Nat.lt_of_lt_of_le hd hb),
      Nat.toDigits_of_base_le h1 (Nat.le_of_not_lt hn)⟩

theorem value?_write {base : Nat} (h1 : 1 < base) (hb : base ≤ 16) (width n : Nat) :
    value? base 0 (write base width n) = some n := by
  rw [write, value?_append, value?_replicate_zero h1 hb, Option.bind_some, value?_toDigits h1 hb]

/-- **A written numeral reads back** as the number that was written. -/
theorem read_write {base : Nat} (h1 : 1 < base) (hb : base ≤ 16) (width n : Nat) :
    read base (write base width n) = .ok n := by
  obtain ⟨s, c, hc, hs⟩ := exists_toDigits_eq_append h1 hb n
  have htrim : trimEnd (write base width n) = write base width n := by
    rw [write, hs, ← List.append_assoc, trimEnd_append_singleton hc]
  have hne : write base width n ≠ [] := by simp [write, hs]
  unfold read
  rw [htrim]
  split
  next h => exact absurd h hne
  next => rw [value?_write h1 hb]

/-- Digits of the base alone make up a written numeral. -/
theorem exists_digit?_of_mem {base acc n : Nat} {s : List Char} (h : value? base acc s = some n) :
    ∀ c ∈ s, ∃ d, digit? base c = some d := by
  induction s generalizing acc with
  | nil => exact fun _ hc => nomatch hc
  | cons c s ih =>
    obtain ⟨d, hd, h⟩ := Option.bind_eq_some_iff.1 h
    exact List.forall_mem_cons.2 ⟨⟨d, hd⟩, ih h⟩

example : (read 16 "00eE  ".toList).toOption = some 238 := by decide

example : write 16 4 238 = "00ee".toList := by decide

end Regexp.Numeral
