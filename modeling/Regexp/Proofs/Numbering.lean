import Regexp.Expr.Numbering

/-!
# The numbers of groups

`Expr.groupNumbers` lists the numbers of the groups of a tree in the
order of their opening parentheses, and `Expr.unnumber` takes them away.
Numbering makes them consecutive (`Expr.groupNumbers_numberGroups`) and
changes nothing else (`Expr.unnumber_numberGroups`). A tree whose numbers
are consecutive is what numbering makes of it once they have been taken
away (`Expr.numberFrom_unnumber`).
-/

namespace Regexp.Expr

mutual

/-- The numbers of the groups, each group before those inside it. -/
def groupNumbers : Expr → List (Option Nat)
  | symbol _ => []
  | sequence es => groupNumbersOfAll es
  | choice es => groupNumbersOfAll es
  | emptyGroup l => [l.number]
  | group l e => l.number :: e.groupNumbers
  | repetition e _ => e.groupNumbers
  | lookAround _ _ e => e.groupNumbers

/-- The numbers of the groups of all trees, from left to right. -/
def groupNumbersOfAll : List Expr → List (Option Nat)
  | [] => []
  | e :: es => e.groupNumbers ++ groupNumbersOfAll es

end

mutual

/-- The tree without the numbers of its groups. -/
def unnumber : Expr → Expr
  | symbol s => symbol s
  | sequence es => sequence (unnumberAll es)
  | choice es => choice (unnumberAll es)
  | emptyGroup l => emptyGroup { l with number := none }
  | group l e => group { l with number := none } e.unnumber
  | repetition e q => repetition e.unnumber q
  | lookAround d negative e => lookAround d negative e.unnumber

/-- The trees without the numbers of their groups. -/
def unnumberAll : List Expr → List Expr
  | [] => []
  | e :: es => e.unnumber :: unnumberAll es

end

theorem unnumberAll_eq_map (es : List Expr) : unnumberAll es = es.map unnumber := by
  induction es with
  | nil => rfl
  | cons e es ih => rw [unnumberAll, ih, List.map_cons]

/-- `k` numbers from `n + 1` on. -/
def numbersFrom (n k : Nat) : List (Option Nat) :=
  (List.range' (n + 1) k).map some

theorem numbersFrom_add (n j k : Nat) :
    numbersFrom n (j + k) = numbersFrom n j ++ numbersFrom (n + j) k := by
  unfold numbersFrom
  rw [← List.map_append, Nat.add_right_comm n j 1, List.range'_append_1]

theorem numbersFrom_succ (n k : Nat) :
    numbersFrom n (k + 1) = some (n + 1) :: numbersFrom (n + 1) k := by
  unfold numbersFrom
  rw [List.range'_succ, List.map_cons]

@[simp] theorem length_numbersFrom (n k : Nat) : (numbersFrom n k).length = k := by
  unfold numbersFrom
  rw [List.length_map, List.length_range']

/-! ## Numbers once assigned -/

/-- **Numbering is without gap or repetition**: the groups of `e`, `k` of
them, get the numbers `n + 1, …, n + k` in order. -/
def NumbersAll (e : Expr) : Prop :=
  ∀ n, ∃ k, (numberFrom n e).2 = n + k ∧ (numberFrom n e).1.groupNumbers = numbersFrom n k
    ∧ e.groupNumbers.length = k

/-- What holds for all trees of a list holds for the list. -/
theorem numbers_numberAllFrom {es : List Expr} (h : ∀ e ∈ es, e.NumbersAll) (n : Nat) :
    ∃ k, (numberAllFrom n es).2 = n + k
      ∧ groupNumbersOfAll (numberAllFrom n es).1 = numbersFrom n k
      ∧ (groupNumbersOfAll es).length = k := by
  induction es generalizing n with
  | nil => exact ⟨0, rfl, rfl, rfl⟩
  | cons e es ih =>
    obtain ⟨he, hes⟩ := List.forall_mem_cons.1 h
    obtain ⟨j, hj, hjs, hlen⟩ := he n
    obtain ⟨k, hk, hks, hlens⟩ := ih hes (n + j)
    rw [numberAllFrom]
    refine ⟨j + k, ?_, ?_, ?_⟩
    · show (numberAllFrom (numberFrom n e).2 es).2 = _
      rw [hj, hk, Nat.add_assoc]
    · show (numberFrom n e).1.groupNumbers
        ++ groupNumbersOfAll (numberAllFrom (numberFrom n e).2 es).1 = _
      rw [hj, hjs, hks, numbersFrom_add]
    · rw [groupNumbersOfAll, List.length_append, hlen, hlens]

theorem numbersAll (e : Expr) : e.NumbersAll := by
  induction e with
  | symbol s => exact fun n => ⟨0, rfl, rfl, rfl⟩
  | sequence es ih => exact numbers_numberAllFrom ih
  | choice es ih => exact numbers_numberAllFrom ih
  | emptyGroup l => exact fun n => ⟨1, rfl, rfl, rfl⟩
  | group l e ih =>
    intro n
    obtain ⟨k, hk, hks, hlen⟩ := ih (n + 1)
    refine ⟨k + 1, ?_, ?_, ?_⟩
    · show (numberFrom (n + 1) e).2 = _
      rw [hk, Nat.add_assoc, Nat.add_comm 1 k]
    · show some (n + 1) :: (numberFrom (n + 1) e).1.groupNumbers = _
      rw [hks, numbersFrom_succ]
    · rw [groupNumbers, List.length_cons, hlen]
  | repetition e q ih => exact ih
  | lookAround d negative e ih => exact ih

/-- **The groups of a numbered tree have the numbers `1, 2, …` in the
order of their opening parentheses.** -/
theorem groupNumbers_numberGroups (e : Expr) :
    e.numberGroups.groupNumbers = numbersFrom 0 e.groupNumbers.length := by
  obtain ⟨k, -, hks, rfl⟩ := e.numbersAll 0
  exact hks

/-! ## Numbers taken away and assigned again -/

theorem unnumberAll_numberAllFrom {es : List Expr}
    (h : ∀ e ∈ es, ∀ n, (numberFrom n e).1.unnumber = e.unnumber) (n : Nat) :
    unnumberAll (numberAllFrom n es).1 = unnumberAll es := by
  induction es generalizing n with
  | nil => rfl
  | cons e es ih =>
    obtain ⟨he, hes⟩ := List.forall_mem_cons.1 h
    show (numberFrom n e).1.unnumber :: unnumberAll (numberAllFrom (numberFrom n e).2 es).1 = _
    rw [he, ih hes, unnumberAll]

/-- **Numbering changes numbers only.** -/
theorem unnumber_numberFrom (e : Expr) (n : Nat) : (numberFrom n e).1.unnumber = e.unnumber := by
  induction e generalizing n with
  | symbol s => rfl
  | sequence es ih =>
    exact congrArg sequence (unnumberAll_numberAllFrom (fun e he n => ih e he n) n)
  | choice es ih => exact congrArg choice (unnumberAll_numberAllFrom (fun e he n => ih e he n) n)
  | emptyGroup l => rfl
  | group l e ih => exact congrArg (group _) (ih (n + 1))
  | repetition e q ih => exact congrArg (repetition · q) (ih n)
  | lookAround d negative e ih => exact congrArg (lookAround d negative) (ih n)

theorem unnumber_numberGroups (e : Expr) : e.numberGroups.unnumber = e.unnumber :=
  unnumber_numberFrom e 0

/-- What holds for all trees of a list holds for the list. -/
theorem numberAllFrom_unnumber {es : List Expr}
    (h : ∀ e ∈ es, ∀ n k, e.groupNumbers = numbersFrom n k → numberFrom n e.unnumber = (e, n + k))
    {n k : Nat} (hk : groupNumbersOfAll es = numbersFrom n k) :
    numberAllFrom n (unnumberAll es) = (es, n + k) := by
  induction es generalizing n k with
  | nil =>
    have hlen := congrArg List.length hk
    rw [length_numbersFrom] at hlen
    obtain rfl : k = 0 := hlen.symm
    rfl
  | cons e es ih =>
    obtain ⟨he, hes⟩ := List.forall_mem_cons.1 h
    rw [groupNumbersOfAll] at hk
    have hlen := congrArg List.length hk
    rw [List.length_append, length_numbersFrom] at hlen
    obtain rfl := hlen
    -- the first tree has as many of the numbers as it has groups
    rw [numbersFrom_add] at hk
    obtain ⟨hj, hks⟩ := List.append_inj hk (length_numbersFrom _ _).symm
    rw [unnumberAll, numberAllFrom, he n _ hj]
    dsimp only
    rw [ih hes hks, Nat.add_assoc]

/-- **Consecutive numbers come back** after they have been taken away. -/
theorem numberFrom_unnumber {e : Expr} {n k : Nat} (h : e.groupNumbers = numbersFrom n k) :
    numberFrom n e.unnumber = (e, n + k) := by
  induction e generalizing n k with
  | symbol s =>
    have hlen := congrArg List.length h
    rw [length_numbersFrom] at hlen
    obtain rfl : k = 0 := hlen.symm
    rfl
  | sequence es ih =>
    rw [unnumber, numberFrom, numberAllFrom_unnumber (fun e he n k => ih e he) h]
  | choice es ih =>
    rw [unnumber, numberFrom, numberAllFrom_unnumber (fun e he n k => ih e he) h]
  | emptyGroup l =>
    have hlen := congrArg List.length h
    rw [length_numbersFrom] at hlen
    obtain rfl : k = 1 := hlen.symm
    obtain ⟨number, name, capturing⟩ := l
    obtain rfl : number = some (n + 1) := (List.cons.inj h).1
    rfl
  | group l e ih =>
    obtain ⟨number, name, capturing⟩ := l
    have hlen := congrArg List.length h
    rw [length_numbersFrom, groupNumbers, List.length_cons] at hlen
    obtain rfl := hlen
    rw [numbersFrom_succ, groupNumbers] at h
    obtain ⟨rfl, hbody⟩ := List.cons.inj h
    rw [unnumber, numberFrom, ih hbody, Nat.add_assoc, Nat.add_comm 1]
  | repetition e q ih => rw [unnumber, numberFrom, ih h]
  | lookAround d negative e ih => rw [unnumber, numberFrom, ih h]

/-- A tree whose numbers are `1, 2, …` in order is settled by what it is
without them. -/
theorem numberGroups_unnumber {e : Expr}
    (h : e.groupNumbers = numbersFrom 0 e.groupNumbers.length) : e.unnumber.numberGroups = e := by
  rw [numberGroups, numberFrom_unnumber h]

end Regexp.Expr
