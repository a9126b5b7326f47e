import Mathlib.Algebra.Order.BigOperators.Group.List
import Regexp.Expr.Language
import Regexp.Proofs.Reads

/-!
# What the automaton of a tree reads

The part of an automaton that stands for a tree has two ends, and what it
reads is said by four languages: those of the paths from its entry to its
exit, from each end back to itself, and from the exit to the entry. The
four languages of a tree follow from those of its parts
(`Expr.reading`), without any automaton.

From entry to exit a tree reads every text that it denotes
(`Expr.language_le_reading`). It can read more: a greedy `?` or `*` adds
an epsilon transition between the two ends of its body, and a path that
goes round in circles at one end may then leave through the other. So
`(a*b)?` without the group around `a*b` reads `a`. The condition for a
body to be skipped safely is `Reading.IsSkippable`. It holds for bodies
whose ends have no circles, such as symbols and groups, and for
repetitions of such bodies; for trees in which every body is of this kind
the two languages are the same (`Expr.reading_eq_language`).
-/

namespace Regexp

open Computability

/-! ## The language of a tree -/

namespace Expr

/-- The texts that the tree denotes, as a language. -/
def language (e : Expr) : Language Char :=
  {w | e.Denotes w}

theorem mem_language {e : Expr} {w : List Char} : w ∈ e.language ↔ e.Denotes w := Iff.rfl

theorem language_symbol (s : Symbol) : (symbol s).language = s.language := by
  ext w
  exact denotes_symbol

theorem language_sequence_nil : (sequence []).language = 1 := by
  ext w
  exact denotes_sequence_nil

theorem language_sequence_cons (e : Expr) (es : List Expr) :
    (sequence (e :: es)).language = e.language * (sequence es).language := by
  ext w
  rw [mem_language, denotes_sequence_cons, Language.mem_mul]
  constructor
  · rintro ⟨u, v, hu, hv, rfl⟩
    exact ⟨u, hu, v, hv, rfl⟩
  · rintro ⟨u, hu, v, hv, rfl⟩
    exact ⟨u, v, hu, hv, rfl⟩

theorem language_choice_nil : (choice []).language = 0 := by
  ext w
  rw [mem_language, denotes_choice]
  exact iff_of_false (fun ⟨e, he, _⟩ => List.not_mem_nil he) (Language.notMem_zero w)

theorem language_choice_cons (e : Expr) (es : List Expr) :
    (choice (e :: es)).language = e.language + (choice es).language := by
  ext w
  rw [mem_language, denotes_choice, Language.mem_add, mem_language, mem_language, denotes_choice,
    List.exists_mem_cons_iff]

theorem language_emptyGroup (l : GroupLabel) : (emptyGroup l).language = 1 := by
  ext w
  exact denotes_emptyGroup

theorem language_group (l : GroupLabel) (e : Expr) : (group l e).language = e.language := by
  ext w
  exact denotes_group

theorem language_lookAround (d : Direction) (negative : Bool) (e : Expr) :
    (lookAround d negative e).language = 0 := by
  ext w
  exact iff_of_false not_denotes_lookAround (Language.notMem_zero w)

end Expr

/-- The texts that fall into as many parts as a quantifier admits, each
part a text of `l`. -/
def Quantifier.power (q : Quantifier) (l : Language Char) : Language Char :=
  {w | ∃ ws : List (List Char), q.Admits ws.length ∧ (∀ v ∈ ws, v ∈ l) ∧ w = ws.flatten}

namespace Quantifier

variable {l m : Language Char} {greedy : Bool}

theorem power_mono (q : Quantifier) (h : l ≤ m) : q.power l ≤ q.power m := by
  rintro w ⟨ws, hq, hws, rfl⟩
  exact ⟨ws, hq, fun v hv => h (hws v hv), rfl⟩

theorem power_oneOrMore : (oneOrMore greedy).power l = l * l∗ := by
  ext w
  rw [Language.mem_mul]
  constructor
  · rintro ⟨ws, hq, hws, rfl⟩
    obtain ⟨v, ws, rfl⟩ := List.exists_cons_of_length_pos hq
    exact ⟨v, hws v List.mem_cons_self, ws.flatten,
      Language.join_mem_kstar fun u hu => hws u (List.mem_cons_of_mem v hu), rfl⟩
  · rintro ⟨v, hv, u, hu, rfl⟩
    obtain ⟨ws, rfl, hws⟩ := Language.mem_kstar.1 hu
    exact ⟨v :: ws, Nat.le_add_left 1 ws.length, List.forall_mem_cons.2 ⟨hv, hws⟩, rfl⟩

theorem power_zeroOrOne : (zeroOrOne greedy).power l = 1 + l := by
  ext w
  rw [Language.mem_add, Language.mem_one]
  constructor
  · rintro ⟨ws, hq, hws, rfl⟩
    match ws, hq with
    | [], _ => exact .inl rfl
    | [v], _ =>
      refine .inr ?_
      rw [List.flatten_cons, List.flatten_nil, List.append_nil]
      exact hws v List.mem_cons_self
  · rintro (rfl | hw)
    · exact ⟨[], Nat.zero_le 1, fun _ hv => absurd hv List.not_mem_nil, rfl⟩
    · exact ⟨[w], Nat.le_refl 1, fun v hv => List.mem_singleton.1 hv ▸ hw, by simp⟩

theorem power_zeroOrMore : (zeroOrMore greedy).power l = l∗ := by
  ext w
  rw [Language.mem_kstar]
  constructor
  · rintro ⟨ws, -, hws, rfl⟩
    exact ⟨ws, rfl, hws⟩
  · rintro ⟨ws, rfl, hws⟩
    exact ⟨ws, trivial, hws, rfl⟩

end Quantifier

theorem Expr.language_repetition (e : Expr) (q : Quantifier) :
    (repetition e q).language = q.power e.language := by
  ext w
  exact denotes_repetition

/-! ## What a part reads between its ends -/

/-- One of the two ends of a part of an automaton. -/
inductive Port where
  /-- Where the part is entered. -/
  | entry
  /-- Where it is left. -/
  | exit
deriving DecidableEq

/-- What a part reads: for each two of its ends the language of the paths
from one to the other. -/
abbrev Reading := Port → Port → Language Char

namespace Reading

/-- The reading with the given circles at its ends, where `through` is
read from the entry to the exit and nothing leads back. -/
def oneWay (head through tail : Language Char) : Reading
  | .entry, .entry => head
  | .entry, .exit => through
  | .exit, .exit => tail
  | .exit, .entry => 0

/-- **Fresh ends**: nothing leads into the entry or out of the exit. -/
def fresh (through : Language Char) : Reading :=
  oneWay 1 through 1

/-- One part after the other. -/
def andThen (r s : Reading) : Reading :=
  oneWay (r .entry .entry) (r .entry .exit * s .entry .exit) (s .exit .exit)

/-- **One more epsilon transition**, from the end `p` to the end `q`: a
path goes to `p`, round through the transition any number of times, and
on from `q`. -/
def join (r : Reading) (p q : Port) : Reading :=
  fun i j => r i j + r i p * (r q p)∗ * r q j

/-- The repetition of a part. A greedy one adds transitions between the
two ends; a lazy one has a new entry, a new exit, or both. Bounded
repetitions have no part, so for them the language itself is given. -/
def repeated (r : Reading) : Quantifier → Reading
  | .oneOrMore true => r.join .exit .entry
  | .oneOrMore false =>
    let s := r.join .exit .entry
    oneWay (s .entry .entry) (s .entry .exit) 1
  | .zeroOrOne true => r.join .entry .exit
  | .zeroOrOne false => oneWay 1 (r .exit .exit + r .entry .exit) (r .exit .exit)
  | .zeroOrMore true => (r.join .entry .exit).join .exit .entry
  | .zeroOrMore false => fresh (1 + r.join .exit .entry .entry .exit)
  | q => fresh (q.power (r .entry .exit))

end Reading

namespace Expr

mutual

/-- **The reading of a tree**: what the part of the automaton that stands
for it reads between its ends. A look-around has no part. -/
def reading : Expr → Reading
  | symbol s => .fresh s.language
  | sequence [] => .fresh 1
  | sequence (e :: es) => readingAfter e.reading es
  | choice es => .fresh (readingOfAny es)
  | emptyGroup _ => .fresh 1
  | group _ e => .fresh (e.reading .entry .exit)
  | repetition e q => e.reading.repeated q
  | lookAround _ _ _ => .fresh 0

/-- The reading of a part with the parts of the trees behind it. -/
def readingAfter (r : Reading) : List Expr → Reading
  | [] => r
  | e :: es => readingAfter (r.andThen e.reading) es

/-- What is read through any one of the trees. -/
def readingOfAny : List Expr → Language Char
  | [] => 0
  | e :: es => e.reading .entry .exit + readingOfAny es

end

end Expr

/-! ## A tree reads all that it denotes -/

namespace Reading

variable {r : Reading} {l : Language Char} {q : Quantifier}

/-- The empty path is among the circles at either end. -/
structure HasEmptyPaths (r : Reading) : Prop where
  /-- At the entry. -/
  entry : 1 ≤ r .entry .entry
  /-- At the exit. -/
  exit : 1 ≤ r .exit .exit

theorem hasEmptyPaths_fresh (l : Language Char) : (fresh l).HasEmptyPaths :=
  ⟨le_rfl, le_rfl⟩

theorem le_join (r : Reading) (p q i j : Port) : r i j ≤ r.join p q i j :=
  le_self_add

theorem HasEmptyPaths.join (h : r.HasEmptyPaths) (p q : Port) : (r.join p q).HasEmptyPaths :=
  ⟨h.entry.trans (r.le_join p q _ _), h.exit.trans (r.le_join p q _ _)⟩

theorem HasEmptyPaths.repeated (h : r.HasEmptyPaths) (q : Quantifier) :
    (r.repeated q).HasEmptyPaths := by
  match q with
  | .oneOrMore true => exact h.join _ _
  | .oneOrMore false => exact ⟨(h.join .exit .entry).entry, le_rfl⟩
  | .zeroOrOne true => exact h.join _ _
  | .zeroOrOne false => exact ⟨le_rfl, h.exit⟩
  | .zeroOrMore true => exact (h.join _ _).join _ _
  | .zeroOrMore false => exact hasEmptyPaths_fresh _
  | .between _ _ _ => exact hasEmptyPaths_fresh _
  | .exactly _ => exact hasEmptyPaths_fresh _
  | .atLeast _ _ => exact hasEmptyPaths_fresh _

/-- Leading back to the entry reads the part once or more often. -/
theorem join_exit_entry (r : Reading) :
    r.join .exit .entry .entry .exit = r .entry .exit * (r .entry .exit)∗ := by
  show r .entry .exit + r .entry .exit * (r .entry .exit)∗ * r .entry .exit = _
  rw [mul_assoc, ← mul_one_add, one_add_kstar_mul]

/-- **Repeating the part reads all that it should.** -/
theorem power_le_repeated (h : r.HasEmptyPaths) (q : Quantifier) :
    q.power (r .entry .exit) ≤ r.repeated q .entry .exit := by
  have hskip : 1 + r .entry .exit ≤ r.join .entry .exit .entry .exit := by
    refine add_le ?_ (r.le_join _ _ _ _)
    refine le_add_of_le_right ?_
    calc (1 : Language Char) = 1 * 1 * 1 := by rw [one_mul, one_mul]
      _ ≤ r .entry .entry * (r .exit .entry)∗ * r .exit .exit :=
          mul_le_mul' (mul_le_mul' h.entry one_le_kstar) h.exit
  match q with
  | .oneOrMore true =>
    rw [Quantifier.power_oneOrMore]
    exact r.join_exit_entry.ge
  | .oneOrMore false =>
    rw [Quantifier.power_oneOrMore]
    exact r.join_exit_entry.ge
  | .zeroOrOne true =>
    rw [Quantifier.power_zeroOrOne]
    exact hskip
  | .zeroOrOne false =>
    rw [Quantifier.power_zeroOrOne]
    exact add_le_add_left h.exit _
  | .zeroOrMore true =>
    rw [Quantifier.power_zeroOrMore]
    show _ ≤ (r.join .entry .exit).join .exit .entry .entry .exit
    rw [join_exit_entry]
    calc (r .entry .exit)∗ = 1 * (r .entry .exit)∗ := (one_mul _).symm
      _ ≤ _ := mul_le_mul' (le_self_add.trans hskip) (kstar_mono (r.le_join _ _ _ _))
  | .zeroOrMore false =>
    rw [Quantifier.power_zeroOrMore]
    show _ ≤ 1 + r.join .exit .entry .entry .exit
    rw [join_exit_entry, one_add_mul_kstar]
  | .between _ _ _ => exact le_rfl
  | .exactly _ => exact le_rfl
  | .atLeast _ _ => exact le_rfl

end Reading

namespace Expr

theorem language_sequence (es : List Expr) :
    (sequence es).language = (es.map language).prod := by
  induction es with
  | nil => exact language_sequence_nil
  | cons e es ih => rw [language_sequence_cons, List.map_cons, List.prod_cons, ih]

theorem language_choice (es : List Expr) : (choice es).language = (es.map language).sum := by
  induction es with
  | nil => exact language_choice_nil
  | cons e es ih => rw [language_choice_cons, List.map_cons, List.sum_cons, ih]

/-- What is read through any one of the trees is what one of them
reads. -/
theorem readingOfAny_eq (es : List Expr) :
    readingOfAny es = (es.map (·.reading .entry .exit)).sum := by
  induction es with
  | nil => rfl
  | cons e es ih => rw [readingOfAny, ih, List.map_cons, List.sum_cons]

/-- One tree after the other reads one text after the other. -/
theorem readingAfter_entry_exit (r : Reading) (es : List Expr) :
    readingAfter r es .entry .exit
      = r .entry .exit * (es.map (·.reading .entry .exit)).prod := by
  induction es generalizing r with
  | nil => exact (mul_one _).symm
  | cons e es ih =>
    rw [readingAfter, ih, List.map_cons, List.prod_cons, ← mul_assoc]
    rfl

theorem reading_sequence_entry_exit (es : List Expr) :
    (sequence es).reading .entry .exit = (es.map (·.reading .entry .exit)).prod := by
  cases es with
  | nil => rfl
  | cons e es => rw [reading, readingAfter_entry_exit, List.map_cons, List.prod_cons]

theorem hasEmptyPaths_readingAfter {r : Reading} {es : List Expr} (h : r.HasEmptyPaths)
    (hes : ∀ e ∈ es, e.reading.HasEmptyPaths) : (readingAfter r es).HasEmptyPaths := by
  induction es generalizing r with
  | nil => exact h
  | cons e es ih =>
    obtain ⟨he, hes⟩ := List.forall_mem_cons.1 hes
    exact ih ⟨h.entry, he.exit⟩ hes

theorem hasEmptyPaths_reading (e : Expr) : e.reading.HasEmptyPaths := by
  induction e with
  | symbol s => exact Reading.hasEmptyPaths_fresh _
  | sequence es ih =>
    cases es with
    | nil => exact Reading.hasEmptyPaths_fresh _
    | cons e es =>
      obtain ⟨he, hes⟩ := List.forall_mem_cons.1 ih
      exact hasEmptyPaths_readingAfter he hes
  | choice es _ => exact Reading.hasEmptyPaths_fresh _
  | emptyGroup l => exact Reading.hasEmptyPaths_fresh _
  | group l e _ => exact Reading.hasEmptyPaths_fresh _
  | repetition e q ih => exact ih.repeated q
  | lookAround d n e _ => exact Reading.hasEmptyPaths_fresh _

/-- **A tree reads all that it denotes.** -/
theorem language_le_reading (e : Expr) : e.language ≤ e.reading .entry .exit := by
  induction e with
  | symbol s => exact (language_symbol s).le
  | sequence es ih =>
    rw [language_sequence, reading_sequence_entry_exit]
    exact List.prod_le_prod' ih
  | choice es ih =>
    rw [language_choice]
    show _ ≤ readingOfAny es
    rw [readingOfAny_eq]
    exact List.sum_le_sum ih
  | emptyGroup l => exact (language_emptyGroup l).le
  | group l e ih => exact (language_group l e).trans_le ih
  | repetition e q ih =>
    rw [language_repetition]
    exact (q.power_mono ih).trans (Reading.power_le_repeated e.hasEmptyPaths_reading q)
  | lookAround d n e _ => exact (language_lookAround d n e).le

end Expr

/-! ## When a tree reads nothing else

Every quantifier but the greedy `?` and `*` and the lazy `??` keeps the
ends of its body apart from its own. Those three let a path in or out at
an end of the body, so what they read depends on the circles there. -/

namespace Reading

variable {r : Reading} {l : Language Char}

/-- **The part may be skipped**: going round in circles at its entry,
over to its exit by a new transition, and round in circles there reads
nothing but what it reads anyway. -/
def IsSkippable (r : Reading) : Prop :=
  r .entry .entry * (r .exit .entry)∗ * r .exit .exit ≤ 1 + r .entry .exit

/-- What a part has to satisfy for its repetition to read just what it
should. -/
def Allows (r : Reading) : Quantifier → Prop
  | .zeroOrOne true => r.IsSkippable
  | .zeroOrOne false => r .exit .exit ≤ 1 + r .entry .exit
  | .zeroOrMore true => r .entry .entry * (r .exit .entry)∗ * r .exit .exit ≤ (r .entry .exit)∗
  | _ => True

theorem one_add_le_kstar (l : Language Char) : 1 + l ≤ l∗ :=
  add_le one_le_kstar le_kstar

/-- **A repetition reads just what it should** if and only if the circles
at the ends of the body allow it. -/
theorem repeated_eq_power_iff (h : r.HasEmptyPaths) (q : Quantifier) :
    r.repeated q .entry .exit = q.power (r .entry .exit) ↔ r.Allows q := by
  rw [(power_le_repeated h q).ge_iff_eq'.symm]
  match q with
  | .oneOrMore true =>
    rw [Quantifier.power_oneOrMore]
    exact iff_of_true r.join_exit_entry.le trivial
  | .oneOrMore false =>
    rw [Quantifier.power_oneOrMore]
    exact iff_of_true r.join_exit_entry.le trivial
  | .zeroOrOne true =>
    rw [Quantifier.power_zeroOrOne]
    show r .entry .exit + _ ≤ _ ↔ _
    rw [add_le_iff]
    exact and_iff_right le_add_self
  | .zeroOrOne false =>
    rw [Quantifier.power_zeroOrOne]
    show r .exit .exit + r .entry .exit ≤ _ ↔ _
    rw [add_le_iff]
    exact and_iff_left le_add_self
  | .zeroOrMore true =>
    rw [Quantifier.power_zeroOrMore]
    show (r.join .entry .exit).join .exit .entry .entry .exit ≤ _ ↔ _
    rw [join_exit_entry]
    constructor
    · intro hle
      calc _ ≤ r.join .entry .exit .entry .exit := le_add_self
        _ = r.join .entry .exit .entry .exit * 1 := (mul_one _).symm
        _ ≤ _ := mul_le_mul_right one_le_kstar _
        _ ≤ _ := hle
    · intro hle
      have hjoin : r.join .entry .exit .entry .exit ≤ (r .entry .exit)∗ := add_le le_kstar hle
      calc _ ≤ (r .entry .exit)∗ * (r .entry .exit)∗∗ := mul_le_mul' hjoin (kstar_mono hjoin)
        _ = (r .entry .exit)∗ := by rw [kstar_idem, kstar_mul_kstar]
  | .zeroOrMore false =>
    rw [Quantifier.power_zeroOrMore]
    refine iff_of_true ?_ trivial
    show 1 + r.join .exit .entry .entry .exit ≤ _
    rw [join_exit_entry, one_add_mul_kstar]
  | .between _ _ _ => exact iff_of_true le_rfl trivial
  | .exactly _ => exact iff_of_true le_rfl trivial
  | .atLeast _ _ => exact iff_of_true le_rfl trivial

theorem IsSkippable.allows (h : r.IsSkippable) (hr : r.HasEmptyPaths) (q : Quantifier) :
    r.Allows q := by
  match q with
  | .zeroOrOne true => exact h
  | .zeroOrOne false =>
    calc r .exit .exit = 1 * 1 * r .exit .exit := by rw [one_mul, one_mul]
      _ ≤ _ := mul_le_mul_left (mul_le_mul' hr.entry one_le_kstar) _
      _ ≤ _ := h
  | .zeroOrMore true => exact h.trans (one_add_le_kstar _)
  | .oneOrMore _ => trivial
  | .zeroOrMore false => trivial
  | .between _ _ _ => trivial
  | .exactly _ => trivial
  | .atLeast _ _ => trivial

/-- A part without circles at its ends may be skipped. -/
theorem isSkippable_of_eq (hentry : r .entry .entry = 1) (hexit : r .exit .exit = 1)
    (hback : r .exit .entry = 0) : r.IsSkippable := by
  unfold IsSkippable
  rw [hentry, hexit, hback, kstar_zero, one_mul, one_mul]
  exact le_self_add

theorem isSkippable_fresh (l : Language Char) : (fresh l).IsSkippable :=
  isSkippable_of_eq rfl rfl rfl

/-- What consists of repetitions is a repetition. -/
theorem mul_le_kstar {m n : Language Char} (hm : m ≤ l∗) (hn : n ≤ l∗) : m * n ≤ l∗ :=
  (mul_le_mul' hm hn).trans_eq (kstar_mul_kstar l)

/-- A transition between the ends makes no circles that are no
repetitions, if there were none before. -/
theorem join_le_kstar (h : ∀ i j, r i j ≤ l∗) (p q i j : Port) : r.join p q i j ≤ l∗ := by
  refine add_le (h i j) (mul_le_kstar (mul_le_kstar (h i p) ?_) (h q j))
  exact (kstar_mono (h q p)).trans_eq (kstar_idem l)

/-- All that is read between the ends of a part that may be skipped
consists of repetitions of the part. -/
theorem IsSkippable.reading_le_kstar (h : r.IsSkippable) (hr : r.HasEmptyPaths) (i j : Port) :
    r i j ≤ (r .entry .exit)∗ := by
  have hcircle := h.trans (one_add_le_kstar _)
  match i, j with
  | .entry, .exit => exact le_kstar
  | .entry, .entry =>
    calc r .entry .entry = r .entry .entry * 1 * 1 := by rw [mul_one, mul_one]
      _ ≤ _ := mul_le_mul' (mul_le_mul_right one_le_kstar _) hr.exit
      _ ≤ _ := hcircle
  | .exit, .exit =>
    calc r .exit .exit = 1 * 1 * r .exit .exit := by rw [one_mul, one_mul]
      _ ≤ _ := mul_le_mul_left (mul_le_mul' hr.entry one_le_kstar) _
      _ ≤ _ := hcircle
  | .exit, .entry =>
    calc r .exit .entry ≤ (r .exit .entry)∗ := le_kstar
      _ = 1 * (r .exit .entry)∗ * 1 := by rw [one_mul, mul_one]
      _ ≤ _ := mul_le_mul' (mul_le_mul_left hr.entry _) hr.exit
      _ ≤ _ := hcircle

/-- Leading back from the exit keeps a part skippable. -/
theorem IsSkippable.join_exit_entry (h : r.IsSkippable) (hr : r.HasEmptyPaths) :
    (r.join .exit .entry).IsSkippable := by
  have hle := join_le_kstar (h.reading_le_kstar hr) .exit .entry
  unfold IsSkippable
  rw [Reading.join_exit_entry, one_add_mul_kstar]
  exact mul_le_kstar (mul_le_kstar (hle _ _) ((kstar_mono (hle _ _)).trans_eq (kstar_idem _)))
    (hle _ _)

/-- A part that is skipped may be skipped once more. -/
theorem isSkippable_join_entry_exit (r : Reading) : (r.join .entry .exit).IsSkippable := by
  refine le_add_of_le_right (le_add_of_le_right ?_)
  have hhead : r.join .entry .exit .entry .entry = r .entry .entry * (r .exit .entry)∗ := by
    show r .entry .entry + r .entry .entry * (r .exit .entry)∗ * r .exit .entry = _
    rw [mul_assoc, ← mul_one_add, one_add_kstar_mul]
  have htail : r.join .entry .exit .exit .exit = (r .exit .entry)∗ * r .exit .exit := by
    show r .exit .exit + r .exit .entry * (r .exit .entry)∗ * r .exit .exit = _
    rw [← one_add_mul, one_add_mul_kstar]
  have hback : (r.join .entry .exit .exit .entry)∗ ≤ (r .exit .entry)∗ := by
    refine (kstar_mono ?_).trans_eq (kstar_idem _)
    show r .exit .entry + r .exit .entry * (r .exit .entry)∗ * r .exit .entry ≤ _
    exact add_le le_kstar (mul_le_kstar (mul_le_kstar le_kstar le_rfl) le_kstar)
  rw [hhead, htail]
  calc r .entry .entry * (r .exit .entry)∗ * (r.join .entry .exit .exit .entry)∗
        * ((r .exit .entry)∗ * r .exit .exit)
      ≤ r .entry .entry * (r .exit .entry)∗ * (r .exit .entry)∗
        * ((r .exit .entry)∗ * r .exit .exit) := mul_le_mul_left (mul_le_mul_right hback _) _
    _ = r .entry .entry * (r .exit .entry)∗ * r .exit .exit := by
      rw [mul_assoc (r .entry .entry), kstar_mul_kstar, ← mul_assoc, mul_assoc (r .entry .entry),
        kstar_mul_kstar]

/-- **Repetitions of a part that may be skipped may be skipped.** -/
theorem IsSkippable.repeated (h : r.IsSkippable) (hr : r.HasEmptyPaths) (q : Quantifier) :
    (r.repeated q).IsSkippable := by
  match q with
  | .oneOrMore true => exact h.join_exit_entry hr
  | .oneOrMore false =>
    show _ * (0 : Language Char)∗ * 1 ≤ 1 + r.join .exit .entry .entry .exit
    rw [kstar_zero, mul_one, mul_one, Reading.join_exit_entry, one_add_mul_kstar]
    exact join_le_kstar (h.reading_le_kstar hr) _ _ _ _
  | .zeroOrOne true => exact r.isSkippable_join_entry_exit
  | .zeroOrOne false =>
    show 1 * (0 : Language Char)∗ * r .exit .exit ≤ 1 + (r .exit .exit + r .entry .exit)
    rw [kstar_zero, one_mul, one_mul]
    exact le_add_of_le_right le_self_add
  | .zeroOrMore true => exact r.isSkippable_join_entry_exit.join_exit_entry (hr.join _ _)
  | .zeroOrMore false => exact isSkippable_fresh _
  | .between _ _ _ => exact isSkippable_fresh _
  | .exactly _ => exact isSkippable_fresh _
  | .atLeast _ _ => exact isSkippable_fresh _

end Reading

namespace Expr

/-- Nothing leads into the entry of the tree. -/
def startsFresh : Expr → Bool
  | sequence (e :: _) => e.startsFresh
  | repetition _ (.oneOrMore _) => false
  | repetition _ (.zeroOrMore true) => false
  | repetition e (.zeroOrOne true) => e.startsFresh
  | _ => true

mutual

/-- Nothing leads out of the exit of the tree. -/
def endsFresh : Expr → Bool
  | sequence es => lastEndsFresh es
  | repetition _ (.oneOrMore true) => false
  | repetition _ (.zeroOrMore true) => false
  | repetition e (.zeroOrOne _) => e.endsFresh
  | _ => true

/-- Nothing leads out of the exit of the last tree. -/
def lastEndsFresh : List Expr → Bool
  | [] => true
  | [e] => e.endsFresh
  | _ :: es => lastEndsFresh es

end

/-- **The tree may be skipped**: it has fresh ends, or it repeats such a
tree. -/
def isSkippable : Expr → Bool
  | repetition e q => e.isSkippable || (repetition e q).startsFresh && (repetition e q).endsFresh
  | e => e.startsFresh && e.endsFresh

/-- The tree is a suitable body for the quantifier, as far as its shape
tells. -/
def allows (e : Expr) : Quantifier → Bool
  | .zeroOrOne true => e.isSkippable
  | .zeroOrOne false => e.endsFresh || e.isSkippable
  | .zeroOrMore true => e.isSkippable
  | _ => true

mutual

/-- **The tree is tight**: every repetition in it has a suitable body. -/
def isTight : Expr → Bool
  | symbol _ => true
  | sequence es => allTight es
  | choice es => allTight es
  | emptyGroup _ => true
  | group _ e => e.isTight
  | repetition e q => e.isTight && e.allows q
  | lookAround _ _ _ => true

/-- All of the trees are tight. -/
def allTight : List Expr → Bool
  | [] => true
  | e :: es => e.isTight && allTight es

end

theorem allTight_iff {es : List Expr} : allTight es = true ↔ ∀ e ∈ es, e.isTight = true := by
  induction es with
  | nil => simp [allTight]
  | cons e es ih => rw [allTight, Bool.and_eq_true, ih, List.forall_mem_cons]

theorem readingAfter_entry (r : Reading) (es : List Expr) :
    readingAfter r es .entry .entry = r .entry .entry := by
  induction es generalizing r with
  | nil => rfl
  | cons e es ih => exact ih _

/-- With something behind it, a part has no way back to its entry. -/
theorem readingAfter_back {r : Reading} (es : List Expr) (h : r .exit .entry = 0) :
    readingAfter r es .exit .entry = 0 := by
  induction es generalizing r with
  | nil => exact h
  | cons e es ih => exact ih rfl

theorem reading_of_startsFresh {e : Expr} (h : e.startsFresh = true) :
    e.reading .entry .entry = 1 ∧ e.reading .exit .entry = 0 := by
  induction e with
  | symbol s => exact ⟨rfl, rfl⟩
  | sequence es ih =>
    cases es with
    | nil => exact ⟨rfl, rfl⟩
    | cons e es =>
      rw [startsFresh] at h
      obtain ⟨hentry, hback⟩ := ih e List.mem_cons_self h
      exact ⟨(readingAfter_entry _ _).trans hentry, readingAfter_back es hback⟩
  | choice es _ => exact ⟨rfl, rfl⟩
  | emptyGroup l => exact ⟨rfl, rfl⟩
  | group l e _ => exact ⟨rfl, rfl⟩
  | repetition e q ih =>
    match q, h with
    | .zeroOrOne true, h =>
      obtain ⟨hentry, hback⟩ := ih h
      show e.reading .entry .entry + _ * _ * e.reading .exit .entry = 1
        ∧ e.reading .exit .entry + _ * _ * e.reading .exit .entry = 0
      rw [hback, mul_zero, mul_zero, add_zero, add_zero]
      exact ⟨hentry, rfl⟩
    | .zeroOrOne false, _ => exact ⟨rfl, rfl⟩
    | .zeroOrMore false, _ => exact ⟨rfl, rfl⟩
    | .between _ _ _, _ => exact ⟨rfl, rfl⟩
    | .exactly _, _ => exact ⟨rfl, rfl⟩
    | .atLeast _ _, _ => exact ⟨rfl, rfl⟩
  | lookAround d n e _ => exact ⟨rfl, rfl⟩

/-- What stands last decides what leads out of the exit. -/
theorem readingAfter_of_lastEndsFresh {r : Reading} {es : List Expr}
    (hes : ∀ e ∈ es, e.endsFresh = true →
      e.reading .exit .exit = 1 ∧ e.reading .exit .entry = 0)
    (hr : es = [] → r .exit .exit = 1 ∧ r .exit .entry = 0) (h : lastEndsFresh es = true) :
    readingAfter r es .exit .exit = 1 ∧ readingAfter r es .exit .entry = 0 := by
  induction es generalizing r with
  | nil => exact hr rfl
  | cons e es ih =>
    obtain ⟨he, hes⟩ := List.forall_mem_cons.1 hes
    rw [readingAfter]
    cases es with
    | nil => exact ⟨(he h).1, rfl⟩
    | cons e' es => exact ih hes (fun hnil => nomatch hnil) h

theorem reading_of_endsFresh {e : Expr} (h : e.endsFresh = true) :
    e.reading .exit .exit = 1 ∧ e.reading .exit .entry = 0 := by
  induction e with
  | symbol s => exact ⟨rfl, rfl⟩
  | sequence es ih =>
    cases es with
    | nil => exact ⟨rfl, rfl⟩
    | cons e es =>
      obtain ⟨he, hes⟩ := List.forall_mem_cons.1 ih
      rw [reading]
      rw [endsFresh] at h
      cases es with
      | nil => exact he h
      | cons e' es =>
        exact readingAfter_of_lastEndsFresh hes (fun hnil => nomatch hnil) h
  | choice es _ => exact ⟨rfl, rfl⟩
  | emptyGroup l => exact ⟨rfl, rfl⟩
  | group l e _ => exact ⟨rfl, rfl⟩
  | repetition e q ih =>
    match q, h with
    | .zeroOrOne true, h =>
      obtain ⟨hexit, hback⟩ := ih h
      show e.reading .exit .exit + e.reading .exit .entry * _ * _ = 1
        ∧ e.reading .exit .entry + e.reading .exit .entry * _ * _ = 0
      rw [hback, zero_mul, zero_mul, zero_mul, add_zero, add_zero]
      exact ⟨hexit, rfl⟩
    | .zeroOrOne false, h => exact ⟨(ih h).1, rfl⟩
    | .oneOrMore false, _ => exact ⟨rfl, rfl⟩
    | .zeroOrMore false, _ => exact ⟨rfl, rfl⟩
    | .between _ _ _, _ => exact ⟨rfl, rfl⟩
    | .exactly _, _ => exact ⟨rfl, rfl⟩
    | .atLeast _ _, _ => exact ⟨rfl, rfl⟩
  | lookAround d n e _ => exact ⟨rfl, rfl⟩

theorem isSkippable_of_fresh {e : Expr} (hstart : e.startsFresh = true)
    (hend : e.endsFresh = true) : e.reading.IsSkippable := by
  obtain ⟨hentry, hback⟩ := reading_of_startsFresh hstart
  exact Reading.isSkippable_of_eq hentry (reading_of_endsFresh hend).1 hback

/-- **A tree that looks skippable is.** -/
theorem isSkippable_reading {e : Expr} (h : e.isSkippable = true) : e.reading.IsSkippable := by
  induction e with
  | repetition e q ih =>
    rw [isSkippable, Bool.or_eq_true, Bool.and_eq_true] at h
    rcases h with h | ⟨hstart, hend⟩
    · exact (ih h).repeated e.hasEmptyPaths_reading q
    · exact isSkippable_of_fresh hstart hend
  | sequence es _ =>
    simp only [isSkippable, Bool.and_eq_true] at h
    exact isSkippable_of_fresh h.1 h.2
  | symbol s => exact isSkippable_of_fresh rfl rfl
  | choice es _ => exact isSkippable_of_fresh rfl rfl
  | emptyGroup l => exact isSkippable_of_fresh rfl rfl
  | group l e _ => exact isSkippable_of_fresh rfl rfl
  | lookAround d n e _ => exact isSkippable_of_fresh rfl rfl

/-- A body that looks suitable is. -/
theorem allows_reading {e : Expr} {q : Quantifier} (h : e.allows q = true) :
    e.reading.Allows q := by
  match q, h with
  | .zeroOrOne true, h => exact isSkippable_reading h
  | .zeroOrMore true, h => exact (isSkippable_reading h).allows e.hasEmptyPaths_reading _
  | .zeroOrOne false, h =>
    rw [allows, Bool.or_eq_true] at h
    rcases h with h | h
    · show e.reading .exit .exit ≤ _
      rw [(reading_of_endsFresh h).1]
      exact le_self_add
    · exact (isSkippable_reading h).allows e.hasEmptyPaths_reading _
  | .oneOrMore _, _ => trivial
  | .zeroOrMore false, _ => trivial
  | .between _ _ _, _ => trivial
  | .exactly _, _ => trivial
  | .atLeast _ _, _ => trivial

/-- **A tight tree reads just what it denotes.** -/
theorem reading_eq_language {e : Expr} (h : e.isTight = true) :
    e.reading .entry .exit = e.language := by
  induction e with
  | symbol s => exact (language_symbol s).symm
  | sequence es ih =>
    rw [isTight, allTight_iff] at h
    rw [language_sequence, reading_sequence_entry_exit]
    exact congrArg List.prod (List.map_congr_left fun e he => ih e he (h e he))
  | choice es ih =>
    rw [isTight, allTight_iff] at h
    show readingOfAny es = _
    rw [language_choice, readingOfAny_eq]
    exact congrArg List.sum (List.map_congr_left fun e he => ih e he (h e he))
  | emptyGroup l => exact (language_emptyGroup l).symm
  | group l e ih => exact (ih h).trans (language_group l e).symm
  | repetition e q ih =>
    rw [isTight, Bool.and_eq_true] at h
    rw [language_repetition, ← ih h.1]
    exact (Reading.repeated_eq_power_iff e.hasEmptyPaths_reading q).2 (allows_reading h.2)
  | lookAround d n e _ => exact (language_lookAround d n e).symm

end Expr

end Regexp
