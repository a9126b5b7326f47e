import Mathlib.Order.Interval.Set.Defs
import Regexp.Proofs.Reading

/-!
# The parts that the construction makes

The construction of an automaton appends states to a growing table. What
it appends for one tree is a `Part`: a block of positions that no
transition leaves, with one entry and one exit, the exit being its only
accepting state, and with the languages between the two ends that
`Expr.reading` gives. The states made before stay as they are
(`Arena.Extends`), so a part that stands lower in the table is still the
same part afterwards.

Each way to connect parts has a lemma here that says what the connected
part reads, and `Expr.added_of_construct` puts them together.
-/

namespace Regexp

open Computability

/-- The position of an end of a fragment. -/
def Fragment.port (f : Fragment) : Port → Nat
  | .entry => f.entry
  | .exit => f.exit

namespace Arena

variable {a b c : Arena} {lo mid hi i j : Nat} {f g : Fragment} {r s : Reading}
variable {l m : Language Char}

/-! ## Blocks of states -/

/-- The states of `a` stand at the same positions in `b`, unchanged. -/
structure Extends (a b : Arena) : Prop where
  /-- No state is lost. -/
  size_le : a.size ≤ b.size
  /-- Every state is kept. -/
  getElem?_eq : ∀ i < a.size, b[i]? = a[i]?

theorem Extends.refl (a : Arena) : Extends a a :=
  ⟨le_rfl, fun _ _ => rfl⟩

theorem Extends.trans (hab : Extends a b) (hbc : Extends b c) : Extends a c :=
  ⟨hab.size_le.trans hbc.size_le, fun i hi =>
    (hbc.getElem?_eq i (hi.trans_le hab.size_le)).trans (hab.getElem?_eq i hi)⟩

theorem extends_addState (a : Arena) (accept : Bool) (ts : List Transition) :
    Extends a (a.addState accept ts) :=
  ⟨by simp, fun _ hi => getElem?_addState_of_lt hi⟩

theorem Extends.addEpsilon {source target : Nat} (h : Extends a b) (hs : a.size ≤ source) :
    Extends a (b.addEpsilon source target) :=
  ⟨by simpa using h.size_le, fun i hi => by
    rw [getElem?_addEpsilon_of_ne (by omega), h.getElem?_eq i hi]⟩

theorem Extends.passOn {source target : Nat} (h : Extends a b) (hs : a.size ≤ source) :
    Extends a (b.passOn source target) :=
  ⟨by simpa using h.size_le, fun i hi => by
    rw [getElem?_passOn_of_ne (by omega), h.getElem?_eq i hi]⟩

/-- No transition leads out of the block. -/
def Closed (a : Arena) (lo hi : Nat) : Prop :=
  ∀ i ∈ Set.Ico lo hi, ∀ t ∈ a.transitionsAt i, t.target ∈ Set.Ico lo hi

/-- No path leads out of a closed block. -/
theorem Closed.reads_eq_zero (h : a.Closed lo hi) (hi' : i ∈ Set.Ico lo hi)
    (hj : j ∉ Set.Ico lo hi) : a.reads i j = 0 := by
  refine le_antisymm (reads_le (S := (· ∈ Set.Ico lo hi)) (X := fun _ => 0)
    (fun hj' => absurd hj' hj) (fun i hi t ht => ⟨h i hi t ht, ?_⟩) hi') zero_le
  rw [mul_zero]

/-- Paths from a closed block depend on nothing else, and not on the
order of transitions. -/
theorem Closed.reads_congr (h : a.Closed lo hi)
    (hab : ∀ i ∈ Set.Ico lo hi, ∀ t, t ∈ b.transitionsAt i ↔ t ∈ a.transitionsAt i)
    (hi' : i ∈ Set.Ico lo hi) (j : Nat) : b.reads i j = a.reads i j := by
  refine le_antisymm ?_ ?_
  · refine reads_le (S := (· ∈ Set.Ico lo hi)) (X := fun i => a.reads i j)
      (fun _ => a.one_le_reads j) (fun i hi t ht => ?_) hi'
    rw [hab i hi] at ht
    exact ⟨h i hi t ht, label_mul_reads_le ht j⟩
  · refine reads_le (S := (· ∈ Set.Ico lo hi)) (X := fun i => b.reads i j)
      (fun _ => b.one_le_reads j) (fun i hi t ht => ⟨h i hi t ht, ?_⟩) hi'
    rw [← hab i hi] at ht
    exact label_mul_reads_le ht j

/-- **A part of an automaton**: a closed block of states with an entry
and an exit, the exit being its only accepting state, and the languages
between the two. -/
structure Part (a : Arena) (lo hi : Nat) (f : Fragment) (r : Reading) : Prop where
  /-- The states exist. -/
  hi_le : hi ≤ a.size
  /-- The ends are in the block. -/
  port_mem : ∀ p, f.port p ∈ Set.Ico lo hi
  /-- Transitions stay in the block. -/
  closed : a.Closed lo hi
  /-- The exit alone accepts. -/
  acceptsAt_iff : ∀ i ∈ Set.Ico lo hi, a.acceptsAt i = true ↔ i = f.exit
  /-- What is read between the ends. -/
  reads_eq : ∀ p q, a.reads (f.port p) (f.port q) = r p q

/-- A part is the same in every table with the same transitions and the
same accepting states in its block. -/
theorem Part.congr (h : a.Part lo hi f r) (hb : hi ≤ b.size)
    (ht : ∀ i ∈ Set.Ico lo hi, ∀ t, t ∈ b.transitionsAt i ↔ t ∈ a.transitionsAt i)
    (hacc : ∀ i ∈ Set.Ico lo hi, b.acceptsAt i = a.acceptsAt i) : b.Part lo hi f r := by
  refine ⟨hb, h.port_mem, fun i hi t hmem => h.closed i hi t ((ht i hi t).1 hmem), fun i hi => ?_,
    fun p q => ?_⟩
  · rw [hacc i hi]
    exact h.acceptsAt_iff i hi
  · rw [h.closed.reads_congr ht (h.port_mem p)]
    exact h.reads_eq p q

/-- Later states leave a part alone. -/
theorem Part.extends (h : a.Part lo hi f r) (hab : Extends a b) : b.Part lo hi f r := by
  have hget : ∀ i ∈ Set.Ico lo hi, b[i]? = a[i]? := fun i hi =>
    hab.getElem?_eq i (hi.2.trans_le h.hi_le)
  refine h.congr (h.hi_le.trans hab.size_le) (fun i hi t => ?_) fun i hi => ?_
  · rw [transitionsAt_eq, transitionsAt_eq, hget i hi]
  · rw [acceptsAt_eq, acceptsAt_eq, hget i hi]

/-! ## Fresh ends -/

/-- Nothing is read on a way back to a state that no transition leads
to. -/
theorem Closed.reads_self (h : a.Closed lo hi) (hi' : i ∈ Set.Ico lo hi)
    (hne : ∀ j ∈ Set.Ico lo hi, ∀ t ∈ a.transitionsAt j, t.target ≠ i) : a.reads i i = 1 := by
  refine le_antisymm ?_ (a.one_le_reads i)
  have hle := reads_le (a := a) (j := i) (S := (· ∈ Set.Ico lo hi))
    (X := fun j => if j = i then 1 else 0) (fun _ => (if_pos rfl).ge)
    (fun j hj t ht => ⟨h j hj t ht, by rw [if_neg (hne j hj t ht), mul_zero]; exact zero_le⟩) hi'
  rwa [if_pos rfl] at hle

/-- **A part with fresh ends**: no transition leads into its entry and
none leaves its exit. -/
theorem Closed.part (h : a.Closed lo hi) (hle : hi ≤ a.size)
    (hf : ∀ p, f.port p ∈ Set.Ico lo hi) (hne : f.entry ≠ f.exit)
    (haccept : ∀ i ∈ Set.Ico lo hi, a.acceptsAt i = true ↔ i = f.exit)
    (hentry : ∀ i ∈ Set.Ico lo hi, ∀ t ∈ a.transitionsAt i, t.target ≠ f.entry)
    (hexit : a.transitionsAt f.exit = []) (hthrough : a.reads f.entry f.exit = l) :
    a.Part lo hi f (.fresh l) := by
  refine ⟨hle, hf, h, haccept, fun p q => ?_⟩
  match p, q with
  | .entry, .entry => exact h.reads_self (hf .entry) hentry
  | .entry, .exit => exact hthrough
  | .exit, .exit => exact (reads_of_transitionsAt_eq_nil hexit _).trans (if_pos rfl)
  | .exit, .entry => exact (reads_of_transitionsAt_eq_nil hexit _).trans (if_neg hne.symm)

/-! ## Transitions between the ends -/

theorem Part.port_lt (h : a.Part lo hi f r) (p : Port) : f.port p < a.size :=
  (h.port_mem p).2.trans_le h.hi_le

/-- A further transition between the ends of a part. -/
theorem Part.join (h : a.Part lo hi f r) (p q : Port) :
    (a.addEpsilon (f.port p) (f.port q)).Part lo hi f (r.join p q) := by
  refine ⟨by simpa using h.hi_le, h.port_mem, fun i hi t ht => ?_, fun i hi => ?_, fun i j => ?_⟩
  · rcases (mem_transitionsAt_addEpsilon (h.port_lt p)).1 ht with ht | ⟨-, rfl⟩
    · exact h.closed i hi t ht
    · exact h.port_mem q
  · rw [acceptsAt_addEpsilon]
    exact h.acceptsAt_iff i hi
  · rw [reads_addEpsilon (h.port_lt p), h.reads_eq, h.reads_eq, h.reads_eq, h.reads_eq]
    rfl

/-- **One part behind the other**: the exit of the first leads to the
entry of the second, and nothing leads back. -/
theorem Part.andThen (hf : a.Part lo mid f r) (hg : a.Part mid hi g s) :
    (a.passOn f.exit g.entry).Part lo hi ⟨f.entry, g.exit⟩ (r.andThen s) := by
  have hfe : f.exit ∈ Set.Ico lo mid := hf.port_mem .exit
  have hfs : f.entry ∈ Set.Ico lo mid := hf.port_mem .entry
  have hge : g.exit ∈ Set.Ico mid hi := hg.port_mem .exit
  have hgs : g.entry ∈ Set.Ico mid hi := hg.port_mem .entry
  have hlt : f.exit < a.size := hf.port_lt .exit
  simp only [Set.mem_Ico] at hfe hfs hge hgs
  refine ⟨by simpa using hg.hi_le, fun p => ?_, fun i hi t ht => ?_, fun i hi => ?_, fun p q => ?_⟩
  · cases p
    · exact ⟨hfs.1, show f.entry < _ by omega⟩
    · exact ⟨show _ ≤ g.exit by omega, hge.2⟩
  · rcases (mem_transitionsAt_passOn hlt).1 ht with ht | ⟨-, rfl⟩
    · rcases lt_or_ge i mid with him | him
      · have := hf.closed i ⟨hi.1, him⟩ t ht
        exact ⟨this.1, this.2.trans (by omega)⟩
      · have := hg.closed i ⟨him, hi.2⟩ t ht
        exact ⟨le_trans (by omega) this.1, this.2⟩
    · exact ⟨show _ ≤ g.entry by omega, hgs.2⟩
  · rw [acceptsAt_passOn]
    show _ ↔ i = g.exit
    split
    next h => exact iff_of_false Bool.false_ne_true (by omega)
    next h =>
      rcases lt_or_ge i mid with him | him
      · rw [hf.acceptsAt_iff i ⟨hi.1, him⟩]
        exact iff_of_false h (by omega)
      · exact hg.acceptsAt_iff i ⟨him, hi.2⟩
  · -- no path leads from one part to the other but through the new transition
    have hforth : ∀ i ∈ Set.Ico lo mid, a.reads i g.exit = 0 := fun i hi =>
      hf.closed.reads_eq_zero hi fun h => by have := h.2; omega
    have hback : ∀ i ∈ Set.Ico mid hi, ∀ j < mid, a.reads i j = 0 := fun i hi j hj =>
      hg.closed.reads_eq_zero hi fun h => by have := h.1; omega
    have hback' : ∀ j < mid, a.reads g.entry j = 0 := hback g.entry hgs
    rw [reads_passOn hlt, hback' _ hfe.2, kstar_zero, mul_one]
    match p, q with
    | .entry, .entry =>
      show a.reads f.entry f.entry + _ * a.reads g.entry f.entry = r .entry .entry
      rw [hback' _ hfs.2, mul_zero, add_zero]
      exact hf.reads_eq .entry .entry
    | .entry, .exit =>
      show a.reads f.entry g.exit + a.reads f.entry f.exit * a.reads g.entry g.exit
        = r .entry .exit * s .entry .exit
      rw [hforth f.entry hfs, zero_add]
      exact congrArg₂ (· * ·) (hf.reads_eq .entry .exit) (hg.reads_eq .entry .exit)
    | .exit, .exit =>
      show a.reads g.exit g.exit + a.reads g.exit f.exit * _ = s .exit .exit
      rw [hback g.exit hge _ hfe.2, zero_mul, add_zero]
      exact hg.reads_eq .exit .exit
    | .exit, .entry =>
      show a.reads g.exit f.entry + a.reads g.exit f.exit * _ = 0
      rw [hback g.exit hge _ hfs.2, hback g.exit hge _ hfe.2, zero_mul, add_zero]

/-! ## Parts with ends of their own -/

/-- Parts that stand one behind the other in the table and are not
connected, with what is read through any one of them. -/
inductive Parts (a : Arena) : Nat → Nat → List Fragment → Language Char → Prop where
  /-- No part. -/
  | nil {lo : Nat} (h : lo ≤ a.size) : a.Parts lo lo [] 0
  /-- A part in front of others. -/
  | cons {lo mid hi : Nat} {f : Fragment} {fs : List Fragment} {r : Reading} {l : Language Char}
      (h : a.Part lo mid f r) (hs : a.Parts mid hi fs l) :
      a.Parts lo hi (f :: fs) (r .entry .exit + l)

namespace Parts

variable {fs : List Fragment}

theorem lo_le (h : a.Parts lo hi fs l) : lo ≤ hi := by
  induction h with
  | nil => exact le_rfl
  | cons h _ ih => exact ((h.port_mem .entry).1.trans (h.port_mem .entry).2.le).trans ih

theorem port_mem (h : a.Parts lo hi fs l) (hf : f ∈ fs) (p : Port) : f.port p ∈ Set.Ico lo hi := by
  induction h with
  | nil => cases hf
  | cons h hs ih =>
    rcases List.mem_cons.1 hf with rfl | hf
    · exact ⟨(h.port_mem p).1, (h.port_mem p).2.trans_le hs.lo_le⟩
    · exact ⟨((h.port_mem .entry).1.trans (h.port_mem .entry).2.le).trans (ih hf).1, (ih hf).2⟩

theorem closed (h : a.Parts lo hi fs l) : a.Closed lo hi := by
  induction h with
  | nil =>
    intro i hi
    exact absurd (hi.1.trans_lt hi.2) (lt_irrefl _)
  | @cons lo mid hi f fs r l h hs ih =>
    intro i hi t ht
    have hlo : lo ≤ mid := (h.port_mem .entry).1.trans (h.port_mem .entry).2.le
    rcases lt_or_ge i mid with him | him
    · have := h.closed i ⟨hi.1, him⟩ t ht
      exact ⟨this.1, this.2.trans_le hs.lo_le⟩
    · have := ih i ⟨him, hi.2⟩ t ht
      exact ⟨hlo.trans this.1, this.2⟩

theorem acceptsAt_iff (h : a.Parts lo hi fs l) (hi' : i ∈ Set.Ico lo hi) :
    a.acceptsAt i = true ↔ ∃ f ∈ fs, i = f.exit := by
  induction h with
  | nil => exact absurd (hi'.1.trans_lt hi'.2) (lt_irrefl _)
  | @cons lo mid hi f fs r l h hs ih =>
    rw [List.exists_mem_cons_iff]
    rcases lt_or_ge i mid with him | him
    · rw [h.acceptsAt_iff i ⟨hi'.1, him⟩]
      refine (or_iff_left ?_).symm
      rintro ⟨g, hg, rfl⟩
      exact absurd (hs.port_mem hg .exit).1 (not_le.2 him)
    · rw [ih ⟨him, hi'.2⟩]
      refine (or_iff_right ?_).symm
      rintro rfl
      exact absurd (h.port_mem .exit).2 (not_lt.2 him)

/-- Entering one part and leaving another is impossible, so no more is
read than through some part. -/
theorem reads_entry_exit_le (h : a.Parts lo hi fs l) (hf : f ∈ fs) (hg : g ∈ fs) :
    a.reads f.entry g.exit ≤ l := by
  induction h with
  | nil => cases hf
  | @cons lo mid hi k fs r l h hs ih =>
    have hentry : k.entry ∈ Set.Ico lo mid := h.port_mem .entry
    have hexit : k.exit ∈ Set.Ico lo mid := h.port_mem .exit
    have hthrough : a.reads k.entry k.exit = r .entry .exit := h.reads_eq .entry .exit
    rw [List.mem_cons] at hf hg
    obtain rfl | hf := hf <;> obtain rfl | hg := hg
    · exact hthrough.le.trans le_self_add
    · have hmem : g.exit ∈ Set.Ico mid hi := hs.port_mem hg .exit
      rw [h.closed.reads_eq_zero hentry fun h => absurd hmem.1 (not_le.2 h.2)]
      exact zero_le
    · have hmem : f.entry ∈ Set.Ico mid hi := hs.port_mem hf .entry
      rw [hs.closed.reads_eq_zero hmem fun h => absurd h.1 (not_le.2 hexit.2)]
      exact zero_le
    · exact (ih hf hg).trans le_add_self

/-- What is read through some part is read through one of them. -/
theorem le_of_forall (h : a.Parts lo hi fs l) (hm : ∀ f ∈ fs, a.reads f.entry f.exit ≤ m) :
    l ≤ m := by
  induction h with
  | nil => exact zero_le
  | cons h _ ih =>
    rw [List.forall_mem_cons] at hm
    exact add_le ((h.reads_eq .entry .exit).ge.trans hm.1) (ih hm.2)

end Parts

/-- **A new entry and a new exit**, at `hi` and `hi + 1`, around the parts
`fs`, which `a` has without them and `b` with them. The entry leads into
the parts, and by the transitions of `ts` to the exit; the exits of the
parts lead to the new exit. -/
structure Encloses (a b : Arena) (lo hi : Nat) (fs : List Fragment) (ts : List Transition) :
    Prop where
  /-- The states exist. -/
  size_le : hi + 2 ≤ b.size
  /-- All of the further transitions lead to the exit. -/
  target_eq : ∀ t ∈ ts, t.target = hi + 1
  /-- Only the exits of the parts have a new transition. -/
  mem_iff : ∀ i ∈ Set.Ico lo hi, ∀ t, t ∈ b.transitionsAt i
    ↔ t ∈ a.transitionsAt i ∨ (∃ f ∈ fs, i = f.exit) ∧ t = .epsilon (hi + 1)
  /-- The transitions of the entry. -/
  mem_entry_iff : ∀ t, t ∈ b.transitionsAt hi ↔ (∃ f ∈ fs, t = .epsilon f.entry) ∨ t ∈ ts
  /-- The exit has no transitions. -/
  exit_eq : b.transitionsAt (hi + 1) = []
  /-- The exit alone accepts. -/
  acceptsAt_iff : ∀ i ∈ Set.Ico lo (hi + 2), b.acceptsAt i = true ↔ i = hi + 1

namespace Encloses

variable {fs : List Fragment} {ts : List Transition}

/-- A state is one of a part, or the entry, or the exit. -/
theorem cases_mem (hi' : i ∈ Set.Ico lo (hi + 2)) : i ∈ Set.Ico lo hi ∨ i = hi ∨ i = hi + 1 := by
  simp only [Set.mem_Ico] at hi' ⊢
  omega

/-- Transitions lead to states of the parts or to the exit. -/
theorem target_mem (h : a.Encloses b lo hi fs ts) (hp : a.Parts lo hi fs l)
    (hi' : i ∈ Set.Ico lo (hi + 2)) {t : Transition} (ht : t ∈ b.transitionsAt i) :
    t.target ∈ Set.Ico lo hi ∨ t.target = hi + 1 := by
  obtain hi' | rfl | rfl := cases_mem hi'
  · obtain ht | ⟨-, rfl⟩ := (h.mem_iff i hi' t).1 ht
    · exact .inl (hp.closed i hi' t ht)
    · exact .inr rfl
  · obtain ⟨f, hf, rfl⟩ | ht := (h.mem_entry_iff t).1 ht
    · exact .inl (hp.port_mem hf .entry)
    · exact .inr (h.target_eq t ht)
  · rw [h.exit_eq] at ht
    cases ht

/-- No transition leads to the entry. -/
theorem target_ne_entry (h : a.Encloses b lo hi fs ts) (hp : a.Parts lo hi fs l)
    (hi' : i ∈ Set.Ico lo (hi + 2)) {t : Transition} (ht : t ∈ b.transitionsAt i) :
    t.target ≠ hi := by
  obtain ht | ht := h.target_mem hp hi' ht
  · exact ht.2.ne
  · rw [ht]
    exact (Nat.lt_succ_self hi).ne'

theorem closed (h : a.Encloses b lo hi fs ts) (hp : a.Parts lo hi fs l) :
    b.Closed lo (hi + 2) := by
  intro i hi' t ht
  have hlo : lo ≤ hi := hp.lo_le
  obtain ht | ht := h.target_mem hp hi' ht
  · exact ⟨ht.1, ht.2.trans (by omega)⟩
  · rw [ht]
    exact ⟨by omega, Nat.lt_succ_self _⟩

/-- No more is read than through the parts and by the further
transitions: from the states of the parts the exit is reached through
the exits of the parts. -/
theorem reads_le_add (h : a.Encloses b lo hi fs ts) (hp : a.Parts lo hi fs l) :
    b.reads hi (hi + 1) ≤ l + (ts.map Transition.label).sum := by
  -- the bound holds at each state if no transition leads above the bound of its source
  let X : Nat → Language Char := fun i =>
    if i = hi + 1 then 1
    else if i = hi then l + (ts.map Transition.label).sum
    else ⨆ f ∈ fs, a.reads i f.exit
  have hX : ∀ i ∈ Set.Ico lo hi, X i = ⨆ f ∈ fs, a.reads i f.exit := fun i hi' => by
    have hlt : i < hi := hi'.2
    exact (if_neg (by omega)).trans (if_neg hlt.ne)
  have hXentry : X hi = l + (ts.map Transition.label).sum :=
    (if_neg (Nat.lt_succ_self hi).ne).trans (if_pos rfl)
  have hXexit : X (hi + 1) = 1 := if_pos rfl
  rw [← hXentry]
  refine reads_le (S := (· ∈ Set.Ico lo (hi + 2))) (fun _ => hXexit.ge)
    (fun i hi' t ht => ⟨h.closed hp i hi' t ht, ?_⟩) ⟨hp.lo_le, by omega⟩
  obtain hi' | rfl | rfl := cases_mem hi'
  · rw [hX i hi']
    obtain ht | ⟨⟨f, hf, rfl⟩, rfl⟩ := (h.mem_iff i hi' t).1 ht
    · rw [hX _ (hp.closed i hi' t ht)]
      simp only [Language.mul_iSup]
      exact iSup₂_mono fun f _ => label_mul_reads_le ht _
    · rw [Transition.target_epsilon, hXexit, Transition.label_epsilon, one_mul]
      exact le_iSup₂_of_le f hf (a.one_le_reads _)
  · rw [hXentry]
    obtain ⟨f, hf, rfl⟩ | ht := (h.mem_entry_iff t).1 ht
    · have hentry : f.entry ∈ Set.Ico lo i := hp.port_mem hf .entry
      rw [Transition.target_epsilon, hX _ hentry, Transition.label_epsilon, one_mul]
      have hle : (⨆ g ∈ fs, a.reads f.entry g.exit) ≤ l :=
        iSup₂_le fun g hg => hp.reads_entry_exit_le hf hg
      exact hle.trans le_self_add
    · rw [h.target_eq t ht, hXexit, mul_one]
      exact (List.le_sum_of_mem (List.mem_map_of_mem ht)).trans le_add_self
  · rw [h.exit_eq] at ht
    cases ht

/-- What a part reads is read from the entry to the exit. -/
theorem reads_le_reads (h : a.Encloses b lo hi fs ts) (hp : a.Parts lo hi fs l) (hf : f ∈ fs) :
    a.reads f.entry f.exit ≤ b.reads hi (hi + 1) := by
  have hport : ∀ p, f.port p ∈ Set.Ico lo hi := hp.port_mem hf
  have hinner : a.reads f.entry f.exit ≤ b.reads f.entry f.exit := by
    refine reads_le (S := (· ∈ Set.Ico lo hi)) (X := fun i => b.reads i f.exit)
      (fun _ => b.one_le_reads _) (fun i hi' t ht => ⟨hp.closed i hi' t ht, ?_⟩) (hport .entry)
    exact label_mul_reads_le ((h.mem_iff i hi' t).2 (.inl ht)) _
  have hin := label_mul_reads_le ((h.mem_entry_iff (.epsilon f.entry)).2 (.inl ⟨f, hf, rfl⟩))
    (hi + 1)
  have hout := label_mul_reads_le ((h.mem_iff f.exit (hport .exit) _).2
    (.inr ⟨⟨f, hf, rfl⟩, rfl⟩)) (hi + 1)
  rw [Transition.label_epsilon, one_mul] at hin hout
  -- into the part, through it and out of it
  calc a.reads f.entry f.exit = a.reads f.entry f.exit * 1 := (mul_one _).symm
    _ ≤ b.reads f.entry f.exit * b.reads f.exit (hi + 1) :=
      mul_le_mul' hinner ((b.one_le_reads _).trans hout)
    _ ≤ b.reads f.entry (hi + 1) := b.reads_mul_reads_le _ _ _
    _ ≤ b.reads hi (hi + 1) := hin

/-- A further transition is read from the entry to the exit. -/
theorem label_le_reads (h : a.Encloses b lo hi fs ts) {t : Transition} (ht : t ∈ ts) :
    t.label ≤ b.reads hi (hi + 1) := by
  have hle := label_mul_reads_le ((h.mem_entry_iff t).2 (.inr ht)) (hi + 1)
  rw [h.target_eq t ht] at hle
  exact (le_mul_of_one_le_right' (b.one_le_reads _)).trans hle

/-- **Parts between a new entry and a new exit are a part**, which reads
what they read and the further transitions. -/
theorem part (h : a.Encloses b lo hi fs ts) (hp : a.Parts lo hi fs l) :
    b.Part lo (hi + 2) ⟨hi, hi + 1⟩ (.fresh (l + (ts.map Transition.label).sum)) := by
  have hlo : lo ≤ hi := hp.lo_le
  refine (h.closed hp).part h.size_le (fun p => ?_) (Nat.lt_succ_self hi).ne h.acceptsAt_iff
    (fun i hi' t ht => h.target_ne_entry hp hi' ht) h.exit_eq ?_
  · cases p
    · exact ⟨hlo, show hi < hi + 2 by omega⟩
    · exact ⟨show lo ≤ hi + 1 by omega, Nat.lt_succ_self _⟩
  · refine le_antisymm (h.reads_le_add hp) (add_le ?_ (sum_le fun t ht => h.label_le_reads ht))
    exact hp.le_of_forall fun f hf => h.reads_le_reads hp hf

end Encloses

end Arena

end Regexp
