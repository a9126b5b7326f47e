import Regexp.Proofs.Part

/-!
# What the construction makes

The construction turns a tree into a part of the automaton that reads
what `Expr.reading` says (`Expr.added_of_construct`). The proof goes along
the tree. Each way to connect parts has a lemma of its own: groups,
choices and the lazy `*?` put a new entry and a new exit around their
parts, a sequence puts one part behind the other, and the other
quantifiers add a transition, or an end, to the part that they repeat.
-/

namespace Regexp

namespace Arena

variable {a b c : Arena} {lo hi i target : Nat} {f g : Fragment} {fs : List Fragment}
variable {r s : Reading} {l : Language Char} {t : Transition}

/-! ## Leading all exits on -/

@[simp] theorem size_foldl_passOn (a : Arena) (fs : List Fragment) (target : Nat) :
    (fs.foldl (fun a f => a.passOn f.exit target) a).size = a.size := by
  induction fs generalizing a with
  | nil => rfl
  | cons f fs ih => rw [List.foldl_cons, ih, size_passOn]

/-- Leading all exits on adds a transition to each exit. -/
theorem mem_transitionsAt_foldl_passOn (hfs : ∀ f ∈ fs, f.exit < a.size) :
    t ∈ (fs.foldl (fun a f => a.passOn f.exit target) a).transitionsAt i
      ↔ t ∈ a.transitionsAt i ∨ (∃ f ∈ fs, i = f.exit) ∧ t = .epsilon target := by
  induction fs generalizing a with
  | nil => simp
  | cons f fs ih =>
    obtain ⟨hf, hfs⟩ := List.forall_mem_cons.1 hfs
    have hfs : ∀ g ∈ fs, g.exit < (a.passOn f.exit target).size := by simpa using hfs
    rw [List.foldl_cons, ih hfs, mem_transitionsAt_passOn hf, List.exists_mem_cons_iff, or_assoc,
      or_and_right]

/-- The exits that are led on stop accepting, and only they. -/
theorem acceptsAt_foldl_passOn :
    (fs.foldl (fun a f => a.passOn f.exit target) a).acceptsAt i = true
      ↔ a.acceptsAt i = true ∧ ¬ ∃ f ∈ fs, i = f.exit := by
  induction fs generalizing a with
  | nil => simp
  | cons f fs ih =>
    rw [List.foldl_cons, ih, acceptsAt_passOn, List.exists_mem_cons_iff, not_or]
    by_cases h : i = f.exit
    · rw [if_pos h]
      exact iff_of_false (fun h => Bool.false_ne_true h.1) fun hn => hn.2.1 h
    · rw [if_neg h, ← and_assoc, and_iff_left h]

theorem Extends.foldl_passOn (h : Extends a b) (hfs : ∀ f ∈ fs, a.size ≤ f.exit) :
    Extends a (fs.foldl (fun a f => a.passOn f.exit target) b) := by
  induction fs generalizing b with
  | nil => exact h
  | cons f fs ih =>
    obtain ⟨hf, hfs⟩ := List.forall_mem_cons.1 hfs
    exact ih (h.passOn hf) hfs

/-! ## New states -/

/-- **The part `f`, added to `a`** to make `b`: the states of `a` are
kept, and the others are a part. -/
structure Added (a b : Arena) (f : Fragment) (r : Reading) : Prop where
  /-- The states made before stay as they are. -/
  keep : Extends a b
  /-- The new states are a part. -/
  part : b.Part a.size b.size f r

/-- **A new entry and a new exit, appended**: the entry has the
transitions `us`, those into the parts and those of `ts`. -/
theorem encloses_addState {us ts : List Transition} (h : a.Parts lo a.size fs l)
    (hts : ∀ t ∈ ts, t.target = a.size + 1)
    (hus : ∀ t, t ∈ us ↔ (∃ f ∈ fs, t = .epsilon f.entry) ∨ t ∈ ts) :
    a.Encloses (fs.foldl (fun b f => b.passOn f.exit (a.size + 1))
      ((a.addState false us).addState true [])) lo a.size fs ts := by
  have hexit : ∀ f ∈ fs, f.exit < a.size := fun f hf => (h.port_mem hf .exit).2
  have hlt : ∀ f ∈ fs, f.exit < ((a.addState false us).addState true []).size := fun f hf => by
    rw [size_addState, size_addState]
    exact Nat.lt_add_right 2 (hexit f hf)
  -- the new states are none of the exits that lead on to them
  have hne : ∀ i, a.size ≤ i → ¬ ∃ f ∈ fs, i = f.exit := by
    rintro i hi ⟨f, hf, rfl⟩
    exact absurd (hexit f hf) (not_lt.2 hi)
  have htrans : ∀ i, ((a.addState false us).addState true []).transitionsAt i
      = if i = a.size + 1 then [] else if i = a.size then us else a.transitionsAt i := fun i => by
    rw [transitionsAt_addState, size_addState, transitionsAt_addState]
  refine ⟨by simp, hts, fun i hi t => ?_, fun t => ?_, ?_, fun i hi => ?_⟩
  · have hi' : i < a.size := hi.2
    rw [mem_transitionsAt_foldl_passOn hlt, htrans, if_neg (by omega), if_neg (by omega)]
  · rw [mem_transitionsAt_foldl_passOn hlt, htrans, if_neg (by omega), if_pos rfl, hus]
    exact or_iff_left fun h => hne _ le_rfl h.1
  · refine List.eq_nil_iff_forall_not_mem.2 fun t ht => ?_
    rw [mem_transitionsAt_foldl_passOn hlt, htrans, if_pos rfl] at ht
    obtain ht | ht := ht
    · cases ht
    · exact hne _ (Nat.le_succ _) ht.1
  · rw [acceptsAt_foldl_passOn, acceptsAt_addState, size_addState, acceptsAt_addState]
    split
    next hi => exact iff_of_true ⟨rfl, hne _ (by omega)⟩ hi
    next hi' =>
      refine iff_of_false ?_ hi'
      split
      next => exact fun h => Bool.false_ne_true h.1
      next hi'' =>
        have hmem : i ∈ Set.Ico lo a.size := ⟨hi.1, by have := hi.2; omega⟩
        rw [h.acceptsAt_iff hmem]
        exact and_not_self

/-- Parts that have been added to `a`, between a new entry and a new
exit. -/
theorem added_of_parts (us ts : List Transition) (h : b.Parts a.size b.size fs l)
    (hab : Extends a b) (hts : ∀ t ∈ ts, t.target = b.size + 1)
    (hus : ∀ t, t ∈ us ↔ (∃ f ∈ fs, t = .epsilon f.entry) ∨ t ∈ ts) :
    a.Added (fs.foldl (fun b' f => b'.passOn f.exit (b.size + 1))
      ((b.addState false us).addState true [])) ⟨b.size, b.size + 1⟩
      (.fresh (l + (ts.map Transition.label).sum)) := by
  refine ⟨Extends.foldl_passOn ?_ fun f hf => (h.port_mem hf .exit).1, ?_⟩
  · exact (hab.trans (extends_addState _ _ _)).trans (extends_addState _ _ _)
  · have hpart := (encloses_addState h hts hus).part h
    rwa [size_foldl_passOn, size_addState, size_addState]

/-- The part without any characters. -/
theorem added_emptyPart (a : Arena) : a.Added a.emptyPart.2 a.emptyPart.1 (.fresh 1) := by
  have h := added_of_parts [.epsilon (a.size + 1)] [.epsilon (a.size + 1)]
    (Parts.nil le_rfl) (Extends.refl a) (by simp) (by simp)
  rwa [zero_add, List.map_singleton, List.sum_singleton, Transition.label_epsilon] at h

/-- The part of one symbol. -/
theorem added_symbolPart (a : Arena) (s : Symbol) :
    a.Added (a.symbolPart s).2 (a.symbolPart s).1 (.fresh s.language) := by
  have h := added_of_parts [.symbol s (a.size + 1)] [.symbol s (a.size + 1)]
    (Parts.nil le_rfl) (Extends.refl a) (by simp) (by simp)
  rwa [zero_add, List.map_singleton, List.sum_singleton, Transition.label_symbol] at h

/-- The parts of all branches, with ends of their own. -/
theorem added_choicePart (h : b.Parts a.size b.size fs l) (hab : Extends a b) :
    a.Added (b.choicePart fs).2 (b.choicePart fs).1 (.fresh l) := by
  have h := added_of_parts (fs.map (.epsilon ·.entry)) [] h hab (by simp) (by simp [eq_comm])
  rwa [List.map_nil, List.sum_nil, add_zero] at h

/-- A part with ends of its own. -/
theorem Added.groupPart (h : a.Added b f r) :
    a.Added (b.groupPart f).2 (b.groupPart f).1 (.fresh (r .entry .exit)) := by
  have hparts := Parts.cons h.part (Parts.nil h.part.hi_le)
  rw [add_zero] at hparts
  exact added_choicePart hparts h.keep

/-! ## Repetitions and sequences -/

/-- A further transition between the ends of a part that was added. -/
theorem Added.join (h : a.Added b f r) (p q : Port) :
    a.Added (b.addEpsilon (f.port p) (f.port q)) f (r.join p q) := by
  refine ⟨h.keep.addEpsilon (h.part.port_mem p).1, ?_⟩
  rw [size_addEpsilon]
  exact h.part.join p q

/-- A state without transitions is a part of its own. -/
theorem part_addState_nil (a : Arena) :
    (a.addState true []).Part a.size (a.size + 1) ⟨a.size, a.size⟩ fun _ _ => 1 := by
  have hmem : ∀ i ∈ Set.Ico a.size (a.size + 1), i = a.size := fun i hi =>
    le_antisymm (Nat.le_of_lt_succ hi.2) hi.1
  have hnil : (a.addState true []).transitionsAt a.size = [] := by
    rw [transitionsAt_addState, if_pos rfl]
  have hport : ∀ p, Fragment.port ⟨a.size, a.size⟩ p = a.size := fun p => by cases p <;> rfl
  refine ⟨by simp, fun p => ?_, fun i hi t ht => ?_, fun i hi => ?_, fun p q => ?_⟩
  · rw [hport]
    exact ⟨le_rfl, Nat.lt_succ_self _⟩
  · rw [hmem i hi, hnil] at ht
    cases ht
  · rw [hmem i hi, acceptsAt_addState, if_pos rfl]
    exact iff_of_true rfl rfl
  · rw [hport, hport, reads_of_transitionsAt_eq_nil hnil, if_pos rfl]

/-- A part that was added, with an exit of its own. -/
theorem Added.newExit (h : a.Added b f r) :
    a.Added ((b.addState true []).passOn f.exit b.size) ⟨f.entry, b.size⟩
      (.oneWay (r .entry .entry) (r .entry .exit) 1) := by
  refine ⟨(h.keep.trans (extends_addState _ _ _)).passOn (h.part.port_mem .exit).1, ?_⟩
  have hpart := (h.part.extends (extends_addState b true [])).andThen b.part_addState_nil
  rw [size_passOn, size_addState, ← mul_one (r .entry .exit)]
  exact hpart

/-- The order of transitions does not matter to a part. -/
theorem Added.congr (h : a.Added b f r) (hac : Extends a c) (hsize : c.size = b.size)
    (ht : ∀ i t, t ∈ c.transitionsAt i ↔ t ∈ b.transitionsAt i)
    (hacc : ∀ i, c.acceptsAt i = b.acceptsAt i) : a.Added c f r :=
  ⟨hac, hsize ▸ h.part.congr hsize.ge (fun i _ => ht i) fun i _ => hacc i⟩

/-- **A lazy `+?`** has an exit of its own. -/
theorem Added.oneOrMore_lazy (h : a.Added b f r) :
    a.Added (((b.addState true []).passOn f.exit b.size).addEpsilon f.exit f.entry)
      ⟨f.entry, b.size⟩ (r.repeated (.oneOrMore false)) := by
  have hexit : f.exit < b.size := h.part.port_lt .exit
  have hle : a.size ≤ f.exit := (h.part.port_mem .exit).1
  -- the transition back to the entry may as well be added first
  have hfirst : a.Added (((b.addEpsilon f.exit f.entry).addState true []).passOn f.exit b.size)
      ⟨f.entry, b.size⟩ (r.repeated (.oneOrMore false)) := by
    have hback := (h.join .exit .entry).newExit
    rwa [size_addEpsilon] at hback
  refine hfirst.congr (((h.keep.trans (extends_addState _ _ _)).passOn hle).addEpsilon hle)
    (by simp) (fun i t => ?_) fun i => ?_
  · rw [mem_transitionsAt_addEpsilon (by simp; omega), mem_transitionsAt_passOn (by simp; omega),
      mem_transitionsAt_passOn (by simp; omega), transitionsAt_addState, transitionsAt_addState,
      size_addEpsilon]
    split
    next hi => simp [hi, hexit.ne']
    next => rw [mem_transitionsAt_addEpsilon hexit, or_right_comm]
  · simp [acceptsAt_passOn, acceptsAt_addState]

/-- **A lazy `*?`** has an entry and an exit of its own. -/
theorem Added.zeroOrMore_lazy (h : a.Added b f r) :
    a.Added (((((b.addState false [.epsilon (b.size + 1), .epsilon f.entry]).addState true
        []).passOn f.exit (b.size + 1))).addEpsilon f.exit f.entry)
      ⟨b.size, b.size + 1⟩ (r.repeated (.zeroOrMore false)) := by
  have hexit : f.exit < b.size := h.part.port_lt .exit
  have hle : a.size ≤ f.exit := (h.part.port_mem .exit).1
  -- the transition back to the entry may as well be added first
  have hfirst : a.Added ((((b.addEpsilon f.exit f.entry).addState false
        [.epsilon (b.size + 1), .epsilon f.entry]).addState true []).passOn f.exit (b.size + 1))
      ⟨b.size, b.size + 1⟩ (r.repeated (.zeroOrMore false)) := by
    have hback := h.join .exit .entry
    have hparts := Parts.cons hback.part (Parts.nil hback.part.hi_le)
    have hnew := added_of_parts [.epsilon (b.size + 1), .epsilon f.entry]
      [.epsilon (b.size + 1)] hparts hback.keep (by simp) (by simp [or_comm])
    rw [size_addEpsilon, add_zero, List.map_singleton, List.sum_singleton, Transition.label_epsilon,
      add_comm (Reading.join _ _ _ _ _)] at hnew
    exact hnew
  refine hfirst.congr ((((h.keep.trans (extends_addState _ _ _)).trans
    (extends_addState _ _ _)).passOn hle).addEpsilon hle) (by simp) (fun i t => ?_) fun i => ?_
  · rw [mem_transitionsAt_addEpsilon (by simp; omega), mem_transitionsAt_passOn (by simp; omega),
      mem_transitionsAt_passOn (by simp; omega)]
    simp only [transitionsAt_addState, size_addState, size_addEpsilon]
    split
    next hi => simp [hi, show b.size + 1 ≠ f.exit by omega]
    next =>
      split
      next hi => simp [hi, hexit.ne']
      next => rw [mem_transitionsAt_addEpsilon hexit, or_right_comm]
  · simp [acceptsAt_passOn, acceptsAt_addState]

/-- **A lazy `??`** has an entry of its own, which leads out before it
leads in. -/
theorem Added.zeroOrOne_lazy (h : a.Added b f r) :
    a.Added (b.addState false [.epsilon f.exit, .epsilon f.entry]) ⟨b.size, f.exit⟩
      (r.repeated (.zeroOrOne false)) := by
  have hext := extends_addState b false [.epsilon f.exit, .epsilon f.entry]
  have hf := h.part.extends hext
  generalize hc : b.addState false [.epsilon f.exit, .epsilon f.entry] = c at hext hf
  have hsize : c.size = b.size + 1 := by rw [← hc, size_addState]
  have hexit : f.exit ∈ Set.Ico a.size b.size := h.part.port_mem .exit
  have hentry : f.entry ∈ Set.Ico a.size b.size := h.part.port_mem .entry
  have htrans : c.transitionsAt b.size = [.epsilon f.exit, .epsilon f.entry] := by
    rw [← hc, transitionsAt_addState, if_pos rfl]
  have hnew : ∀ i ∈ Set.Ico a.size (b.size + 1), i ∈ Set.Ico a.size b.size ∨ i = b.size := by
    intro i hi
    simp only [Set.mem_Ico] at hi ⊢
    omega
  -- no transition leads to the new entry
  have htarget : ∀ i ∈ Set.Ico a.size (b.size + 1), ∀ t ∈ c.transitionsAt i,
      t.target ∈ Set.Ico a.size b.size := by
    intro i hi t ht
    obtain hi | rfl := hnew i hi
    · exact hf.closed i hi t ht
    · rw [htrans] at ht
      simp only [List.mem_cons, List.not_mem_nil, or_false] at ht
      obtain rfl | rfl := ht
      · exact hexit
      · exact hentry
  have hclosed : c.Closed a.size (b.size + 1) := fun i hi t ht => by
    have := htarget i hi t ht
    exact ⟨this.1, this.2.trans (Nat.lt_succ_self _)⟩
  have hmem : b.size ∈ Set.Ico a.size (b.size + 1) := ⟨h.keep.size_le, Nat.lt_succ_self _⟩
  refine ⟨h.keep.trans hext, ?_⟩
  rw [hsize]
  refine ⟨hsize.ge, fun p => ?_, hclosed, fun i hi => ?_, fun p q => ?_⟩
  · cases p
    · exact hmem
    · exact ⟨hexit.1, hexit.2.trans (Nat.lt_succ_self _)⟩
  · show _ ↔ i = f.exit
    obtain hi | rfl := hnew i hi
    · exact hf.acceptsAt_iff i hi
    · rw [← hc, acceptsAt_addState, if_pos rfl]
      exact iff_of_false Bool.false_ne_true hexit.2.ne'
  · match p, q with
    | .entry, .entry =>
      exact hclosed.reads_self hmem fun j hj t ht => (htarget j hj t ht).2.ne
    | .entry, .exit =>
      show c.reads b.size f.exit = _
      rw [reads_eq_add_sum, htrans, if_neg hexit.2.ne', zero_add]
      show 1 * c.reads f.exit f.exit + (1 * c.reads f.entry f.exit + 0) = _
      rw [one_mul, one_mul, add_zero]
      exact congrArg₂ (· + ·) (hf.reads_eq .exit .exit) (hf.reads_eq .entry .exit)
    | .exit, .exit => exact hf.reads_eq .exit .exit
    | .exit, .entry => exact hf.closed.reads_eq_zero hexit fun h => absurd h.2 (lt_irrefl _)

/-- **Repetitions of a part that was added.** -/
theorem Added.repetitionPart {q : Quantifier} (h : a.Added b f r)
    (hq : b.repetitionPart f q = .ok (g, c)) : a.Added c g (r.repeated q) := by
  match q, hq with
  | .oneOrMore true, rfl => exact h.join .exit .entry
  | .oneOrMore false, rfl => exact h.oneOrMore_lazy
  | .zeroOrOne true, rfl => exact h.join .entry .exit
  | .zeroOrOne false, rfl => exact h.zeroOrOne_lazy
  | .zeroOrMore true, rfl => exact (h.join .entry .exit).join .exit .entry
  | .zeroOrMore false, rfl => exact h.zeroOrMore_lazy

/-- A part behind one that was added. -/
theorem Added.andThen (h : a.Added b f r) (hg : b.Added c g s) :
    a.Added (c.passOn f.exit g.entry) ⟨f.entry, g.exit⟩ (r.andThen s) := by
  refine ⟨(h.keep.trans hg.keep).passOn (h.part.port_mem .exit).1, ?_⟩
  rw [size_passOn]
  exact (h.part.extends hg.keep).andThen hg.part

end Arena

namespace Expr

open Arena

/-! ## Trees -/

/-- A further item reads on behind a sequence. -/
theorem reading_sequence_concat {es : List Expr} (hne : es ≠ []) (e : Expr) :
    (sequence (es ++ [e])).reading = (sequence es).reading.andThen e.reading := by
  have after (r : Reading) (es : List Expr) :
      readingAfter r (es ++ [e]) = (readingAfter r es).andThen e.reading := by
    induction es generalizing r with
    | nil => rfl
    | cons d es ih => exact ih _
  cases es with
  | nil => exact absurd rfl hne
  | cons d ds => exact after d.reading ds

/-- **The construction makes a part that reads what the tree reads.** -/
theorem added_of_construct {e : Expr} {a b : Arena} {f : Fragment}
    (h : e.construct a = .ok (f, b)) : a.Added b f e.reading := by
  refine construct_induction (P := fun e a f b => a.Added b f e.reading)
    (Q := fun es a fs b => Extends a b ∧ b.Parts a.size b.size fs (readingOfAny es))
    ?symbol ?empty ?single ?concat ?nil ?cons ?choice ?emptyGroup ?group ?repetition h
  case symbol => exact fun s a => a.added_symbolPart s
  case empty => exact fun a => a.added_emptyPart
  case single => exact id
  case concat =>
    intro es e a f b g c hne _ _ hf hg
    rw [reading_sequence_concat hne]
    exact hf.andThen hg
  case nil => exact fun a => ⟨.refl a, .nil le_rfl⟩
  case cons =>
    exact fun _ _ hf ⟨hkeep, hparts⟩ =>
      ⟨hf.keep.trans hkeep, .cons (hf.part.extends hkeep) hparts⟩
  case choice => exact fun _ ⟨hkeep, hparts⟩ => added_choicePart hparts hkeep
  case emptyGroup => exact fun _ a => a.added_emptyPart.groupPart
  case group => exact fun _ hf => hf.groupPart
  case repetition => exact fun _ hf hq => hf.repetitionPart hq

/-- The parts of the trees, made one after the other. -/
theorem parts_of_constructAll {es : List Expr} {a b : Arena} {fs : List Fragment}
    (h : constructAll a es = .ok (fs, b)) :
    Extends a b ∧ b.Parts a.size b.size fs (readingOfAny es) := by
  refine constructAll_induction (P := fun e a f b => a.Added b f e.reading)
    (Q := fun es a fs b => Extends a b ∧ b.Parts a.size b.size fs (readingOfAny es))
    ?nil ?cons (fun e _ _ _ _ he => added_of_construct he) h
  case nil => exact fun a => ⟨.refl a, .nil le_rfl⟩
  case cons =>
    exact fun _ _ hf ⟨hkeep, hparts⟩ =>
      ⟨hf.keep.trans hkeep, .cons (hf.part.extends hkeep) hparts⟩

end Expr

end Regexp
