import Mathlib.Logic.Relation
import Regexp.Proofs.Construction

/-!
# The automaton of a tree is well formed

The automaton of a tree has a state for every position that it mentions,
numbers them by their positions, and accepts in its exit alone, which is
not its entry. Nor has it states for nothing: each of them lies on a way
from the entry to the exit, if no choice in the tree is without branches
(`Automaton.wellFormed_of_ofExpr?`). Whether a character can take such a
way is another question; a set may include none.

That all ways go on through a part is a matter of how parts are
connected. A block of states is *threaded* by parts if each of its states
lies between the ends of one of them (`Arena.Threaded`). Further
transitions keep it so, and each way to connect parts has a lemma that
says which part threads the larger block.
-/

namespace Regexp

namespace Automaton

/-- A transition leads from the state at `i` to the state at `j`,
whatever it consumes. -/
def Leads (a : Automaton) (i j : Nat) : Prop :=
  ∃ t ∈ a.transitionsAt i, t.target = j

/-- Transitions lead, one after the other, from the state at `i` to the
state at `j`. -/
def Reaches (a : Automaton) : Nat → Nat → Prop :=
  Relation.ReflTransGen a.Leads

end Automaton

namespace Expr

mutual

/-- Whether some choice in the tree has no branches. -/
def hasEmptyChoice : Expr → Bool
  | symbol _ => false
  | sequence es => anyEmptyChoice es
  | choice es => es.isEmpty || anyEmptyChoice es
  | emptyGroup _ => false
  | group _ e => e.hasEmptyChoice
  | repetition e _ => e.hasEmptyChoice
  | lookAround _ _ e => e.hasEmptyChoice

/-- Whether some choice in one of the trees has no branches. -/
def anyEmptyChoice : List Expr → Bool
  | [] => false
  | e :: es => e.hasEmptyChoice || anyEmptyChoice es

end

theorem anyEmptyChoice_eq_false_iff {es : List Expr} :
    anyEmptyChoice es = false ↔ ∀ e ∈ es, e.hasEmptyChoice = false := by
  induction es with
  | nil => simp [anyEmptyChoice]
  | cons e es ih => rw [anyEmptyChoice, Bool.or_eq_false_iff, ih, List.forall_mem_cons]

end Expr

namespace Arena

variable {a b c : Arena} {lo mid hi i j k : Nat} {f g : Fragment} {fs : List Fragment}
variable {r s : Reading} {l : Language Char} {q : Quantifier}

/-! ## Numbers -/

/-- **The number of every state is its position.** -/
def Numbered (a : Arena) : Prop :=
  ∀ (i : Nat) (s : State), a[i]? = some s → s.id = i

theorem numbered_empty : Numbered #[] := by
  intro i s h
  cases h

theorem Numbered.addState (h : a.Numbered) (accept : Bool) (ts : List Transition) :
    (a.addState accept ts).Numbered := by
  intro i s hs
  rw [Arena.addState, Array.getElem?_push] at hs
  split at hs
  next hi =>
    obtain rfl := Option.some.inj hs
    exact hi.symm
  next => exact h i s hs

theorem Numbered.modify (h : a.Numbered) {g : State → State} (hg : ∀ s, (g s).id = s.id) (j : Nat) :
    Numbered (Array.modify a j g) := by
  intro i s hs
  rw [Array.getElem?_modify] at hs
  split at hs
  next =>
    obtain ⟨s', hs', rfl⟩ := Option.map_eq_some_iff.1 hs
    rw [hg]
    exact h i s' hs'
  next => exact h i s hs

theorem Numbered.addEpsilon (h : a.Numbered) (source target : Nat) :
    (a.addEpsilon source target).Numbered :=
  h.modify (g := (·.add (.epsilon target))) (fun _ => rfl) source

theorem Numbered.passOn (h : a.Numbered) (exit target : Nat) : (a.passOn exit target).Numbered :=
  h.modify (g := fun s => (s.setAccept false).add (.epsilon target)) (fun _ => rfl) exit

theorem Numbered.emptyPart (h : a.Numbered) : a.emptyPart.2.Numbered :=
  (h.addState _ _).addState _ _

theorem Numbered.symbolPart (h : a.Numbered) (s : Symbol) : (a.symbolPart s).2.Numbered :=
  (h.addState _ _).addState _ _

theorem Numbered.choicePart (h : a.Numbered) (fs : List Fragment) :
    (a.choicePart fs).2.Numbered := by
  have leadOn (fs : List Fragment) (target : Nat) {a : Arena} (h : a.Numbered) :
      (fs.foldl (fun a f => a.passOn f.exit target) a).Numbered := by
    induction fs generalizing a with
    | nil => exact h
    | cons f fs ih => exact ih (h.passOn _ _)
  exact leadOn fs _ ((h.addState _ _).addState _ _)

theorem Numbered.repetitionPart (h : a.Numbered) (hq : a.repetitionPart f q = .ok (g, b)) :
    b.Numbered := by
  match q, hq with
  | .oneOrMore true, rfl => exact h.addEpsilon _ _
  | .oneOrMore false, rfl => exact ((h.addState _ _).passOn _ _).addEpsilon _ _
  | .zeroOrOne true, rfl => exact h.addEpsilon _ _
  | .zeroOrOne false, rfl => exact h.addState _ _
  | .zeroOrMore true, rfl => exact (h.addEpsilon _ _).addEpsilon _ _
  | .zeroOrMore false, rfl => exact (((h.addState _ _).addState _ _).passOn _ _).addEpsilon _ _

/-! ## Ways through parts -/

/-- A transition leads from the state at `i` to the state at `j`. -/
def Leads (a : Arena) (i j : Nat) : Prop :=
  (Automaton.mk a 0 0).Leads i j

/-- Transitions lead, one after the other, from the state at `i` to the
state at `j`. -/
def Reaches (a : Arena) (i j : Nat) : Prop :=
  (Automaton.mk a 0 0).Reaches i j

theorem leads_of_mem {t : Transition} (ht : t ∈ a.transitionsAt i) : a.Leads i t.target :=
  ⟨t, ht, rfl⟩

theorem Reaches.refl (a : Arena) (i : Nat) : a.Reaches i i :=
  Relation.ReflTransGen.refl

theorem Reaches.trans (hij : a.Reaches i j) (hjk : a.Reaches j k) : a.Reaches i k :=
  Relation.ReflTransGen.trans hij hjk

theorem Reaches.tail (hij : a.Reaches i j) (hjk : a.Leads j k) : a.Reaches i k :=
  Relation.ReflTransGen.tail hij hjk

theorem Reaches.head (hij : a.Leads i j) (hjk : a.Reaches j k) : a.Reaches i k :=
  Relation.ReflTransGen.head hij hjk

/-- All transitions of `a` are transitions of `b`. -/
def Grows (a b : Arena) : Prop :=
  ∀ i, ∀ t ∈ a.transitionsAt i, t ∈ b.transitionsAt i

theorem Grows.trans (hab : Grows a b) (hbc : Grows b c) : Grows a c := fun i t ht =>
  hbc i t (hab i t ht)

theorem Grows.reaches (h : Grows a b) (hij : a.Reaches i j) : b.Reaches i j := by
  have hleads : (Automaton.mk a 0 0).Leads ≤ (Automaton.mk b 0 0).Leads :=
    fun _ _ ⟨t, ht, htarget⟩ => ⟨t, h _ t ht, htarget⟩
  exact Relation.ReflTransGen.mono hleads _ _ hij

theorem Extends.grows (h : Extends a b) : Grows a b := by
  intro i t ht
  rw [transitionsAt_eq] at ht ⊢
  rcases lt_or_ge i a.size with hi | hi
  · rwa [h.getElem?_eq i hi]
  · rw [Array.getElem?_eq_none hi] at ht
    cases ht

theorem grows_addEpsilon {source : Nat} (hs : source < a.size) (target : Nat) :
    Grows a (a.addEpsilon source target) := fun _ _ ht =>
  (mem_transitionsAt_addEpsilon hs).2 (.inl ht)

theorem grows_passOn {exit : Nat} (hs : exit < a.size) (target : Nat) :
    Grows a (a.passOn exit target) := fun _ _ ht =>
  (mem_transitionsAt_passOn hs).2 (.inl ht)

theorem leads_passOn {exit : Nat} (hs : exit < a.size) (target : Nat) :
    (a.passOn exit target).Leads exit target :=
  leads_of_mem (t := .epsilon target) ((mem_transitionsAt_passOn hs).2 (.inr ⟨rfl, rfl⟩))

/-- **Every state of the block lies between the ends of a part**: it is
reached from the entry of one of the parts and reaches the exit of the
same part. -/
def Threaded (a : Arena) (lo hi : Nat) (fs : List Fragment) : Prop :=
  ∀ i ∈ Set.Ico lo hi, ∃ f ∈ fs, a.Reaches f.entry i ∧ a.Reaches i f.exit

/-- The same of a single part. -/
theorem threaded_singleton :
    a.Threaded lo hi [f] ↔ ∀ i ∈ Set.Ico lo hi, a.Reaches f.entry i ∧ a.Reaches i f.exit := by
  simp only [Threaded, List.mem_singleton, exists_eq_left]

theorem Threaded.grows (h : a.Threaded lo hi fs) (hab : Grows a b) : b.Threaded lo hi fs := by
  intro i hi
  obtain ⟨f, hf, hin, hout⟩ := h i hi
  exact ⟨f, hf, hab.reaches hin, hab.reaches hout⟩

/-- Blocks one behind the other. -/
theorem Threaded.cons (hf : a.Threaded lo mid [f]) (hfs : a.Threaded mid hi fs) :
    a.Threaded lo hi (f :: fs) := by
  intro i hi
  rcases lt_or_ge i mid with him | him
  · obtain ⟨g, hg, h⟩ := hf i ⟨hi.1, him⟩
    exact ⟨g, List.mem_cons.2 (.inl (List.mem_singleton.1 hg)), h⟩
  · obtain ⟨g, hg, h⟩ := hfs i ⟨him, hi.2⟩
    exact ⟨g, List.mem_cons_of_mem f hg, h⟩

/-- **One part behind the other.** -/
theorem Threaded.andThen (hf : a.Threaded lo mid [f]) (hg : a.Threaded mid hi [g])
    (hmem : f.exit ∈ Set.Ico lo mid) (hmem' : g.entry ∈ Set.Ico mid hi) (hsize : f.exit < a.size) :
    (a.passOn f.exit g.entry).Threaded lo hi [⟨f.entry, g.exit⟩] := by
  have hgrows := grows_passOn hsize g.entry
  have hlead := leads_passOn hsize g.entry
  rw [threaded_singleton] at *
  intro i hi
  rcases lt_or_ge i mid with him | him
  · obtain ⟨hin, hout⟩ := hf i ⟨hi.1, him⟩
    have hbehind := hgrows.reaches (hg _ hmem').2
    exact ⟨hgrows.reaches hin, ((hgrows.reaches hout).tail hlead).trans hbehind⟩
  · obtain ⟨hin, hout⟩ := hg i ⟨him, hi.2⟩
    have hbefore := hgrows.reaches (hf _ hmem).1
    exact ⟨(hbefore.tail hlead).trans (hgrows.reaches hin), hgrows.reaches hout⟩

/-- **Parts between a new entry and a new exit**, of which there is one,
or a transition from the entry to the exit. -/
theorem Threaded.enclosed {ts : List Transition} (h : b.Threaded lo hi fs)
    (henc : a.Encloses b lo hi fs ts) (hports : ∀ f ∈ fs, ∀ p, f.port p ∈ Set.Ico lo hi)
    (hway : fs ≠ [] ∨ ts ≠ []) : b.Threaded lo (hi + 2) [⟨hi, hi + 1⟩] := by
  have hin : ∀ f ∈ fs, b.Leads hi f.entry := fun f hf =>
    leads_of_mem (t := .epsilon f.entry) ((henc.mem_entry_iff _).2 (.inl ⟨f, hf, rfl⟩))
  have hout : ∀ f ∈ fs, b.Leads f.exit (hi + 1) := fun f hf =>
    leads_of_mem (t := .epsilon (hi + 1))
      ((henc.mem_iff _ (hports f hf .exit) _).2 (.inr ⟨⟨f, hf, rfl⟩, rfl⟩))
  have hthrough : b.Reaches hi (hi + 1) := by
    obtain hfs | hts := hway
    · obtain ⟨f, hf⟩ := List.exists_mem_of_ne_nil fs hfs
      obtain ⟨g, hg, hgin, hgout⟩ := h _ (hports f hf .entry)
      exact .head (hin g hg) ((hgin.trans hgout).tail (hout g hg))
    · obtain ⟨t, ht⟩ := List.exists_mem_of_ne_nil ts hts
      have hlead := leads_of_mem ((henc.mem_entry_iff t).2 (.inr ht))
      rw [henc.target_eq t ht] at hlead
      exact .head hlead (.refl b _)
  rw [threaded_singleton]
  intro i hi'
  obtain hi' | rfl | rfl := Encloses.cases_mem hi'
  · obtain ⟨f, hf, hfin, hfout⟩ := h i hi'
    exact ⟨.head (hin f hf) hfin, hfout.tail (hout f hf)⟩
  · exact ⟨.refl b _, hthrough⟩
  · exact ⟨hthrough, .refl b _⟩

theorem grows_foldl_passOn (hfs : ∀ f ∈ fs, f.exit < a.size) (target : Nat) :
    Grows a (fs.foldl (fun a f => a.passOn f.exit target) a) := fun _ _ ht =>
  (mem_transitionsAt_foldl_passOn hfs).2 (.inl ht)

/-- A new entry and a new exit, appended behind the parts. -/
theorem Threaded.addStates (h : b.Threaded lo b.size fs) (us ts : List Transition)
    (hparts : b.Parts lo b.size fs l) (hts : ∀ t ∈ ts, t.target = b.size + 1)
    (hus : ∀ t, t ∈ us ↔ (∃ f ∈ fs, t = .epsilon f.entry) ∨ t ∈ ts) (hway : fs ≠ [] ∨ ts ≠ []) :
    (fs.foldl (fun b' f => b'.passOn f.exit (b.size + 1))
      ((b.addState false us).addState true [])).Threaded lo (b.size + 2)
        [⟨b.size, b.size + 1⟩] := by
  have hnew : Extends b ((b.addState false us).addState true []) :=
    (extends_addState _ _ _).trans (extends_addState _ _ _)
  have hlt : ∀ f ∈ fs, f.exit < ((b.addState false us).addState true []).size := fun f hf =>
    (hparts.port_mem hf .exit).2.trans_le hnew.size_le
  have hgrows := hnew.grows.trans (grows_foldl_passOn hlt (b.size + 1))
  exact (h.grows hgrows).enclosed (encloses_addState hparts hts hus)
    (fun f hf p => hparts.port_mem hf p) hway

/-- Nothing is between the ends of no part. -/
theorem threaded_nil (a : Arena) (lo : Nat) : a.Threaded lo lo [] := fun _ hi =>
  absurd (hi.1.trans_lt hi.2) (lt_irrefl _)

theorem threaded_emptyPart (a : Arena) :
    a.emptyPart.2.Threaded a.size a.emptyPart.2.size [a.emptyPart.1] := by
  have h := (a.threaded_nil a.size).addStates [.epsilon (a.size + 1)] [.epsilon (a.size + 1)]
    (Parts.nil le_rfl) (by simp) (by simp) (by simp)
  simpa [emptyPart] using h

theorem threaded_symbolPart (a : Arena) (s : Symbol) :
    (a.symbolPart s).2.Threaded a.size (a.symbolPart s).2.size [(a.symbolPart s).1] := by
  have h := (a.threaded_nil a.size).addStates [.symbol s (a.size + 1)]
    [.symbol s (a.size + 1)] (Parts.nil le_rfl) (by simp) (by simp) (by simp)
  simpa [symbolPart] using h

theorem Threaded.choicePart (h : b.Threaded lo b.size fs) (hparts : b.Parts lo b.size fs l)
    (hfs : fs ≠ []) : (b.choicePart fs).2.Threaded lo (b.choicePart fs).2.size
      [(b.choicePart fs).1] := by
  have h := h.addStates (fs.map (.epsilon ·.entry)) [] hparts (by simp)
    (by simp [eq_comm]) (.inl hfs)
  simpa [Arena.choicePart] using h

theorem Threaded.groupPart (h : b.Threaded a.size b.size [f]) (hf : a.Added b f r) :
    (b.groupPart f).2.Threaded a.size (b.groupPart f).2.size [(b.groupPart f).1] :=
  h.choicePart (Parts.cons hf.part (Parts.nil hf.part.hi_le)) (List.cons_ne_nil f [])

/-- **The repetition of a part threads what the part threads, and the
states added for it.** -/
theorem Threaded.repetitionPart (h : b.Threaded a.size b.size [f]) (hf : a.Added b f r)
    (hq : b.repetitionPart f q = .ok (g, c)) : c.Threaded a.size c.size [g] := by
  have hentry : f.entry ∈ Set.Ico a.size b.size := hf.part.port_mem .entry
  have hexit : f.exit ∈ Set.Ico a.size b.size := hf.part.port_mem .exit
  have hparts := Parts.cons hf.part (Parts.nil hf.part.hi_le)
  match q, hq with
  | .oneOrMore true, rfl =>
    rw [size_addEpsilon]
    exact h.grows (grows_addEpsilon hexit.2 _)
  | .zeroOrOne true, rfl =>
    rw [size_addEpsilon]
    exact h.grows (grows_addEpsilon hentry.2 _)
  | .zeroOrMore true, rfl =>
    rw [size_addEpsilon, size_addEpsilon]
    refine (h.grows (grows_addEpsilon hentry.2 _)).grows (grows_addEpsilon ?_ _)
    rw [size_addEpsilon]
    exact hexit.2
  | .oneOrMore false, rfl =>
    have hnew : (b.addState true []).Threaded b.size (b.size + 1) [⟨b.size, b.size⟩] := by
      rw [threaded_singleton]
      intro i hi
      obtain rfl : i = b.size := le_antisymm (Nat.le_of_lt_succ hi.2) hi.1
      exact ⟨.refl _ _, .refl _ _⟩
    have hlt : f.exit < (b.addState true []).size := by
      rw [size_addState]
      exact hexit.2.trans (Nat.lt_succ_self _)
    have hthrough := (h.grows (extends_addState b true []).grows).andThen hnew hexit
      ⟨le_rfl, Nat.lt_succ_self _⟩ hlt
    rw [size_addEpsilon, size_passOn, size_addState]
    refine hthrough.grows (grows_addEpsilon ?_ _)
    rwa [size_passOn]
  | .zeroOrOne false, rfl =>
    have hgrows := (extends_addState b false [.epsilon f.exit, .epsilon f.entry]).grows
    have hleads : ∀ t ∈ [Transition.epsilon f.exit, .epsilon f.entry],
        (b.addState false [.epsilon f.exit, .epsilon f.entry]).Leads b.size t.target := fun t ht =>
      leads_of_mem (by rwa [transitionsAt_addState, if_pos rfl])
    rw [size_addState]
    rw [threaded_singleton] at h ⊢
    intro i hi
    obtain hi | rfl := Nat.lt_succ_iff_lt_or_eq.1 hi.2
    · obtain ⟨hin, hout⟩ := h i ⟨‹_ ∧ _›.1, hi⟩
      exact ⟨.head (hleads (.epsilon f.entry) (by simp)) (hgrows.reaches hin), hgrows.reaches hout⟩
    · exact ⟨.refl _ _, .head (hleads (.epsilon f.exit) (by simp)) (.refl _ _)⟩
  | .zeroOrMore false, rfl =>
    have hthrough := h.addStates [.epsilon (b.size + 1), .epsilon f.entry]
      [.epsilon (b.size + 1)] hparts (by simp) (by simp [or_comm]) (by simp)
    rw [size_addEpsilon, size_passOn, size_addState, size_addState]
    refine hthrough.grows (grows_addEpsilon ?_ _)
    simp only [List.foldl_cons, List.foldl_nil, size_passOn, size_addState]
    exact hexit.2.trans (by omega)

end Arena

namespace Expr

open Arena

variable {e : Expr} {a b : Arena} {f : Fragment}

/-! ## Trees -/

/-- **States are numbered as they are made.** -/
theorem numbered_of_construct (h : e.construct a = .ok (f, b)) (ha : a.Numbered) :
    b.Numbered := by
  refine construct_induction (P := fun _ a _ b => a.Numbered → b.Numbered)
    (Q := fun _ a _ b => a.Numbered → b.Numbered) ?symbol ?empty ?single ?concat ?nil ?cons ?choice
    ?emptyGroup ?group ?repetition h ha
  case symbol => exact fun s a ha => ha.symbolPart s
  case empty => exact fun a ha => ha.emptyPart
  case single => exact id
  case concat => exact fun _ _ _ hf hg ha => (hg (hf ha)).passOn _ _
  case nil => exact fun _ ha => ha
  case cons => exact fun _ _ hf hfs ha => hfs (hf ha)
  case choice => exact fun _ hfs ha => (hfs ha).choicePart _
  case emptyGroup => exact fun _ a ha => ha.emptyPart.choicePart _
  case group => exact fun _ hf ha => (hf ha).choicePart _
  case repetition => exact fun _ hf hq ha => (hf ha).repetitionPart hq

/-- **The ends of a part are two states.** -/
theorem entry_ne_exit_of_construct (h : e.construct a = .ok (f, b)) : f.entry ≠ f.exit := by
  refine construct_induction (P := fun _ _ f _ => f.entry ≠ f.exit)
    (Q := fun _ _ _ _ => True) ?symbol ?empty ?single ?concat ?nil ?cons ?choice
    ?emptyGroup ?group ?repetition h
  case symbol => exact fun s a => a.size.succ_ne_self.symm
  case empty => exact fun a => a.size.succ_ne_self.symm
  case single => exact id
  case concat =>
    -- the items of a sequence stand one behind the other
    intro es e a f b g c _ hes he _ _
    have hentry : f.entry < b.size := (added_of_construct hes).part.port_lt .entry
    have hexit : b.size ≤ g.exit := ((added_of_construct he).part.port_mem .exit).1
    exact (hentry.trans_le hexit).ne
  case nil => exact fun _ => trivial
  case cons => exact fun _ _ _ _ => trivial
  case choice => exact fun _ _ => (Nat.succ_ne_self _).symm
  case emptyGroup => exact fun _ _ => (Nat.succ_ne_self _).symm
  case group => exact fun _ _ => (Nat.succ_ne_self _).symm
  case repetition =>
    intro e q a f b g c he hne hq
    have hport : ∀ p, f.port p < b.size := (added_of_construct he).part.port_lt
    match q, hq with
    | .oneOrMore true, rfl => exact hne
    | .oneOrMore false, rfl => exact (hport .entry).ne
    | .zeroOrOne true, rfl => exact hne
    | .zeroOrOne false, rfl => exact (hport .exit).ne'
    | .zeroOrMore true, rfl => exact hne
    | .zeroOrMore false, rfl => exact b.size.succ_ne_self.symm

/-- **The part of a tree leaves out none of its states**, if every choice
in the tree has a branch. -/
theorem threaded_of_construct (h : e.construct a = .ok (f, b)) (he : e.hasEmptyChoice = false) :
    b.Threaded a.size b.size [f] := by
  refine construct_induction
    (P := fun e a f b => e.hasEmptyChoice = false → b.Threaded a.size b.size [f])
    (Q := fun es a fs b => fs.isEmpty = es.isEmpty
      ∧ (anyEmptyChoice es = false → b.Threaded a.size b.size fs))
    ?symbol ?empty ?single ?concat ?nil ?cons ?choice ?emptyGroup ?group ?repetition h he
  case symbol => exact fun s a _ => a.threaded_symbolPart s
  case empty => exact fun a _ => a.threaded_emptyPart
  case single =>
    intro e a f b hf he
    rw [hasEmptyChoice, anyEmptyChoice_eq_false_iff, List.forall_mem_singleton] at he
    exact hf he
  case concat =>
    intro es e a f b g c _ hes he hf hg hchoice
    rw [hasEmptyChoice, anyEmptyChoice_eq_false_iff, List.forall_mem_append,
      List.forall_mem_singleton, ← anyEmptyChoice_eq_false_iff] at hchoice
    have hes := added_of_construct hes
    have he := added_of_construct he
    rw [size_passOn]
    exact ((hf hchoice.1).grows he.keep.grows).andThen (hg hchoice.2) (hes.part.port_mem .exit)
      (he.part.port_mem .entry) ((hes.part.port_lt .exit).trans_le he.keep.size_le)
  case nil => exact fun a => ⟨rfl, fun _ => a.threaded_nil _⟩
  case cons =>
    intro e es a f b fs c _ hes hf hfs
    refine ⟨rfl, fun hchoice => ?_⟩
    rw [anyEmptyChoice, Bool.or_eq_false_iff] at hchoice
    have hkeep := (parts_of_constructAll hes).1
    exact ((hf hchoice.1).grows hkeep.grows).cons (hfs.2 hchoice.2)
  case choice =>
    intro es a fs b hes hfs hchoice
    rw [hasEmptyChoice, Bool.or_eq_false_iff, ← hfs.1, List.isEmpty_eq_false_iff] at hchoice
    have hparts := (parts_of_constructAll hes).2
    exact (hfs.2 hchoice.2).choicePart hparts hchoice.1
  case emptyGroup => exact fun _ a _ => a.threaded_emptyPart.groupPart a.added_emptyPart
  case group => exact fun he hf hchoice => (hf hchoice).groupPart (added_of_construct he)
  case repetition =>
    exact fun he hf hq hchoice => (hf hchoice).repetitionPart (added_of_construct he) hq

end Expr

namespace Automaton

variable {a : Automaton}

/-- A part that makes up the whole automaton. -/
theorem wellFormed_of_added {a : Arena} {f : Fragment} {r : Reading} (h : Arena.Added #[] a f r) :
    (Automaton.mk a f.entry f.exit).WellFormed := by
  refine ⟨h.part.port_lt .entry, h.part.port_lt .exit, fun i t ht => ?_⟩
  rcases lt_or_ge i a.size with hi | hi
  · exact (h.part.closed i ⟨i.zero_le, hi⟩ t ht).2
  · rw [transitionsAt, Array.getElem?_eq_none hi] at ht
    cases ht

/-- **The automaton of a tree is well formed**: the number of a state is
its position, every position mentioned exists, the exit is the one
accepting state and is not the entry. If every choice in the tree has a
branch, all states lie between the entry and the exit. -/
theorem wellFormed_of_ofExpr? {e? : Option Expr} (h : ofExpr? e? = .ok a) :
    (∀ i (hi : i < a.states.size), a.states[i].id = i)
      ∧ a.WellFormed
      ∧ (∀ i < a.states.size, a.acceptsAt i = true ↔ i = a.exit)
      ∧ a.entry ≠ a.exit
      ∧ ((∀ e ∈ e?, e.hasEmptyChoice = false) →
          ∀ i < a.states.size, a.Reaches a.entry i ∧ a.Reaches i a.exit) := by
  have made : ∃ (f : Fragment) (states : Arena) (r : Reading), a = ⟨states, f.entry, f.exit⟩
      ∧ states.Numbered ∧ Arena.Added #[] states f r ∧ f.entry ≠ f.exit
      ∧ ((∀ e ∈ e?, e.hasEmptyChoice = false) → states.Threaded 0 states.size [f]) := by
    cases e? with
    | none =>
      obtain rfl := Except.ok.inj h
      exact ⟨_, _, _, rfl, Arena.numbered_empty.emptyPart, Arena.added_emptyPart #[],
        Nat.zero_ne_one, fun _ => Arena.threaded_emptyPart #[]⟩
    | some e =>
      obtain ⟨⟨f, states⟩, hc, rfl⟩ := map_eq_ok_iff.1 h
      exact ⟨f, states, _, rfl, Expr.numbered_of_construct hc Arena.numbered_empty,
        Expr.added_of_construct hc, Expr.entry_ne_exit_of_construct hc,
        fun he => Expr.threaded_of_construct hc (he e rfl)⟩
  obtain ⟨f, states, r, rfl, hnumbered, hadded, hne, hthreaded⟩ := made
  refine ⟨fun i hi => hnumbered i _ (Array.getElem?_eq_getElem hi), wellFormed_of_added hadded,
    fun i hi => hadded.part.acceptsAt_iff i ⟨i.zero_le, hi⟩, hne, fun he i hi => ?_⟩
  exact Arena.threaded_singleton.1 (hthreaded he) i ⟨i.zero_le, hi⟩

/-- In the automaton of `(a|[])*?` every state lies between the entry and
the exit, also those on the way through the set that includes no
character. -/
theorem wellFormed_of_ofExpr?_lazy :
    ∃ a, ofExpr? (some (.repetition (.choice [.char 'a', .symbol (.set ⟨[], false⟩)])
        (.zeroOrMore false))) = .ok a
      ∧ (∀ i (hi : i < a.states.size), a.states[i].id = i)
      ∧ a.WellFormed
      ∧ (∀ i < a.states.size, a.acceptsAt i = true ↔ i = a.exit)
      ∧ a.entry ≠ a.exit
      ∧ ∀ i < a.states.size, a.Reaches a.entry i ∧ a.Reaches i a.exit := by
  obtain ⟨hid, hwell, haccept, hne, hreach⟩ := wellFormed_of_ofExpr? (show ofExpr? (some
    (.repetition (.choice [.char 'a', .symbol (.set ⟨[], false⟩)]) (.zeroOrMore false))) = _ from
      rfl)
  refine ⟨_, rfl, hid, hwell, haccept, hne, hreach fun e he => ?_⟩
  obtain rfl := Option.some.inj he
  rfl

end Automaton

end Regexp
