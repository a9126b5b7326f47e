import Regexp.Proofs.Canonical
import Regexp.Proofs.Construction

/-!
# Every subtree makes a block of its own

What the construction appends for a subtree depends on the subtree alone.
Wherever in the table it is appended, it is the block that an empty table
would get, with all numbers and targets shifted to the new place
(`Expr.construct_behind`). The states before it stay as they
are, no transition leads out of the block or into it, and its exit is its
only accepting state.

A greedy quantifier connects the ends of its body and adds no state. No
path goes wrong there if nothing leads into the entry of the body and
nothing leaves its exit. This is so for symbols, groups and choices, which
have ends of their own (`Arena.HasOwnEnds`), and the parser repeats
nothing but symbols and groups (`Expr.repeatsAtoms_of_parse`).
`Expr.construct_appends_block` puts all of this together.
-/

namespace Regexp

/-! ## Shifted blocks -/

/-- The same transition to a state that stands `k` positions later. -/
def Transition.shift (k : Nat) : Transition → Transition
  | epsilon target => .epsilon (k + target)
  | symbol s target => .symbol s (k + target)

/-- The same state, it and all that it leads to `k` positions later. -/
def State.shift (k : Nat) (s : State) : State :=
  ⟨k + s.id, s.accept, s.transitions.map (·.shift k)⟩

/-- The same ends `k` positions later. -/
def Fragment.shift (k : Nat) (f : Fragment) : Fragment :=
  ⟨k + f.entry, k + f.exit⟩

@[simp] theorem Fragment.entry_shift (k : Nat) (f : Fragment) :
    (f.shift k).entry = k + f.entry := rfl

@[simp] theorem Fragment.exit_shift (k : Nat) (f : Fragment) : (f.shift k).exit = k + f.exit := rfl

namespace Arena

variable {a b c : Arena} {f : Fragment} {fs : List Fragment} {lo : Nat} {r : Reading}
variable {l : Language Char}

/-- **The block `c` behind the states of `a`**, with all numbers and
targets shifted. -/
def behind (c a : Arena) : Arena :=
  a ++ c.map (State.shift a.size)

/-- A part behind the states of `a`. -/
def partBehind (a : Arena) (r : Fragment × Arena) : Fragment × Arena :=
  (r.1.shift a.size, r.2.behind a)

@[simp] theorem size_behind (c a : Arena) : (c.behind a).size = a.size + c.size := by
  simp [behind]

@[simp] theorem behind_empty (a : Arena) : behind #[] a = a := by
  simp [behind]

theorem addState_behind (c a : Arena) (accept : Bool) (ts : List Transition) :
    (c.behind a).addState accept (ts.map (·.shift a.size)) = (c.addState accept ts).behind a := by
  rw [addState, size_behind, addState, behind, behind, Array.map_push, Array.append_push]
  rfl

/-- A change of a state is made before the shift or after it. -/
theorem modify_behind {h h' : State → State}
    (hh : ∀ s, h' (s.shift a.size) = (h s).shift a.size) (c : Arena) (i : Nat) :
    (c.behind a).modify (a.size + i) h' = behind (c.modify i h) a := by
  refine Array.ext_getElem? fun j => ?_
  rw [behind, behind, Array.getElem?_modify, Array.getElem?_append, Array.getElem?_append,
    Array.getElem?_map, Array.getElem?_map, Array.getElem?_modify]
  rcases Nat.lt_or_ge j a.size with hj | hj
  · have hne : a.size + i ≠ j := by omega
    rw [if_neg hne, if_pos hj, if_pos hj]
  · have hnot : ¬ j < a.size := Nat.not_lt.2 hj
    have hi : a.size + i = j ↔ i = j - a.size := by omega
    rw [if_neg hnot, if_neg hnot]
    by_cases hij : i = j - a.size
    · rw [if_pos (hi.2 hij), if_pos hij, Option.map_map, Option.map_map]
      exact congrArg (Option.map · _) (funext hh)
    · rw [if_neg (mt hi.1 hij), if_neg hij]

theorem addEpsilon_behind (c a : Arena) (source target : Nat) :
    (c.behind a).addEpsilon (a.size + source) (a.size + target)
      = (c.addEpsilon source target).behind a :=
  modify_behind (fun s => by simp [State.shift, State.add, Transition.shift]) c source

theorem passOn_behind (c a : Arena) (exit target : Nat) :
    (c.behind a).passOn (a.size + exit) (a.size + target) = (c.passOn exit target).behind a :=
  modify_behind (fun s => by simp [State.shift, State.add, State.setAccept, Transition.shift]) c
    exit

/-! ### Parts -/

/-- A further part of two states, the second of which accepts. -/
theorem addStates_behind (c a : Arena) (ts : List Transition) :
    ((c.behind a).addState false (ts.map (·.shift a.size))).addState true []
      = ((c.addState false ts).addState true []).behind a := by
  rw [addState_behind]
  exact addState_behind _ a true []

theorem emptyPart_behind (c a : Arena) : (c.behind a).emptyPart = partBehind a c.emptyPart := by
  rw [emptyPart, size_behind]
  exact congrArg (Prod.mk _) (addStates_behind c a [.epsilon (c.size + 1)])

theorem symbolPart_behind (c a : Arena) (s : Symbol) :
    (c.behind a).symbolPart s = partBehind a (c.symbolPart s) := by
  rw [symbolPart, size_behind]
  exact congrArg (Prod.mk _) (addStates_behind c a [.symbol s (c.size + 1)])

theorem choicePart_behind (c a : Arena) (fs : List Fragment) :
    (c.behind a).choicePart (fs.map (·.shift a.size)) = partBehind a (c.choicePart fs) := by
  have hfold (b : Arena) (target : Nat) :
      (fs.map (·.shift a.size)).foldl (fun b f => b.passOn f.exit (a.size + target)) (b.behind a)
        = (fs.foldl (fun b f => b.passOn f.exit target) b).behind a := by
    induction fs generalizing b with
    | nil => rfl
    | cons f fs ih =>
      rw [List.map_cons, List.foldl_cons, List.foldl_cons, ← ih, ← passOn_behind]
      rfl
  have hentries : (fs.map (·.shift a.size)).map (fun f => Transition.epsilon f.entry)
      = (fs.map fun f => Transition.epsilon f.entry).map (·.shift a.size) := by
    rw [List.map_map, List.map_map]
    rfl
  rw [choicePart, size_behind, hentries, addStates_behind]
  exact congrArg (Prod.mk _) (hfold _ (c.size + 1))

/-- A repetition adds the same transitions everywhere. -/
theorem repetitionPart_behind (c a : Arena) (f : Fragment) (q : Quantifier) :
    (c.behind a).repetitionPart (f.shift a.size) q
      = (c.repetitionPart f q).map (partBehind a) := by
  have hexit : (c.behind a).addState true [] = (c.addState true []).behind a :=
    addState_behind c a true []
  have hentry : (c.behind a).addState false
        [.epsilon (a.size + f.exit), .epsilon (a.size + f.entry)]
      = (c.addState false [.epsilon f.exit, .epsilon f.entry]).behind a :=
    addState_behind c a false [.epsilon f.exit, .epsilon f.entry]
  have hends : ((c.behind a).addState false
        [.epsilon (a.size + (c.size + 1)), .epsilon (a.size + f.entry)]).addState true []
      = ((c.addState false [.epsilon (c.size + 1), .epsilon f.entry]).addState true []).behind a :=
    addStates_behind c a [.epsilon (c.size + 1), .epsilon f.entry]
  cases q with
  | oneOrMore greedy =>
    cases greedy <;> simp only [repetitionPart, size_behind, Fragment.entry_shift,
      Fragment.exit_shift, hexit, passOn_behind, addEpsilon_behind] <;> rfl
  | zeroOrOne greedy =>
    cases greedy <;> simp only [repetitionPart, size_behind, Fragment.entry_shift,
      Fragment.exit_shift, hentry, addEpsilon_behind] <;> rfl
  | zeroOrMore greedy =>
    cases greedy <;> simp only [repetitionPart, size_behind, Fragment.entry_shift,
      Fragment.exit_shift, Nat.add_assoc, hends, passOn_behind, addEpsilon_behind] <;> rfl
  | _ => rfl

/-! ## Ends of their own -/

/-- **A block with ends of its own**: no transition of the block leads to
its entry, and none leaves its exit. -/
structure HasOwnEnds (a : Arena) (lo hi : Nat) (f : Fragment) : Prop where
  /-- The entry is entered from outside only. -/
  target_ne : ∀ i ∈ Set.Ico lo hi, ∀ t ∈ a.transitionsAt i, t.target ≠ f.entry
  /-- Nothing leaves the exit. -/
  exit_eq : a.transitionsAt f.exit = []

/-- A new entry and a new exit around parts are ends of their own. -/
theorem hasOwnEnds_addStates (us ts : List Transition) (h : b.Parts lo b.size fs l)
    (hts : ∀ t ∈ ts, t.target = b.size + 1)
    (hus : ∀ t, t ∈ us ↔ (∃ f ∈ fs, t = .epsilon f.entry) ∨ t ∈ ts) :
    (fs.foldl (fun b' f => b'.passOn f.exit (b.size + 1))
      ((b.addState false us).addState true [])).HasOwnEnds lo (b.size + 2)
        ⟨b.size, b.size + 1⟩ :=
  have henc := encloses_addState h hts hus
  ⟨fun _ hi _ ht => henc.target_ne_entry h hi ht, henc.exit_eq⟩

theorem hasOwnEnds_symbolPart (a : Arena) (s : Symbol) :
    (a.symbolPart s).2.HasOwnEnds a.size (a.symbolPart s).2.size (a.symbolPart s).1 := by
  have h := hasOwnEnds_addStates [.symbol s (a.size + 1)] [.symbol s (a.size + 1)]
    (Parts.nil (le_refl a.size)) (by simp) (by simp)
  simpa [symbolPart] using h

theorem hasOwnEnds_choicePart (h : b.Parts lo b.size fs l) :
    (b.choicePart fs).2.HasOwnEnds lo (b.choicePart fs).2.size (b.choicePart fs).1 := by
  have h := hasOwnEnds_addStates (fs.map (.epsilon ·.entry)) [] h (by simp) (by simp [eq_comm])
  simpa [choicePart] using h

/-- A group has ends of its own. -/
theorem Added.hasOwnEnds_groupPart (h : a.Added b f r) :
    (b.groupPart f).2.HasOwnEnds a.size (b.groupPart f).2.size (b.groupPart f).1 :=
  hasOwnEnds_choicePart (Parts.cons h.part (Parts.nil h.part.hi_le))

end Arena

namespace Expr

open Arena (partBehind)

variable {e : Expr} {es : List Expr} {a : Arena}

theorem constructAfter_behind
    (h : ∀ e ∈ es, ∀ c : Arena, e.construct (c.behind a) = (e.construct c).map (partBehind a))
    (f : Fragment) (c : Arena) :
    constructAfter (f.shift a.size) (c.behind a) es = (constructAfter f c es).map (partBehind a) := by
  induction es generalizing f c with
  | nil => rfl
  | cons e es ih =>
    obtain ⟨he, hes⟩ := List.forall_mem_cons.1 h
    rw [constructAfter, constructAfter, he]
    cases e.construct c with
    | error fault => rfl
    | ok r =>
      show constructAfter _ ((r.2.behind a).passOn (a.size + f.exit) (a.size + r.1.entry)) es = _
      rw [Arena.passOn_behind]
      exact ih hes ⟨f.entry, r.1.exit⟩ _

theorem constructAll_behind
    (h : ∀ e ∈ es, ∀ c : Arena, e.construct (c.behind a) = (e.construct c).map (partBehind a))
    (c : Arena) :
    constructAll (c.behind a) es
      = (constructAll c es).map fun r => (r.1.map (·.shift a.size), r.2.behind a) := by
  induction es generalizing c with
  | nil => rfl
  | cons e es ih =>
    obtain ⟨he, hes⟩ := List.forall_mem_cons.1 h
    rw [constructAll, constructAll, he]
    cases e.construct c with
    | error fault => rfl
    | ok r =>
      dsimp only [Except.map, partBehind]
      rw [ih hes]
      cases constructAll r.2 es <;> rfl

/-- **The construction makes the same block everywhere.** -/
theorem construct_behind (e : Expr) (c a : Arena) :
    e.construct (c.behind a) = (e.construct c).map (partBehind a) := by
  induction e generalizing c with
  | symbol s => exact congrArg Except.ok (c.symbolPart_behind a s)
  | sequence es ih =>
    cases es with
    | nil => exact congrArg Except.ok (c.emptyPart_behind a)
    | cons e es =>
      obtain ⟨he, hes⟩ := List.forall_mem_cons.1 ih
      rw [construct, construct, he]
      cases e.construct c with
      | error fault => rfl
      | ok r => exact constructAfter_behind hes r.1 r.2
  | choice es ih =>
    rw [construct, construct, constructAll_behind ih]
    cases constructAll c es with
    | error fault => rfl
    | ok r => exact congrArg Except.ok (r.2.choicePart_behind a r.1)
  | emptyGroup l =>
    rw [construct, construct, Arena.emptyPart_behind]
    exact congrArg Except.ok (c.emptyPart.2.choicePart_behind a [c.emptyPart.1])
  | group l e ih =>
    rw [construct, construct, ih]
    cases e.construct c with
    | error fault => rfl
    | ok r => exact congrArg Except.ok (r.2.choicePart_behind a [r.1])
  | repetition e q ih =>
    rw [construct, construct, ih]
    cases e.construct c with
    | error fault => rfl
    | ok r => exact r.2.repetitionPart_behind a r.1 q
  | lookAround d n e ih => rfl

/-! ## Bodies of repetitions -/

/-- Whether the tree is a symbol or a group. -/
def isAtom : Expr → Bool
  | symbol _ | emptyGroup _ | group _ _ => true
  | _ => false

/-- Whether the tree is a symbol, a group or a choice, whose block has ends
of its own. -/
def hasOwnEnds : Expr → Bool
  | choice _ => true
  | e => e.isAtom

mutual

/-- Whether all repetitions in the tree repeat symbols and groups. -/
def repeatsAtoms : Expr → Bool
  | symbol _ => true
  | sequence es => allRepeatAtoms es
  | choice es => allRepeatAtoms es
  | emptyGroup _ => true
  | group _ e => e.repeatsAtoms
  | repetition e _ => e.isAtom && e.repeatsAtoms
  | lookAround _ _ e => e.repeatsAtoms

/-- Whether all repetitions in the trees repeat symbols and groups. -/
def allRepeatAtoms : List Expr → Bool
  | [] => true
  | e :: es => e.repeatsAtoms && allRepeatAtoms es

end

theorem allRepeatAtoms_iff {es : List Expr} :
    allRepeatAtoms es = true ↔ ∀ e ∈ es, e.repeatsAtoms = true := by
  induction es with
  | nil => simp [allRepeatAtoms]
  | cons e es ih => rw [allRepeatAtoms, Bool.and_eq_true, ih, List.forall_mem_cons]

/-- **The block of a symbol, a group or a choice has ends of its own.** -/
theorem hasOwnEnds_of_construct {a b : Arena} {f : Fragment} (he : e.hasOwnEnds = true)
    (h : e.construct a = .ok (f, b)) : b.HasOwnEnds a.size b.size f := by
  cases e with
  | symbol s =>
    obtain ⟨rfl, rfl⟩ := Prod.mk.inj (Except.ok.inj h)
    exact a.hasOwnEnds_symbolPart s
  | choice es =>
    rw [construct] at h
    split at h
    next => cases h
    next fs c hfs =>
      obtain ⟨rfl, rfl⟩ := Prod.mk.inj (Except.ok.inj h)
      exact Arena.hasOwnEnds_choicePart (parts_of_constructAll hfs).2
  | emptyGroup l =>
    obtain ⟨rfl, rfl⟩ := Prod.mk.inj (Except.ok.inj h)
    exact a.added_emptyPart.hasOwnEnds_groupPart
  | group l e =>
    rw [construct] at h
    split at h
    next => cases h
    next g c hg =>
      obtain ⟨rfl, rfl⟩ := Prod.mk.inj (Except.ok.inj h)
      exact (added_of_construct hg).hasOwnEnds_groupPart
  | _ => cases he

/-! ## What the parser repeats -/

theorem repeatsAtoms_of_ofItems (h : ofItems es = some e) (hes : ∀ e ∈ es, e.repeatsAtoms = true) :
    e.repeatsAtoms = true := by
  match es, h with
  | [e], rfl => exact hes e List.mem_cons_self
  | _ :: _ :: _, rfl => exact allRepeatAtoms_iff.2 hes

theorem repeatsAtoms_of_ofBranches {rows : List (List Expr)} (h : ofBranches rows = some e)
    (hrows : ∀ row ∈ rows, ∀ e ∈ row, e.repeatsAtoms = true) : e.repeatsAtoms = true := by
  match rows, h with
  | [row], h => exact repeatsAtoms_of_ofItems h (hrows row List.mem_cons_self)
  | row :: row' :: rows, rfl =>
    refine allRepeatAtoms_iff.2 fun e he => ?_
    obtain ⟨items, hitems, hsome⟩ := List.mem_filterMap.1 he
    exact repeatsAtoms_of_ofItems hsome (hrows items hitems)

/-- An item in front of the first branch. -/
theorem forall_mem_consItem {p : Expr → Prop} {rows : List (List Expr)} (he : p e)
    (hrows : ∀ row ∈ rows, ∀ e ∈ row, p e) : ∀ row ∈ consItem e rows, ∀ e ∈ row, p e := by
  cases rows with
  | nil => exact List.forall_mem_singleton.2 (List.forall_mem_singleton.2 he)
  | cons row rows =>
    obtain ⟨hrow, hrows⟩ := List.forall_mem_cons.1 hrows
    exact List.forall_mem_cons.2 ⟨List.forall_mem_cons.2 ⟨he, hrow⟩, hrows⟩

/-- **The parser repeats atoms**: a single token is a symbol or a group,
and a quantifier goes to the token before it. -/
theorem repeatsAtoms_of_ofToken_and_branchesOf :
    (∀ t e, ofToken t = .ok e → e.isAtom = true ∧ e.repeatsAtoms = true)
      ∧ ∀ ts rows, branchesOf ts = .ok rows → ∀ row ∈ rows, ∀ e ∈ row, e.repeatsAtoms = true := by
  refine ofToken.mutual_induct
    (fun t => ∀ e, ofToken t = .ok e → e.isAtom = true ∧ e.repeatsAtoms = true)
    (fun ts => ∀ rows, branchesOf ts = .ok rows → ∀ row ∈ rows, ∀ e ∈ row, e.repeatsAtoms = true)
    ?char ?unicode ?metaChar ?charSet ?fault ?group ?entity ?quantity ?nil ?pipe ?repetitionFault
    ?repetition ?itemFault ?item
  case char =>
    intro c span e h
    obtain rfl := Except.ok.inj h
    exact ⟨rfl, rfl⟩
  case unicode =>
    intro p w span e h
    obtain rfl := Except.ok.inj h
    exact ⟨rfl, rfl⟩
  case metaChar =>
    intro m span e h
    obtain rfl := Except.ok.inj h
    exact ⟨rfl, rfl⟩
  case charSet =>
    intro members span e h
    obtain ⟨s, -, rfl⟩ := map_eq_ok_iff.1 h
    exact ⟨rfl, rfl⟩
  case fault =>
    intro tokens span fault hfault e h
    rw [ofToken, hfault] at h
    cases h
  case group =>
    intro tokens span hfault ih e h
    rw [ofToken, hfault] at h
    obtain ⟨rows, hrows, rfl⟩ := map_eq_ok_iff.1 h
    cases hbody : ofBranches rows with
    | none => exact ⟨rfl, rfl⟩
    | some f =>
      have hf := repeatsAtoms_of_ofBranches hbody (ih rows hrows)
      exact ⟨rfl, hf⟩
  case entity =>
    intro c span e h
    cases h
  case quantity =>
    intro q span e h
    cases h
  case nil =>
    intro rows h
    rw [branchesOf] at h
    obtain rfl := Except.ok.inj h
    exact List.forall_mem_singleton.2 (List.forall_mem_nil _)
  case pipe =>
    intro span ts ih rows h
    rw [branchesOf] at h
    obtain ⟨rows, hrows, rfl⟩ := map_eq_ok_iff.1 h
    exact List.forall_mem_cons.2 ⟨List.forall_mem_nil _, ih rows hrows⟩
  case repetitionFault =>
    intro t q span ts hpipe fault hfault _ rows h
    rw [branchesOf, hfault] at h
    · cases h
    · exact hpipe
  case repetition =>
    intro t q span ts hpipe a ha iht ih rows h
    rw [branchesOf, ha] at h
    · obtain ⟨rows, hrows, rfl⟩ := map_eq_ok_iff.1 h
      exact forall_mem_consItem (Bool.and_eq_true_iff.2 (iht a ha)) (ih rows hrows)
    · exact hpipe
  case itemFault =>
    intro t ts hpipe hq fault hfault _ rows h
    rw [branchesOf, hfault] at h
    · cases h
    · exact hpipe
    · exact hq
  case item =>
    intro t ts hpipe hq a ha iht ih rows h
    rw [branchesOf, ha] at h
    · obtain ⟨rows, hrows, rfl⟩ := map_eq_ok_iff.1 h
      exact forall_mem_consItem (iht a ha).2 (ih rows hrows)
    · exact hpipe
    · exact hq

theorem isAtom_numberFrom (e : Expr) (n : Nat) : (numberFrom n e).1.isAtom = e.isAtom := by
  cases e <;> rfl

/-- Numbers do not matter. -/
theorem repeatsAtoms_numberFrom (h : e.repeatsAtoms = true) (n : Nat) :
    (numberFrom n e).1.repeatsAtoms = true := by
  induction e generalizing n with
  | symbol s => rfl
  | sequence es ih =>
    have hes := allRepeatAtoms_iff.1 h
    exact allRepeatAtoms_iff.2 (forall_mem_numberAllFrom (fun e he => ih e he (hes e he)) n)
  | choice es ih =>
    have hes := allRepeatAtoms_iff.1 h
    exact allRepeatAtoms_iff.2 (forall_mem_numberAllFrom (fun e he => ih e he (hes e he)) n)
  | emptyGroup l => rfl
  | group l e ih => exact ih h (n + 1)
  | repetition e q ih =>
    obtain ⟨hatom, he⟩ := Bool.and_eq_true_iff.1 h
    exact Bool.and_eq_true_iff.2 ⟨(isAtom_numberFrom e n).trans hatom, ih he n⟩
  | lookAround d negative e ih => exact ih h n

/-- **In what is parsed, only symbols and groups are repeated.** -/
theorem repeatsAtoms_of_parse {ts : List Token} (h : parse ts = .ok (some e)) :
    e.repeatsAtoms = true := by
  unfold parse ofNested at h
  split at h
  next => cases h
  next nested _ =>
    obtain ⟨f?, hf, heq⟩ := map_eq_ok_iff.1 h
    obtain ⟨f, rfl, rfl⟩ := Option.map_eq_some_iff.1 heq
    split at hf
    next => cases hf
    next =>
      obtain ⟨rows, hrows, hbody⟩ := map_eq_ok_iff.1 hf
      have hall := repeatsAtoms_of_ofToken_and_branchesOf.2 nested rows hrows
      exact repeatsAtoms_numberFrom (repeatsAtoms_of_ofBranches hbody hall) 0

/-! ## The block of a tree -/

/-- **A tree appends a block of its own.** Behind the states of any table
the construction makes the part that it makes from nothing, shifted, and
fails just if it fails there. The states of the table are kept, all other
transitions stay among the new states, where the exit alone accepts. If
the tree is a symbol, a group or a choice, no transition of the block
leads to its entry or leaves its exit. Of these the parser repeats symbols
and groups, and nothing else. -/
theorem construct_appends_block :
    (∀ (e : Expr) (a : Arena), e.construct a = (e.construct #[]).map (partBehind a)
      ∧ ∀ f b, e.construct a = .ok (f, b) →
        Arena.Extends a b ∧ b.Closed a.size b.size
          ∧ (∀ p, f.port p ∈ Set.Ico a.size b.size)
          ∧ (∀ i ∈ Set.Ico a.size b.size, b.acceptsAt i = true ↔ i = f.exit)
          ∧ (e.hasOwnEnds = true → b.HasOwnEnds a.size b.size f))
      ∧ ∀ ts e, parse ts = .ok (some e) → e.repeatsAtoms = true := by
  refine ⟨fun e a => ⟨?_, fun f b h => ?_⟩, fun ts e h => repeatsAtoms_of_parse h⟩
  · have h := construct_behind e #[] a
    rwa [Arena.behind_empty] at h
  · have hadded := added_of_construct h
    exact ⟨hadded.keep, hadded.part.closed, hadded.part.port_mem, hadded.part.acceptsAt_iff,
      fun he => hasOwnEnds_of_construct he h⟩

/-- Behind one state, `a|b*?` gets the positions from 1 to 8, and the
states that it gets in an empty table. The last two are its ends. What is
parsed from `(a)*` repeats a group. -/
theorem construct_appends_block_choice :
    let e := choice [char 'a', repetition (char 'b') (.zeroOrMore false)]
    let a : Arena := #[⟨0, true, [.epsilon 0]⟩]
    let group : List Token := [⟨.entity '(', ⟨0, 1⟩⟩, ⟨.char 'a', ⟨1, 2⟩⟩, ⟨.entity ')', ⟨2, 3⟩⟩,
      ⟨.quantity ⟨.zeroOrMore, true⟩, ⟨3, 4⟩⟩]
    let n := repetition (.group ⟨some 1, none, true⟩ (char 'a')) (.zeroOrMore true)
    (∃ c b, e.construct #[] = .ok (⟨6, 7⟩, c) ∧ e.construct a = .ok (⟨7, 8⟩, b) ∧ b = c.behind a
      ∧ b.size = 9 ∧ Arena.Extends a b ∧ b.Closed 1 9
      ∧ (∀ i ∈ Set.Ico 1 9, b.acceptsAt i = true ↔ i = 8) ∧ b.HasOwnEnds 1 9 ⟨7, 8⟩)
      ∧ parse group = .ok (some n) ∧ n.repeatsAtoms = true := by
  intro e a group n
  have hparse : parse group = .ok (some n) := by rfl
  obtain ⟨c, hc⟩ : ∃ c, e.construct #[] = .ok (⟨6, 7⟩, c) := ⟨_, rfl⟩
  obtain ⟨b, hb, hsize⟩ : ∃ b, e.construct a = .ok (⟨7, 8⟩, b) ∧ b.size = 9 :=
    ⟨_, rfl, by simp [Arena.addState, a]⟩
  obtain ⟨hsame, hblock⟩ := construct_appends_block.1 e a
  obtain ⟨hkeep, hclosed, -, haccept, hends⟩ := hblock ⟨7, 8⟩ b hb
  rw [hb, hc] at hsame
  rw [hsize, show a.size = 1 from rfl] at hclosed haccept hends
  exact ⟨⟨c, b, hc, hb, (Prod.mk.inj (Except.ok.inj hsame)).2, hsize, hkeep, hclosed, haccept,
    hends rfl⟩, hparse, construct_appends_block.2 group n hparse⟩

end Expr

end Regexp
