import Regexp.Automaton.Construction
import Regexp.Expr.Language
import Regexp.Expr.Normalize
import Regexp.Proofs.Numbering

/-!
# What a tree means to the engine

A tree goes through the last passes if it has a normal form and the
normal form an automaton. Whether a tree has an automaton, and why it has
none, does not depend on the states made before
(`Expr.faultOf?_construct`): every quantifier has to be without bounds,
and there may be no look-around (`Expr.exists_construct_eq_ok_iff`). The
numbers of groups play no role in any of this, nor in what the normal
form denotes (`Expr.means_numberGroups`). So what a tree means follows
from what its parts mean (`Expr.Means`).
-/

namespace Regexp

/-! ## Trees with an automaton -/

/-- Whether the quantifier has no bounds. -/
def Quantifier.isUnbounded : Quantifier → Bool
  | oneOrMore _ => true
  | zeroOrOne _ => true
  | zeroOrMore _ => true
  | _ => false

/-- Why there is no repetition by the quantifier. -/
def Quantifier.fault? (q : Quantifier) : Option CompileFault :=
  if q.isUnbounded then none else some (.unsupportedQuantifier q)

theorem Arena.faultOf?_repetitionPart (a : Arena) (f : Fragment) (q : Quantifier) :
    faultOf? (a.repetitionPart f q) = q.fault? := by
  cases q with
  | oneOrMore greedy => cases greedy <;> rfl
  | zeroOrOne greedy => cases greedy <;> rfl
  | zeroOrMore greedy => cases greedy <;> rfl
  | _ => rfl

namespace Expr

mutual

/-- **Whether the tree has an automaton**: no quantifier has bounds, and
there is no look-around. -/
def isConstructible : Expr → Bool
  | symbol _ => true
  | sequence es => allConstructible es
  | choice es => allConstructible es
  | emptyGroup _ => true
  | group _ e => e.isConstructible
  | repetition e q => e.isConstructible && q.isUnbounded
  | lookAround _ _ _ => false

/-- Whether all trees have an automaton. -/
def allConstructible : List Expr → Bool
  | [] => true
  | e :: es => e.isConstructible && allConstructible es

end

mutual

/-- **Why the tree has no automaton**: its first part that is no regular
operation, where a body comes before its quantifier. -/
def compileFault? : Expr → Option CompileFault
  | symbol _ => none
  | sequence es => compileFaultOfAll? es
  | choice es => compileFaultOfAll? es
  | emptyGroup _ => none
  | group _ e => e.compileFault?
  | repetition e q => e.compileFault?.or q.fault?
  | lookAround d negative e => some (.unsupportedNode
      ("look-around assertion " ++ quoted (lookAround d negative e).render))

/-- Why one of the trees, the first one that has none, has no
automaton. -/
def compileFaultOfAll? : List Expr → Option CompileFault
  | [] => none
  | e :: es => e.compileFault?.or (compileFaultOfAll? es)

end

variable {e f : Expr} {es fs : List Expr} {a : Arena} {w : List Char}

/-- What holds for all trees of a list holds for the list. -/
theorem faultOf?_constructAfter
    (h : ∀ e ∈ es, ∀ a, faultOf? (construct a e) = e.compileFault?) (g : Fragment) (a : Arena) :
    faultOf? (constructAfter g a es) = compileFaultOfAll? es := by
  induction es generalizing g a with
  | nil => rfl
  | cons e es ih =>
    obtain ⟨he, hes⟩ := List.forall_mem_cons.1 h
    rw [constructAfter, compileFaultOfAll?, ← he a]
    cases e.construct a with
    | error fault => rfl
    | ok r => exact ih hes _ _

theorem faultOf?_constructAll
    (h : ∀ e ∈ es, ∀ a, faultOf? (construct a e) = e.compileFault?) (a : Arena) :
    faultOf? (constructAll a es) = compileFaultOfAll? es := by
  induction es generalizing a with
  | nil => rfl
  | cons e es ih =>
    obtain ⟨he, hes⟩ := List.forall_mem_cons.1 h
    rw [constructAll, compileFaultOfAll?, ← he a]
    cases e.construct a with
    | error fault => rfl
    | ok r =>
      refine Eq.trans ?_ (ih hes r.2)
      dsimp only
      cases constructAll r.2 es <;> rfl

/-- **The fault of a tree does not depend on the states made before.** -/
theorem faultOf?_construct (e : Expr) (a : Arena) : faultOf? (e.construct a) = e.compileFault? := by
  induction e generalizing a with
  | symbol s => rfl
  | sequence es ih =>
    cases es with
    | nil => rfl
    | cons e es =>
      obtain ⟨he, hes⟩ := List.forall_mem_cons.1 ih
      rw [construct, compileFault?, compileFaultOfAll?, ← he a]
      cases e.construct a with
      | error fault => rfl
      | ok r => exact faultOf?_constructAfter (fun e he a => hes e he a) _ _
  | choice es ih =>
    rw [construct, compileFault?, ← faultOf?_constructAll (fun e he a => ih e he a) a]
    cases constructAll a es <;> rfl
  | emptyGroup l => rfl
  | group l e ih =>
    rw [construct, compileFault?, ← ih a]
    cases e.construct a <;> rfl
  | repetition e q ih =>
    rw [construct, compileFault?, ← ih a]
    cases e.construct a with
    | error fault => rfl
    | ok r => exact Arena.faultOf?_repetitionPart r.2 r.1 q
  | lookAround d negative e => rfl

theorem allConstructible_eq (h : ∀ e ∈ es, e.isConstructible = e.compileFault?.isNone) :
    allConstructible es = (compileFaultOfAll? es).isNone := by
  induction es with
  | nil => rfl
  | cons e es ih =>
    obtain ⟨he, hes⟩ := List.forall_mem_cons.1 h
    rw [allConstructible, compileFaultOfAll?, Option.isNone_or, he, ih hes]

theorem isConstructible_eq (e : Expr) : e.isConstructible = e.compileFault?.isNone := by
  induction e with
  | symbol s => rfl
  | sequence es ih => exact allConstructible_eq ih
  | choice es ih => exact allConstructible_eq ih
  | emptyGroup l => rfl
  | group l e ih => exact ih
  | repetition e q ih =>
    rw [isConstructible, compileFault?, Option.isNone_or, ih, Quantifier.fault?]
    cases q.isUnbounded <;> rfl
  | lookAround d negative e => rfl

/-- **Which trees have an automaton**: whatever states there are
already. -/
theorem exists_construct_eq_ok_iff :
    (∃ r, e.construct a = .ok r) ↔ e.isConstructible = true := by
  rw [isConstructible_eq, Option.isNone_iff_eq_none, ← faultOf?_construct e a,
    faultOf?_eq_none_iff]

theorem exists_ofExpr?_eq_ok_iff :
    (∃ a, Automaton.ofExpr? (some e) = .ok a) ↔ e.isConstructible = true := by
  rw [← exists_construct_eq_ok_iff (a := #[])]
  constructor
  · rintro ⟨a, h⟩
    obtain ⟨r, hr, -⟩ := map_eq_ok_iff.1 h
    exact ⟨r, hr⟩
  · rintro ⟨r, hr⟩
    exact ⟨_, map_eq_ok_iff.2 ⟨r, hr, rfl⟩⟩

/-- The normal forms of a list are those of its trees. -/
theorem normalizeAll_cons_eq_ok_iff :
    normalizeAll (e :: es) = .ok fs
      ↔ ∃ g gs, e.normalize = .ok g ∧ normalizeAll es = .ok gs ∧ fs = g :: gs := by
  rw [normalizeAll]
  cases e.normalize with
  | error fault => exact iff_of_false nofun fun ⟨_, _, h, _⟩ => nomatch h
  | ok f =>
    dsimp only
    rw [map_eq_ok_iff]
    constructor
    · rintro ⟨gs, hgs, rfl⟩
      exact ⟨f, gs, rfl, hgs, rfl⟩
    · rintro ⟨g, gs, hg, hgs, rfl⟩
      obtain rfl := Except.ok.inj hg
      exact ⟨gs, hgs, rfl⟩

theorem exists_mem_of_normalizeAll (h : normalizeAll es = .ok fs) :
    ∀ f ∈ fs, ∃ e ∈ es, e.normalize = .ok f := by
  induction es generalizing fs with
  | nil =>
    obtain rfl := Except.ok.inj h
    exact fun _ hf => nomatch hf
  | cons e es ih =>
    obtain ⟨g, gs, hg, hgs, rfl⟩ := normalizeAll_cons_eq_ok_iff.1 h
    refine List.forall_mem_cons.2 ⟨⟨e, List.mem_cons_self, hg⟩, fun f hf => ?_⟩
    obtain ⟨e', he', hf'⟩ := ih hgs f hf
    exact ⟨e', List.mem_cons_of_mem e he', hf'⟩

/-! ## Numbers of groups -/

theorem normalizeAll_unnumberAll (h : ∀ e ∈ es, e.unnumber.normalize = e.normalize.map unnumber) :
    normalizeAll (unnumberAll es) = (normalizeAll es).map unnumberAll := by
  induction es with
  | nil => rfl
  | cons e es ih =>
    obtain ⟨he, hes⟩ := List.forall_mem_cons.1 h
    rw [unnumberAll, normalizeAll, normalizeAll, he, ih hes]
    cases e.normalize with
    | error fault => rfl
    | ok f =>
      show ((normalizeAll es).map unnumberAll).map _ = ((normalizeAll es).map _).map _
      rw [map_map, map_map]
      rfl

/-- **Numbers are kept by normalizing**, so it does not matter when they
are taken away. -/
theorem normalize_unnumber (e : Expr) : e.unnumber.normalize = e.normalize.map unnumber := by
  induction e with
  | symbol s =>
    rw [unnumber, normalize, map_map]
    rfl
  | sequence es ih =>
    rw [unnumber, normalize, normalize, normalizeAll_unnumberAll ih, map_map, map_map]
    rfl
  | choice es ih =>
    rw [unnumber, normalize, normalize, normalizeAll_unnumberAll ih, map_map, map_map]
    rfl
  | emptyGroup l => rfl
  | group l e ih =>
    rw [unnumber, normalize, normalize, ih, map_map, map_map]
    rfl
  | repetition e q ih =>
    rw [unnumber, normalize, normalize, ih, map_map, map_map]
    rfl
  | lookAround d negative e ih =>
    rw [unnumber, normalize, normalize, ih, map_map, map_map]
    rfl

theorem renderSequence_unnumberAll (h : ∀ e ∈ es, e.unnumber.render = e.render) :
    renderSequence (unnumberAll es) = renderSequence es := by
  induction es with
  | nil => rfl
  | cons e es ih =>
    obtain ⟨he, hes⟩ := List.forall_mem_cons.1 h
    rw [unnumberAll, renderSequence, renderSequence, he, ih hes]

theorem renderChoice_unnumberAll (h : ∀ e ∈ es, e.unnumber.render = e.render) :
    renderChoice (unnumberAll es) = renderChoice es := by
  induction es with
  | nil => rfl
  | cons e es ih =>
    obtain ⟨he, hes⟩ := List.forall_mem_cons.1 h
    cases es with
    | nil => exact he
    | cons f fs =>
      show e.unnumber.render ++ '|' :: renderChoice (unnumberAll (f :: fs)) = _
      rw [he, ih hes]
      rfl

/-- **Numbers are not written.** -/
theorem render_unnumber (e : Expr) : e.unnumber.render = e.render := by
  induction e with
  | symbol s => rfl
  | sequence es ih => exact renderSequence_unnumberAll ih
  | choice es ih => exact renderChoice_unnumberAll ih
  | emptyGroup l => rfl
  | group l e ih =>
    rw [unnumber, render, render, ih]
    rfl
  | repetition e q ih => rw [unnumber, render, render, ih]
  | lookAround d negative e ih => rw [unnumber, render, render, ih]

theorem compileFaultOfAll?_unnumberAll
    (h : ∀ e ∈ es, e.unnumber.compileFault? = e.compileFault?) :
    compileFaultOfAll? (unnumberAll es) = compileFaultOfAll? es := by
  induction es with
  | nil => rfl
  | cons e es ih =>
    obtain ⟨he, hes⟩ := List.forall_mem_cons.1 h
    rw [unnumberAll, compileFaultOfAll?, compileFaultOfAll?, he, ih hes]

/-- Why a tree has no automaton does not depend on numbers. -/
theorem compileFault?_unnumber (e : Expr) : e.unnumber.compileFault? = e.compileFault? := by
  induction e with
  | symbol s => rfl
  | sequence es ih => exact compileFaultOfAll?_unnumberAll ih
  | choice es ih => exact compileFaultOfAll?_unnumberAll ih
  | emptyGroup l => rfl
  | group l e ih => exact ih
  | repetition e q ih => exact congrArg (Option.or · q.fault?) ih
  | lookAround d negative e ih =>
    have hrender := render_unnumber (lookAround d negative e)
    rw [unnumber] at hrender
    rw [unnumber, compileFault?, compileFault?, hrender]

theorem isConstructible_unnumber (e : Expr) : e.unnumber.isConstructible = e.isConstructible := by
  rw [isConstructible_eq, compileFault?_unnumber, ← isConstructible_eq]

theorem denotes_sequence_unnumberAll (h : ∀ e ∈ es, ∀ w, e.unnumber.Denotes w ↔ e.Denotes w) :
    (sequence (unnumberAll es)).Denotes w ↔ (sequence es).Denotes w := by
  induction es generalizing w with
  | nil => exact Iff.rfl
  | cons e es ih =>
    obtain ⟨he, hes⟩ := List.forall_mem_cons.1 h
    rw [unnumberAll, denotes_sequence_cons, denotes_sequence_cons]
    simp only [he, ih hes]

/-- **What a tree denotes does not depend on numbers.** -/
theorem denotes_unnumber : e.unnumber.Denotes w ↔ e.Denotes w := by
  induction e generalizing w with
  | symbol s => exact Iff.rfl
  | sequence es ih => exact denotes_sequence_unnumberAll fun e he w => ih e he
  | choice es ih =>
    rw [unnumber, unnumberAll_eq_map, denotes_choice, denotes_choice]
    constructor
    · rintro ⟨f, hf, hw⟩
      obtain ⟨e, he, rfl⟩ := List.mem_map.1 hf
      exact ⟨e, he, (ih e he).1 hw⟩
    · rintro ⟨e, he, hw⟩
      exact ⟨e.unnumber, List.mem_map_of_mem he, (ih e he).2 hw⟩
  | emptyGroup l => rw [unnumber, denotes_emptyGroup, denotes_emptyGroup]
  | group l e ih => rw [unnumber, denotes_group, denotes_group, ih]
  | repetition e q ih =>
    rw [unnumber, denotes_repetition, denotes_repetition]
    simp only [ih]
  | lookAround d negative e ih =>
    exact iff_of_false not_denotes_lookAround not_denotes_lookAround

/-! ## Meaning -/

/-- **The tree means the texts in `L`**: it has a normal form, the normal
form has an automaton, and it denotes just these texts. -/
def Means (e : Expr) (L : List Char → Prop) : Prop :=
  ∃ f, e.normalize = .ok f ∧ f.isConstructible = true ∧ ∀ w, f.Denotes w ↔ L w

variable {L M : List Char → Prop}

theorem Means.congr (h : e.Means L) (hLM : ∀ w, L w ↔ M w) : e.Means M := by
  obtain ⟨f, hf, hauto, hL⟩ := h
  exact ⟨f, hf, hauto, fun w => (hL w).trans (hLM w)⟩

theorem means_unnumber : e.unnumber.Means L ↔ e.Means L := by
  unfold Means
  rw [normalize_unnumber]
  constructor
  · rintro ⟨f, hf, hauto, hL⟩
    obtain ⟨g, hg, rfl⟩ := map_eq_ok_iff.1 hf
    rw [isConstructible_unnumber] at hauto
    exact ⟨g, hg, hauto, fun w => denotes_unnumber.symm.trans (hL w)⟩
  · rintro ⟨f, hf, hauto, hL⟩
    refine ⟨f.unnumber, map_eq_ok_iff.2 ⟨f, hf, rfl⟩, ?_, fun w => denotes_unnumber.trans (hL w)⟩
    rw [isConstructible_unnumber, hauto]

/-- **Numbering groups does not change what a tree means.** -/
theorem means_numberGroups : e.numberGroups.Means L ↔ e.Means L := by
  rw [← means_unnumber, numberGroups, unnumber_numberFrom, means_unnumber]

theorem means_emptyGroup (l : GroupLabel) : (emptyGroup l).Means (· = []) :=
  ⟨emptyGroup l, rfl, rfl, fun _ => denotes_emptyGroup⟩

theorem Means.group (h : e.Means L) (l : GroupLabel) : (group l e).Means L := by
  obtain ⟨f, hf, hauto, hL⟩ := h
  exact ⟨.group l f, map_eq_ok_iff.2 ⟨f, hf, rfl⟩, hauto, fun w => denotes_group.trans (hL w)⟩

theorem normalizeAll_pair {e' f' : Expr} (he : e.normalize = .ok e') (hf : f.normalize = .ok f') :
    normalizeAll [e, f] = .ok [e', f'] :=
  normalizeAll_cons_eq_ok_iff.2 ⟨e', [f'], he,
    normalizeAll_cons_eq_ok_iff.2 ⟨f', [], hf, rfl, rfl⟩, rfl⟩

/-- Two trees one after the other. -/
theorem Means.sequence (he : e.Means L) (hf : f.Means M) :
    (sequence [e, f]).Means fun w => ∃ u v, w = u ++ v ∧ L u ∧ M v := by
  obtain ⟨e', he', heauto, hL⟩ := he
  obtain ⟨f', hf', hfauto, hM⟩ := hf
  refine ⟨.sequence [e', f'], map_eq_ok_iff.2 ⟨_, normalizeAll_pair he' hf', rfl⟩, ?_, fun w => ?_⟩
  · rw [isConstructible, allConstructible, allConstructible, heauto, hfauto]
    rfl
  · rw [denotes_sequence_cons]
    constructor
    · rintro ⟨u, v, hu, hv, rfl⟩
      obtain ⟨v, v', hv', hnil, rfl⟩ := denotes_sequence_cons.1 hv
      obtain rfl := denotes_sequence_nil.1 hnil
      rw [List.append_nil]
      exact ⟨u, v, rfl, (hL u).1 hu, (hM v).1 hv'⟩
    · rintro ⟨u, v, rfl, hu, hv⟩
      refine ⟨u, v, (hL u).2 hu, denotes_sequence_cons.2 ?_, rfl⟩
      exact ⟨v, [], (hM v).2 hv, .nil, (List.append_nil v).symm⟩

/-- Either of two trees. -/
theorem Means.choice (he : e.Means L) (hf : f.Means M) :
    (choice [e, f]).Means fun w => L w ∨ M w := by
  obtain ⟨e', he', heauto, hL⟩ := he
  obtain ⟨f', hf', hfauto, hM⟩ := hf
  refine ⟨.choice [e', f'], map_eq_ok_iff.2 ⟨_, normalizeAll_pair he' hf', rfl⟩, ?_, fun w => ?_⟩
  · rw [isConstructible, allConstructible, allConstructible, heauto, hfauto]
    rfl
  · show _ ↔ L w ∨ M w
    rw [denotes_choice, ← hL, ← hM]
    constructor
    · rintro ⟨g, hg, hw⟩
      obtain rfl | hg := List.mem_cons.1 hg
      · exact .inl hw
      · obtain rfl := List.mem_singleton.1 hg
        exact .inr hw
    · rintro (hw | hw)
      · exact ⟨e', List.mem_cons_self, hw⟩
      · exact ⟨f', List.mem_cons_of_mem _ (List.mem_singleton_self f'), hw⟩

/-- A tree with a quantifier without bounds. -/
theorem Means.repetition (h : e.Means L) {q : Quantifier} (hq : q.isUnbounded = true) :
    (repetition e q).Means fun w =>
      ∃ ws : List (List Char), q.Admits ws.length ∧ (∀ v ∈ ws, L v) ∧ w = ws.flatten := by
  obtain ⟨f, hf, hauto, hL⟩ := h
  have hnormal : q.normalize = q := by cases q <;> first | rfl | cases hq
  refine ⟨.repetition f q, map_eq_ok_iff.2 ⟨f, hf, by rw [hnormal]⟩, ?_, fun w => ?_⟩
  · rw [isConstructible, hauto, hq]
    rfl
  · rw [denotes_repetition]
    simp only [hL]

end Expr

end Regexp
