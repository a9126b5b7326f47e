import Regexp.Proofs.Matching

/-!
# Greedy and lazy quantifiers

Whether a quantifier is greedy plays no role in what a tree denotes, but
it decides how the body of a repetition is connected, and so what the
automaton accepts. Two trees that differ only in this are variants of
each other (`Expr.IsVariant`).

Among the variants of a tree the one with lazy quantifiers throughout
accepts just what the tree denotes, which is the least that any of them
accepts (`Expr.reading_lazy`), and the one with greedy quantifiers
throughout accepts the most (`Expr.IsVariant.reading_le`). So all
variants accept the same texts exactly if the greedy one accepts nothing
but what the tree denotes (`Expr.accepts_of_isVariant`). The trees of
patterns are of this kind. A tree made by hand need not be: a greedy `?`
over `a*b`, without a group around it, accepts `a`, which the lazy `??`
does not.
-/

namespace Regexp

open Computability

/-! ## Variants of a tree -/

/-- The quantifier, made greedy or lazy if it has no bounds. -/
def Quantifier.setGreedy (greedy : Bool) : Quantifier → Quantifier
  | oneOrMore _ => oneOrMore greedy
  | zeroOrOne _ => zeroOrOne greedy
  | zeroOrMore _ => zeroOrMore greedy
  | q => q

namespace Quantifier

theorem setGreedy_setGreedy (g g' : Bool) (q : Quantifier) :
    (q.setGreedy g').setGreedy g = q.setGreedy g := by
  cases q <;> rfl

/-- Every quantifier is greedy or lazy; one with bounds counts as
both. -/
theorem exists_setGreedy_eq (q : Quantifier) : ∃ g, q.setGreedy g = q := by
  cases q with
  | oneOrMore greedy => exact ⟨greedy, rfl⟩
  | zeroOrOne greedy => exact ⟨greedy, rfl⟩
  | zeroOrMore greedy => exact ⟨greedy, rfl⟩
  | _ => exact ⟨true, rfl⟩

theorem isUnbounded_setGreedy (g : Bool) (q : Quantifier) :
    (q.setGreedy g).isUnbounded = q.isUnbounded := by
  cases q <;> rfl

/-- Greed does not change how often a body may occur. -/
theorem power_setGreedy (g : Bool) (q : Quantifier) (l : Language Char) :
    (q.setGreedy g).power l = q.power l := by
  cases q <;> rfl

theorem normalize_setGreedy (g : Bool) (q : Quantifier) :
    (q.setGreedy g).normalize = q.normalize.setGreedy g := by
  cases q with
  | between lower upper greedy => by_cases h : lower = upper <;> simp [setGreedy, normalize, h]
  | _ => rfl

end Quantifier

namespace Expr

mutual

/-- The tree with all quantifiers without bounds made greedy, or all made
lazy. -/
def setGreedy (greedy : Bool) : Expr → Expr
  | symbol s => symbol s
  | sequence es => sequence (setGreedyAll greedy es)
  | choice es => choice (setGreedyAll greedy es)
  | emptyGroup l => emptyGroup l
  | group l e => group l (e.setGreedy greedy)
  | repetition e q => repetition (e.setGreedy greedy) (q.setGreedy greedy)
  | lookAround d n e => lookAround d n (e.setGreedy greedy)

/-- The trees with all quantifiers without bounds made greedy, or all
made lazy. -/
def setGreedyAll (greedy : Bool) : List Expr → List Expr
  | [] => []
  | e :: es => e.setGreedy greedy :: setGreedyAll greedy es

end

/-- **Variants of each other**: the two trees are the same apart from
which of their quantifiers without bounds are greedy. -/
def IsVariant (e f : Expr) : Prop :=
  e.setGreedy true = f.setGreedy true

instance (e f : Expr) : Decidable (e.IsVariant f) :=
  inferInstanceAs (Decidable (_ = _))

variable {e f : Expr}

theorem setGreedyAll_eq_map (g : Bool) (es : List Expr) :
    setGreedyAll g es = es.map (setGreedy g) := by
  induction es with
  | nil => rfl
  | cons e es ih => rw [setGreedyAll, ih, List.map_cons]

theorem setGreedy_setGreedy (g g' : Bool) (e : Expr) :
    (e.setGreedy g').setGreedy g = e.setGreedy g := by
  induction e with
  | symbol s => rfl
  | sequence es ih =>
    simp only [setGreedy, setGreedyAll_eq_map, List.map_map]
    exact congrArg sequence (List.map_congr_left ih)
  | choice es ih =>
    simp only [setGreedy, setGreedyAll_eq_map, List.map_map]
    exact congrArg choice (List.map_congr_left ih)
  | emptyGroup l => rfl
  | group l e ih => exact congrArg (group l) ih
  | repetition e q ih => exact congrArg₂ repetition ih (q.setGreedy_setGreedy g g')
  | lookAround d n e ih => exact congrArg (lookAround d n) ih

/-- Every tree has a variant with greedy quantifiers throughout, and one
with lazy ones. -/
theorem isVariant_setGreedy (g : Bool) (e : Expr) : e.IsVariant (e.setGreedy g) :=
  (setGreedy_setGreedy true g e).symm

/-! ## What does not depend on greed -/

theorem isConstructible_setGreedy (g : Bool) (e : Expr) :
    (e.setGreedy g).isConstructible = e.isConstructible := by
  have all (es : List Expr) (ih : ∀ e ∈ es, (e.setGreedy g).isConstructible = e.isConstructible) :
      allConstructible (setGreedyAll g es) = allConstructible es := by
    induction es with
    | nil => rfl
    | cons e es ihes =>
      obtain ⟨he, hes⟩ := List.forall_mem_cons.1 ih
      rw [setGreedyAll, allConstructible, allConstructible, he, ihes hes]
  induction e with
  | symbol s => rfl
  | sequence es ih => exact all es ih
  | choice es ih => exact all es ih
  | emptyGroup l => rfl
  | group l e ih => exact ih
  | repetition e q ih => exact congrArg₂ (· && ·) ih (q.isUnbounded_setGreedy g)
  | lookAround d n e _ => rfl

theorem language_setGreedy (g : Bool) (e : Expr) : (e.setGreedy g).language = e.language := by
  induction e with
  | symbol s => rfl
  | sequence es ih =>
    rw [setGreedy, setGreedyAll_eq_map, language_sequence, language_sequence, List.map_map]
    exact congrArg List.prod (List.map_congr_left ih)
  | choice es ih =>
    rw [setGreedy, setGreedyAll_eq_map, language_choice, language_choice, List.map_map]
    exact congrArg List.sum (List.map_congr_left ih)
  | emptyGroup l => rfl
  | group l e ih => rw [setGreedy, language_group, language_group, ih]
  | repetition e q ih =>
    rw [setGreedy, language_repetition, language_repetition, ih, Quantifier.power_setGreedy]
  | lookAround d n e _ => rw [setGreedy, language_lookAround, language_lookAround]

/-- **Variants have automata together.** -/
theorem IsVariant.isConstructible_eq (h : e.IsVariant f) :
    f.isConstructible = e.isConstructible := by
  rw [← isConstructible_setGreedy true f, ← h, isConstructible_setGreedy]

/-- **Variants denote the same texts.** -/
theorem IsVariant.language_eq (h : e.IsVariant f) : f.language = e.language := by
  rw [← language_setGreedy true f, ← h, language_setGreedy]

end Expr

/-! ## The greedy variant reads the most

All ways to connect parts read more if the parts do. A lazy quantifier
reads no more than the greedy one between any two ends, since the ends of
its own keep the circles of the body away from what stands around it. -/

namespace Reading

variable {r s r' s' : Reading} {l m head head' tail tail' : Language Char}

theorem oneWay_mono (hhead : head ≤ head') (h : l ≤ m) (htail : tail ≤ tail') :
    oneWay head l tail ≤ oneWay head' m tail'
  | .entry, .entry => hhead
  | .entry, .exit => h
  | .exit, .exit => htail
  | .exit, .entry => le_rfl

theorem fresh_mono (h : l ≤ m) : fresh l ≤ fresh m :=
  oneWay_mono le_rfl h le_rfl

theorem andThen_mono (hr : r ≤ r') (hs : s ≤ s') : r.andThen s ≤ r'.andThen s' :=
  oneWay_mono (hr _ _) (mul_le_mul' (hr _ _) (hs _ _)) (hs _ _)

theorem join_mono (h : r ≤ s) (p q : Port) : r.join p q ≤ s.join p q := fun i j =>
  add_le_add (h i j) (mul_le_mul' (mul_le_mul' (h i p) (kstar_mono (h q p))) (h q j))

theorem repeated_mono (h : r ≤ s) (q : Quantifier) : r.repeated q ≤ s.repeated q := by
  match q with
  | .oneOrMore true => exact join_mono h _ _
  | .oneOrMore false => exact oneWay_mono (join_mono h _ _ _ _) (join_mono h _ _ _ _) le_rfl
  | .zeroOrOne true => exact join_mono h _ _
  | .zeroOrOne false => exact oneWay_mono le_rfl (add_le_add (h _ _) (h _ _)) (h _ _)
  | .zeroOrMore true => exact join_mono (join_mono h _ _) _ _
  | .zeroOrMore false => exact fresh_mono (add_le_add le_rfl (join_mono h _ _ _ _))
  | .between _ _ _ => exact fresh_mono (Quantifier.power_mono _ (h _ _))
  | .exactly _ => exact fresh_mono (Quantifier.power_mono _ (h _ _))
  | .atLeast _ _ => exact fresh_mono (Quantifier.power_mono _ (h _ _))

/-- A part with ends of its own reads no more than any part that reads
the same from its entry to its exit. -/
theorem fresh_le (hr : r.HasEmptyPaths) (h : l ≤ r .entry .exit) : fresh l ≤ r
  | .entry, .entry => hr.entry
  | .entry, .exit => h
  | .exit, .exit => hr.exit
  | .exit, .entry => zero_le

/-- **The greedy repetition reads all that the lazy one does.** -/
theorem repeated_lazy_le (hr : r.HasEmptyPaths) (q : Quantifier) :
    r.repeated (q.setGreedy false) ≤ r.repeated (q.setGreedy true) := by
  match q with
  | .oneOrMore _ =>
    intro i j
    match i, j with
    | .entry, .entry => exact le_rfl
    | .entry, .exit => exact le_rfl
    | .exit, .exit => exact (hr.join .exit .entry).exit
    | .exit, .entry => exact zero_le
  | .zeroOrOne _ =>
    intro i j
    match i, j with
    | .entry, .entry => exact (hr.join .entry .exit).entry
    | .entry, .exit =>
      -- what the lazy one reads at the exit, the greedy one reads after skipping the body
      refine add_le (le_add_of_le_right ?_) le_self_add
      calc r .exit .exit = 1 * 1 * r .exit .exit := by rw [one_mul, one_mul]
        _ ≤ r .entry .entry * (r .exit .entry)∗ * r .exit .exit :=
          mul_le_mul_left (mul_le_mul' hr.entry one_le_kstar) _
    | .exit, .exit => exact r.le_join _ _ _ _
    | .exit, .entry => exact zero_le
  | .zeroOrMore _ =>
    refine fresh_le (hr.repeated (.zeroOrMore true)) ?_
    calc 1 + r.join .exit .entry .entry .exit = (r .entry .exit)∗ := by
          rw [join_exit_entry, one_add_mul_kstar]
      _ = (Quantifier.zeroOrMore true).power (r .entry .exit) := Quantifier.power_zeroOrMore.symm
      _ ≤ _ := power_le_repeated hr _
  | .between _ _ _ => exact le_rfl
  | .exactly _ => exact le_rfl
  | .atLeast _ _ => exact le_rfl

theorem repeated_le_greedy (hr : r.HasEmptyPaths) (q : Quantifier) :
    r.repeated q ≤ r.repeated (q.setGreedy true) := by
  obtain ⟨greedy, hq⟩ := q.exists_setGreedy_eq
  cases greedy with
  | false => exact (congrArg r.repeated hq).symm.trans_le (repeated_lazy_le hr q)
  | true => exact (congrArg r.repeated hq).ge

end Reading

namespace Expr

variable {level : Level} {e f : Expr} {es : List Expr} {a : Automaton}

theorem readingAfter_le_greedy {r s : Reading} (h : r ≤ s)
    (hes : ∀ e ∈ es, e.reading ≤ (e.setGreedy true).reading) :
    readingAfter r es ≤ readingAfter s (setGreedyAll true es) := by
  induction es generalizing r s with
  | nil => exact h
  | cons e es ih =>
    obtain ⟨he, hes⟩ := List.forall_mem_cons.1 hes
    exact ih (Reading.andThen_mono h he) hes

/-- **Greedy quantifiers read the most.** -/
theorem reading_le_greedy (e : Expr) : e.reading ≤ (e.setGreedy true).reading := by
  induction e with
  | symbol s => exact le_rfl
  | sequence es ih =>
    cases es with
    | nil => exact le_rfl
    | cons e es =>
      obtain ⟨he, hes⟩ := List.forall_mem_cons.1 ih
      exact readingAfter_le_greedy he hes
  | choice es ih =>
    refine Reading.fresh_mono ?_
    rw [setGreedyAll_eq_map, readingOfAny_eq, readingOfAny_eq, List.map_map]
    exact List.sum_le_sum fun e he => ih e he _ _
  | emptyGroup l => exact le_rfl
  | group l e ih => exact Reading.fresh_mono (ih _ _)
  | repetition e q ih =>
    exact (Reading.repeated_le_greedy e.hasEmptyPaths_reading q).trans (Reading.repeated_mono ih _)
  | lookAround d n e _ => exact le_rfl

/-- **No variant reads more than the greedy one.** -/
theorem IsVariant.reading_le (h : e.IsVariant f) : f.reading ≤ (e.setGreedy true).reading := by
  have hle := reading_le_greedy f
  rwa [← h] at hle

/-! ## The lazy variant reads what the tree denotes

A lazy quantifier makes a new exit or leaves the exit of its body as it
is, so with lazy quantifiers throughout nothing leads out of an exit. -/

theorem lastEndsFresh_lazy (h : ∀ e ∈ es, (e.setGreedy false).endsFresh = true) :
    lastEndsFresh (setGreedyAll false es) = true := by
  induction es with
  | nil => rfl
  | cons e es ih =>
    obtain ⟨he, hes⟩ := List.forall_mem_cons.1 h
    cases es with
    | nil => exact he
    | cons e' es => exact ih hes

theorem endsFresh_lazy (e : Expr) : (e.setGreedy false).endsFresh = true := by
  induction e with
  | symbol s => rfl
  | sequence es ih => exact lastEndsFresh_lazy ih
  | choice es _ => rfl
  | emptyGroup l => rfl
  | group l e _ => rfl
  | repetition e q ih =>
    match q with
    | .zeroOrOne _ => exact ih
    | .oneOrMore _ => rfl
    | .zeroOrMore _ => rfl
    | .between _ _ _ => rfl
    | .exactly _ => rfl
    | .atLeast _ _ => rfl
  | lookAround d n e _ => rfl

theorem isTight_lazy (e : Expr) : (e.setGreedy false).isTight = true := by
  have all (es : List Expr) (ih : ∀ e ∈ es, (e.setGreedy false).isTight = true) :
      allTight (setGreedyAll false es) = true := by
    rw [allTight_iff, setGreedyAll_eq_map, List.forall_mem_map]
    exact ih
  induction e with
  | symbol s => rfl
  | sequence es ih => exact all es ih
  | choice es ih => exact all es ih
  | emptyGroup l => rfl
  | group l e ih => exact ih
  | repetition e q ih =>
    have hallows : (e.setGreedy false).allows (q.setGreedy false) = true := by
      cases q with
      | zeroOrOne _ =>
        show ((e.setGreedy false).endsFresh || _) = true
        rw [endsFresh_lazy, Bool.true_or]
      | _ => rfl
    rw [setGreedy, isTight, ih, hallows]
    rfl
  | lookAround d n e _ => rfl

/-- **The lazy variant reads what the tree denotes.** -/
theorem reading_lazy (e : Expr) : (e.setGreedy false).reading .entry .exit = e.language := by
  rw [reading_eq_language e.isTight_lazy, language_setGreedy]

/-! ## The trees of patterns -/

theorem Canonical.setGreedy (g : Bool) (h : Canonical level e) :
    Canonical level (e.setGreedy g) := by
  induction h with
  | symbol h => exact .symbol h
  | emptyGroup hname hcapturing => exact .emptyGroup hname hcapturing
  | group hname hcapturing _ ih => exact .group hname hcapturing ih
  | atom _ ih => exact .atom ih
  | repetition _ ih => exact .repetition ih
  | item _ ih => exact .item ih
  | sequence hlen _ ih =>
    rw [Expr.setGreedy, setGreedyAll_eq_map]
    exact .sequence (by rwa [List.length_map]) (List.forall_mem_map.2 ih)
  | row _ ih => exact .row ih
  | choice hlen _ ih =>
    rw [Expr.setGreedy, setGreedyAll_eq_map]
    exact .choice (by rwa [List.length_map]) (List.forall_mem_map.2 ih)

theorem normalizeAll_setGreedyAll {g : Bool}
    (h : ∀ e ∈ es, (e.setGreedy g).normalize = e.normalize.map (setGreedy g)) :
    normalizeAll (setGreedyAll g es) = (normalizeAll es).map (setGreedyAll g) := by
  induction es with
  | nil => rfl
  | cons e es ih =>
    obtain ⟨he, hes⟩ := List.forall_mem_cons.1 h
    rw [setGreedyAll, normalizeAll, normalizeAll, he, ih hes]
    cases e.normalize with
    | error fault => rfl
    | ok f =>
      show ((normalizeAll es).map _).map _ = ((normalizeAll es).map _).map _
      rw [map_map, map_map]
      rfl

/-- **Greed is kept by normalizing.** -/
theorem normalize_setGreedy (g : Bool) (e : Expr) :
    (e.setGreedy g).normalize = e.normalize.map (setGreedy g) := by
  induction e with
  | symbol s =>
    rw [setGreedy, normalize, map_map]
    rfl
  | sequence es ih =>
    rw [setGreedy, normalize, normalize, normalizeAll_setGreedyAll ih, map_map, map_map]
    rfl
  | choice es ih =>
    rw [setGreedy, normalize, normalize, normalizeAll_setGreedyAll ih, map_map, map_map]
    rfl
  | emptyGroup l => rfl
  | group l e ih =>
    rw [setGreedy, normalize, normalize, ih, map_map, map_map]
    rfl
  | repetition e q ih =>
    rw [setGreedy, normalize, normalize, ih, map_map, map_map, Quantifier.normalize_setGreedy]
    rfl
  | lookAround d n e ih =>
    rw [setGreedy, normalize, normalize, ih, map_map, map_map]
    rfl

/-- The trees of patterns are tight, whatever their quantifiers. -/
theorem isTight_setGreedy_of_normalize {pattern : String} (g : Bool)
    (h : Pattern.normalize pattern = .ok (some f)) : (f.setGreedy g).isTight = true := by
  obtain ⟨-, h⟩ | ⟨e, f', hparse, hf, h⟩ := Pattern.normalize_eq_ok_iff.1 h
  · cases h
  · obtain rfl := Option.some.inj h
    refine ((Pattern.isCanonical_of_parse hparse).shape.setGreedy g).isTight_of_normalize ?_
    rw [normalize_setGreedy, hf]
    rfl

/-! ## The verdicts of variants -/

/-- **When greed changes no verdict**: every variant of a tree with an
automaton has one too. It accepts all that the tree denotes and nothing
that the greedy variant does not. So the variants agree on all texts
exactly if the greedy one reads nothing but what the tree denotes; they
do if it is tight, and for the tree of a pattern. -/
theorem accepts_of_isVariant (h : Automaton.ofExpr? (some e) = .ok a) :
    (∀ f, e.IsVariant f → ∃ b, Automaton.ofExpr? (some f) = .ok b
      ∧ (∀ w, e.Denotes w → b.accepts w = true)
      ∧ ∀ w, b.accepts w = true → w ∈ (e.setGreedy true).reading .entry .exit)
    ∧ ((∀ f b, e.IsVariant f → Automaton.ofExpr? (some f) = .ok b →
          ∀ w, b.accepts w = a.accepts w)
        ↔ (e.setGreedy true).reading .entry .exit ≤ e.language)
    ∧ ((e.setGreedy true).isTight = true → ∀ f b, e.IsVariant f →
        Automaton.ofExpr? (some f) = .ok b → ∀ w, b.accepts w = a.accepts w)
    ∧ (∀ pattern, Pattern.normalize pattern = .ok (some e) → ∀ f b, e.IsVariant f →
        Automaton.ofExpr? (some f) = .ok b → ∀ w, b.accepts w = a.accepts w) := by
  have hconstructible : e.isConstructible = true := exists_ofExpr?_eq_ok_iff.1 ⟨a, h⟩
  have hlower (f b) (hf : e.IsVariant f) (hb : Automaton.ofExpr? (some f) = .ok b) (w)
      (hw : e.Denotes w) : b.accepts w = true := by
    have hmem : w ∈ f.language := by rwa [hf.language_eq]
    exact (accepts_iff_mem_reading hb w).2 (f.language_le_reading hmem)
  have hupper (f b) (hf : e.IsVariant f) (hb : Automaton.ofExpr? (some f) = .ok b) (w)
      (hw : b.accepts w = true) : w ∈ (e.setGreedy true).reading .entry .exit :=
    hf.reading_le _ _ ((accepts_iff_mem_reading hb w).1 hw)
  have hauto (f) (hf : e.IsVariant f) : ∃ b, Automaton.ofExpr? (some f) = .ok b :=
    exists_ofExpr?_eq_ok_iff.2 (hf.isConstructible_eq.trans hconstructible)
  have hexact : (∀ f b, e.IsVariant f → Automaton.ofExpr? (some f) = .ok b →
        ∀ w, b.accepts w = a.accepts w)
      ↔ (e.setGreedy true).reading .entry .exit ≤ e.language := by
    constructor
    · -- the greedy variant and the lazy one agree
      intro hagree w hw
      obtain ⟨b, hb⟩ := hauto _ (e.isVariant_setGreedy true)
      obtain ⟨c, hc⟩ := hauto _ (e.isVariant_setGreedy false)
      have hbw := (accepts_iff_mem_reading hb w).2 hw
      rw [hagree _ b (e.isVariant_setGreedy true) hb,
        ← hagree _ c (e.isVariant_setGreedy false) hc, accepts_iff_mem_reading hc,
        reading_lazy] at hbw
      exact hbw
    · -- all variants accept just what the tree denotes
      intro hle f b hf hb w
      rw [Bool.eq_iff_iff]
      exact ⟨fun hw => hlower e a rfl h w (hle (hupper f b hf hb w hw)),
        fun hw => hlower f b hf hb w (hle (hupper e a rfl h w hw))⟩
  have htight (ht : (e.setGreedy true).isTight = true) :
      (e.setGreedy true).reading .entry .exit ≤ e.language := by
    rw [reading_eq_language ht, language_setGreedy]
  refine ⟨fun f hf => ?_, hexact, fun ht => hexact.2 (htight ht), fun pattern hp => ?_⟩
  · obtain ⟨b, hb⟩ := hauto f hf
    exact ⟨b, hb, hlower f b hf hb, hupper f b hf hb⟩
  · exact hexact.2 (htight (isTight_setGreedy_of_normalize true hp))

/-- In `(a*b)??`, where a group stands around the body, no quantifier
decides what is accepted by being greedy or lazy. -/
theorem accepts_of_isVariant_group :
    ∃ a, Automaton.ofExpr? (some (.repetition (.group .plain
        (.sequence [.repetition (.char 'a') (.zeroOrMore true), .char 'b'])) (.zeroOrOne false)))
          = .ok a
      ∧ ∀ f b, IsVariant (.repetition (.group .plain
          (.sequence [.repetition (.char 'a') (.zeroOrMore true), .char 'b'])) (.zeroOrOne false)) f →
        Automaton.ofExpr? (some f) = .ok b → ∀ w, b.accepts w = a.accepts w :=
  ⟨_, rfl, (accepts_of_isVariant rfl).2.2.1 rfl⟩

/-- **A verdict that greed changes**: without a group around `a*b` the
greedy `?` lets a path leave from the circle at its entry, and the lazy
`??`, which has an entry of its own, does not. -/
theorem accepts_of_isVariant_circle :
    ∃ a b, Automaton.ofExpr? (some (.repetition
        (.sequence [.repetition (.char 'a') (.zeroOrMore true), .char 'b']) (.zeroOrOne true)))
          = .ok a
      ∧ Automaton.ofExpr? (some (.repetition
        (.sequence [.repetition (.char 'a') (.zeroOrMore true), .char 'b']) (.zeroOrOne false)))
          = .ok b
      ∧ IsVariant (.repetition
          (.sequence [.repetition (.char 'a') (.zeroOrMore true), .char 'b']) (.zeroOrOne true))
        (.repetition
          (.sequence [.repetition (.char 'a') (.zeroOrMore true), .char 'b']) (.zeroOrOne false))
      ∧ a.accepts ['a'] = true ∧ b.accepts ['a'] = false :=
  ⟨_, _, rfl, rfl, rfl, by decide +kernel, by decide +kernel⟩

end Expr

end Regexp
