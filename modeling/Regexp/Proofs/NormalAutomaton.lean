import Regexp.Proofs.Guards
import Regexp.Proofs.Meaning

/-!
# The automaton of a normal form

Normalizing a tree changes its symbols and, apart from that, only
quantifiers that have no automaton anyway. So the automaton of a normal
form is the automaton of the tree itself, with the guard of each
transition replaced by its normal form (`Expr.corresponds_of_normalize`). A
normal form includes the same characters as the symbol
(`Symbol.includes_normalForm`), so nothing that a search does is changed.

Whether a tree is normalized before its automaton is made therefore
matters to nobody but the reader of a trace (`Expr.ofExpr?_of_normalize`).
-/

namespace Regexp

/-! ## The characters of a normal form -/

section Characters

variable (c : Char)

/-- A class has no code point of its own. -/
theorem MetaChar.codePoint?_of_classMembers? {m : MetaChar} {members : List SetMember}
    (h : m.classMembers? = some members) : m.codePoint? = none := by
  cases m <;> first | rfl | cases h

/-- What takes the place of an item of a set includes the characters of
the item. -/
theorem SetItem.any_includes_of_normalize {i : SetItem} {js : List SetItem}
    (h : i.normalize = .ok js) : js.any (·.includes c) = i.includes c := by
  cases i with
  | member m =>
    obtain rfl := Except.ok.inj h
    exact Bool.or_false _
  | metaChar m =>
    show _ = m.includes c
    rw [normalize] at h
    split at h
    next =>
      split at h
      next => cases h
      next hnegated =>
        split at h
        next _ members hmembers =>
          obtain rfl := Except.ok.inj h
          have hexpand : m.expand? = some (.set ⟨members.map .member, false⟩) := by
            rw [MetaChar.expand?, MetaChar.codePoint?_of_classMembers? hmembers, hmembers,
              Bool.eq_false_iff.2 hnegated]
            rfl
          rw [← MetaChar.includes_of_expand?_eq_some hexpand, Symbol.includes_set,
            CharSet.includes, Bool.bne_false]
        next p _ hp =>
          obtain rfl := Except.ok.inj h
          have hexpand : m.expand? = some (.letter (.ofCodePoint p)) := by
            rw [MetaChar.expand?, hp]
          rw [← MetaChar.includes_of_expand?_eq_some hexpand]
          exact Bool.or_false _
        next => cases h
    next => cases h

theorem CharSet.any_includes_of_normalizeItems {is js : List SetItem}
    (h : normalizeItems is = .ok js) : js.any (·.includes c) = is.any (·.includes c) := by
  induction is generalizing js with
  | nil =>
    obtain rfl := Except.ok.inj h
    rfl
  | cons i is ih =>
    rw [normalizeItems] at h
    split at h
    next => cases h
    next ks hks =>
      obtain ⟨ls, hls, rfl⟩ := map_eq_ok_iff.1 h
      rw [List.any_append, List.any_cons, SetItem.any_includes_of_normalize c hks, ih hls]

/-- **A normal form includes the same characters**: splicing the members
of a class into a set changes nothing, whether or not the set is
negative. -/
theorem Symbol.includes_of_normalize {s t : Symbol} (h : s.normalize = .ok t) :
    t.includes c = s.includes c := by
  cases s with
  | letter a =>
    obtain rfl := Except.ok.inj h
    rfl
  | metaChar m =>
    rw [normalize, MetaChar.normalize] at h
    split at h
    next s _ hexpand =>
      obtain rfl := Except.ok.inj h
      exact MetaChar.includes_of_expand?_eq_some hexpand c
    next => cases h
  | set s =>
    obtain ⟨s', hs', rfl⟩ := map_eq_ok_iff.1 h
    obtain ⟨js, hjs, rfl⟩ := map_eq_ok_iff.1 hs'
    show (js.any (·.includes c) != s.negative) = (s.items.any (·.includes c) != s.negative)
    rw [CharSet.any_includes_of_normalizeItems c hjs]

/-- The normal form of a symbol, or the symbol itself if it has none. -/
def Symbol.normalForm (s : Symbol) : Symbol :=
  s.normalize.toOption.getD s

theorem Symbol.normalForm_of_normalize {s t : Symbol} (h : s.normalize = .ok t) :
    s.normalForm = t := by
  rw [normalForm, h]
  rfl

theorem Symbol.includes_normalForm (s : Symbol) : s.normalForm.includes c = s.includes c := by
  rw [normalForm]
  cases h : s.normalize with
  | error fault => rfl
  | ok t => exact includes_of_normalize c h

end Characters

/-! ## Parts with other guards -/

namespace Arena

variable {g : Symbol → Symbol} {a : Arena} {f : Fragment}

/-- The states with their guards replaced. -/
def mapGuards (g : Symbol → Symbol) (a : Arena) : Arena :=
  a.map (·.mapGuards g)

/-- A part of an automaton, with the guards of all states replaced. -/
def mapPart (g : Symbol → Symbol) (r : Fragment × Arena) : Fragment × Arena :=
  (r.1, r.2.mapGuards g)

@[simp] theorem size_mapGuards (g : Symbol → Symbol) (a : Arena) :
    (a.mapGuards g).size = a.size :=
  Array.size_map

theorem addState_mapGuards (accept : Bool) (ts : List Transition) :
    (a.mapGuards g).addState accept (ts.map (·.mapGuard g))
      = (a.addState accept ts).mapGuards g := by
  rw [addState, size_mapGuards, addState, mapGuards, mapGuards, Array.map_push]
  rfl

theorem modify_mapGuards {h : State → State} (hh : ∀ s, h (s.mapGuards g) = (h s).mapGuards g)
    (i : Nat) : (a.mapGuards g).modify i h = mapGuards g (a.modify i h) := by
  refine Array.ext_getElem? fun j => ?_
  rw [mapGuards, mapGuards, Array.getElem?_modify, Array.getElem?_map, Array.getElem?_map,
    Array.getElem?_modify]
  split
  · cases a[j]? with
    | none => rfl
    | some s => exact congrArg some (hh s)
  · rfl

theorem addEpsilon_mapGuards (source target : Nat) :
    (a.mapGuards g).addEpsilon source target = (a.addEpsilon source target).mapGuards g :=
  modify_mapGuards (fun s => by simp [State.mapGuards, State.add, Transition.mapGuard]) source

theorem passOn_mapGuards (exit target : Nat) :
    (a.mapGuards g).passOn exit target = (a.passOn exit target).mapGuards g :=
  modify_mapGuards (fun s => by
    simp [State.mapGuards, State.add, State.setAccept, Transition.mapGuard]) exit

/-- A further part of two states, the second of which accepts. -/
theorem addStates_mapGuards (g : Symbol → Symbol) (a : Arena) (ts : List Transition) :
    ((a.mapGuards g).addState false (ts.map (·.mapGuard g))).addState true []
      = ((a.addState false ts).addState true []).mapGuards g := by
  rw [addState_mapGuards]
  exact addState_mapGuards true []

theorem emptyPart_mapGuards (g : Symbol → Symbol) (a : Arena) :
    (a.mapGuards g).emptyPart = mapPart g a.emptyPart := by
  rw [emptyPart, size_mapGuards]
  exact congrArg (Prod.mk _) (addStates_mapGuards g a [.epsilon (a.size + 1)])

theorem symbolPart_mapGuards (g : Symbol → Symbol) (a : Arena) (s : Symbol) :
    (a.mapGuards g).symbolPart (g s) = mapPart g (a.symbolPart s) := by
  rw [symbolPart, size_mapGuards]
  exact congrArg (Prod.mk _) (addStates_mapGuards g a [.symbol s (a.size + 1)])

theorem choicePart_mapGuards (g : Symbol → Symbol) (a : Arena) (branches : List Fragment) :
    (a.mapGuards g).choicePart branches = mapPart g (a.choicePart branches) := by
  have hfold (exit : Nat) (b : Arena) :
      branches.foldl (fun b f => b.passOn f.exit exit) (b.mapGuards g)
        = (branches.foldl (fun b f => b.passOn f.exit exit) b).mapGuards g := by
    induction branches generalizing b with
    | nil => rfl
    | cons f fs ih => rw [List.foldl_cons, List.foldl_cons, passOn_mapGuards, ih]
  have hentry : (branches.map fun f => Transition.epsilon f.entry).map (·.mapGuard g)
      = branches.map fun f => .epsilon f.entry := by
    rw [List.map_map]
    rfl
  have hstates := addStates_mapGuards g a (branches.map fun f => .epsilon f.entry)
  rw [hentry] at hstates
  rw [choicePart, size_mapGuards, hstates, hfold]
  rfl

/-- A repetition adds the same transitions whatever the guards are. -/
theorem repetitionPart_mapGuards (g : Symbol → Symbol) (a : Arena) (f : Fragment)
    (q : Quantifier) :
    (a.mapGuards g).repetitionPart f q = (a.repetitionPart f q).map (mapPart g) := by
  have hexit : (a.mapGuards g).addState true [] = (a.addState true []).mapGuards g :=
    addState_mapGuards true []
  have hentry : (a.mapGuards g).addState false [.epsilon f.exit, .epsilon f.entry]
      = (a.addState false [.epsilon f.exit, .epsilon f.entry]).mapGuards g :=
    addState_mapGuards false [.epsilon f.exit, .epsilon f.entry]
  have hends : ((a.mapGuards g).addState false [.epsilon (a.size + 1), .epsilon f.entry]).addState
        true []
      = ((a.addState false [.epsilon (a.size + 1), .epsilon f.entry]).addState true []).mapGuards g :=
    addStates_mapGuards g a [.epsilon (a.size + 1), .epsilon f.entry]
  cases q with
  | oneOrMore greedy =>
    cases greedy <;> simp only [repetitionPart, size_mapGuards, hexit, passOn_mapGuards,
      addEpsilon_mapGuards] <;> rfl
  | zeroOrOne greedy =>
    cases greedy <;> simp only [repetitionPart, size_mapGuards, hentry, addEpsilon_mapGuards] <;> rfl
  | zeroOrMore greedy =>
    cases greedy <;> simp only [repetitionPart, size_mapGuards, hends, passOn_mapGuards,
      addEpsilon_mapGuards] <;> rfl
  | _ => rfl

/-- A normalized quantifier makes the same part, or neither makes one. -/
theorem repetitionPart_normalize (a : Arena) (f : Fragment) (q : Quantifier) :
    (a.repetitionPart f q.normalize).toOption = (a.repetitionPart f q).toOption := by
  cases q with
  | between lower upper greedy =>
    rw [Quantifier.normalize]
    split <;> rfl
  | _ => rfl

end Arena

/-! ## Trees -/

namespace Expr

open Arena (mapPart)

variable {e n : Expr} {es ns : List Expr}

/-- **The parts of a tree and of its normal form**, wherever they are
added: one is the other with the guards replaced, or there is neither. -/
def Corresponds (e n : Expr) : Prop :=
  ∀ a : Arena, (n.construct (a.mapGuards Symbol.normalForm)).toOption
    = (e.construct a).toOption.map (mapPart Symbol.normalForm)

theorem toOption_construct_sequence_cons (a : Arena) (e : Expr) (es : List Expr) :
    (construct a (sequence (e :: es))).toOption = (e.construct a).toOption.bind fun r =>
      (constructAfter r.1 r.2 es).toOption := by
  rw [construct]
  cases e.construct a <;> rfl

theorem toOption_construct_choice (a : Arena) (es : List Expr) :
    (construct a (choice es)).toOption
      = (constructAll a es).toOption.map fun r => r.2.choicePart r.1 := by
  rw [construct]
  cases constructAll a es <;> rfl

theorem toOption_construct_group (a : Arena) (l : GroupLabel) (e : Expr) :
    (construct a (group l e)).toOption
      = (e.construct a).toOption.map fun r => r.2.groupPart r.1 := by
  rw [construct]
  cases e.construct a <;> rfl

theorem toOption_construct_repetition (a : Arena) (e : Expr) (q : Quantifier) :
    (construct a (repetition e q)).toOption = (e.construct a).toOption.bind fun r =>
      (r.2.repetitionPart r.1 q).toOption := by
  rw [construct]
  cases e.construct a <;> rfl

theorem toOption_constructAfter_cons (f : Fragment) (a : Arena) (e : Expr) (es : List Expr) :
    (constructAfter f a (e :: es)).toOption = (e.construct a).toOption.bind fun r =>
      (constructAfter ⟨f.entry, r.1.exit⟩ (r.2.passOn f.exit r.1.entry) es).toOption := by
  rw [constructAfter]
  cases e.construct a <;> rfl

theorem toOption_constructAll_cons (a : Arena) (e : Expr) (es : List Expr) :
    (constructAll a (e :: es)).toOption = (e.construct a).toOption.bind fun r =>
      (constructAll r.2 es).toOption.map fun s => (r.1 :: s.1, s.2) := by
  rw [constructAll]
  cases e.construct a with
  | error fault => rfl
  | ok r =>
    refine Eq.trans ?_ (toOption_map (constructAll r.2 es) fun s => (r.1 :: s.1, s.2))
    dsimp only
    cases constructAll r.2 es <;> rfl

/-- The normal forms of a list of trees are those of its trees. -/
theorem forall₂_of_normalizeAll (h : normalizeAll es = .ok ns) :
    List.Forall₂ (fun e n => e.normalize = .ok n) es ns := by
  induction es generalizing ns with
  | nil =>
    obtain rfl := Except.ok.inj h
    exact .nil
  | cons e es ih =>
    obtain ⟨m, ms, hm, hms, rfl⟩ := normalizeAll_cons_eq_ok_iff.1 h
    exact .cons hm (ih hms)

/-- What relates each tree to its normal form relates the trees of a list
to theirs. -/
theorem forall₂_of_mem {R : Expr → Expr → Prop}
    (ih : ∀ e ∈ es, ∀ {n}, e.normalize = .ok n → R e n) (h : normalizeAll es = .ok ns) :
    List.Forall₂ R es ns := by
  have hparts := (List.forall₂_and_left es ns).2 ⟨fun _ he => he, forall₂_of_normalizeAll h⟩
  exact hparts.imp fun e n hen => ih e hen.1 hen.2

/-- The parts of trees one after the other, behind a part. -/
theorem constructAfter_of_corresponds (h : List.Forall₂ Corresponds es ns) (f : Fragment)
    (a : Arena) :
    (constructAfter f (a.mapGuards Symbol.normalForm) ns).toOption
      = (constructAfter f a es).toOption.map (mapPart Symbol.normalForm) := by
  induction h generalizing f a with
  | nil => rfl
  | cons he _ ih =>
    rw [toOption_constructAfter_cons, toOption_constructAfter_cons, he, Option.bind_map,
      Option.map_bind]
    refine congrArg (Option.bind _) (funext fun r => ?_)
    show (constructAfter _ ((r.2.mapGuards Symbol.normalForm).passOn _ _) _).toOption = _
    rw [Arena.passOn_mapGuards, ih]
    rfl

/-- The parts of trees that are not connected. -/
theorem constructAll_of_corresponds (h : List.Forall₂ Corresponds es ns) (a : Arena) :
    (constructAll (a.mapGuards Symbol.normalForm) ns).toOption
      = (constructAll a es).toOption.map fun r => (r.1, r.2.mapGuards Symbol.normalForm) := by
  induction h generalizing a with
  | nil => rfl
  | cons he _ ih =>
    rw [toOption_constructAll_cons, toOption_constructAll_cons, he, Option.bind_map,
      Option.map_bind]
    refine congrArg (Option.bind _) (funext fun r => ?_)
    show (constructAll (r.2.mapGuards Symbol.normalForm) _).toOption.map _
      = ((constructAll r.2 _).toOption.map _).map _
    rw [ih, Option.map_map, Option.map_map]
    rfl

/-- **A tree and its normal form make the same part**, apart from the
guards. -/
theorem corresponds_of_normalize (h : e.normalize = .ok n) : e.Corresponds n := by
  induction e generalizing n with
  | symbol s =>
    obtain ⟨t, ht, rfl⟩ := map_eq_ok_iff.1 h
    intro a
    have hpart := Arena.symbolPart_mapGuards Symbol.normalForm a s
    rw [Symbol.normalForm_of_normalize ht] at hpart
    exact congrArg some hpart
  | sequence es ih =>
    obtain ⟨ns, hns, rfl⟩ := map_eq_ok_iff.1 h
    intro a
    cases forall₂_of_mem ih hns with
    | nil => exact congrArg some (Arena.emptyPart_mapGuards Symbol.normalForm a)
    | cons he hes =>
      rw [toOption_construct_sequence_cons, toOption_construct_sequence_cons, he, Option.bind_map,
        Option.map_bind]
      exact congrArg (Option.bind _) (funext fun r => constructAfter_of_corresponds hes r.1 r.2)
  | choice es ih =>
    obtain ⟨ns, hns, rfl⟩ := map_eq_ok_iff.1 h
    intro a
    rw [toOption_construct_choice, toOption_construct_choice,
      constructAll_of_corresponds (forall₂_of_mem ih hns), Option.map_map, Option.map_map]
    refine congrArg (Option.map · _) (funext fun r => ?_)
    exact Arena.choicePart_mapGuards Symbol.normalForm r.2 r.1
  | emptyGroup l =>
    obtain rfl := Except.ok.inj h
    intro a
    have hbody := Arena.emptyPart_mapGuards Symbol.normalForm a
    have hgroup := Arena.choicePart_mapGuards Symbol.normalForm a.emptyPart.2 [a.emptyPart.1]
    show some ((a.mapGuards Symbol.normalForm).emptyPart.2.choicePart
      [(a.mapGuards Symbol.normalForm).emptyPart.1]) = _
    rw [hbody]
    exact congrArg some hgroup
  | group l e ih =>
    obtain ⟨m, hm, rfl⟩ := map_eq_ok_iff.1 h
    intro a
    rw [toOption_construct_group, toOption_construct_group, ih hm a, Option.map_map,
      Option.map_map]
    refine congrArg (Option.map · _) (funext fun r => ?_)
    exact Arena.choicePart_mapGuards Symbol.normalForm r.2 [r.1]
  | repetition e q ih =>
    obtain ⟨m, hm, rfl⟩ := map_eq_ok_iff.1 h
    intro a
    rw [toOption_construct_repetition, toOption_construct_repetition, ih hm a, Option.bind_map,
      Option.map_bind]
    refine congrArg (Option.bind _) (funext fun r => ?_)
    show ((r.2.mapGuards Symbol.normalForm).repetitionPart r.1 q.normalize).toOption = _
    rw [Arena.repetitionPart_normalize, Arena.repetitionPart_mapGuards, toOption_map]
    rfl
  | lookAround d negative e ih =>
    obtain ⟨m, -, rfl⟩ := map_eq_ok_iff.1 h
    exact fun _ => rfl

/-! ## Automata -/

/-- The automaton of a normal form, if there is one, is that of the tree
with its guards replaced. -/
theorem toOption_ofExpr?_of_normalize (h : e.normalize = .ok n) :
    (Automaton.ofExpr? (some n)).toOption
      = (Automaton.ofExpr? (some e)).toOption.map (Automaton.mapGuards Symbol.normalForm) := by
  have hparts := corresponds_of_normalize h #[]
  have hempty : Arena.mapGuards Symbol.normalForm #[] = #[] := Array.map_empty
  rw [hempty] at hparts
  show ((n.construct #[]).map _).toOption = ((e.construct #[]).map _).toOption.map _
  rw [toOption_map, toOption_map, hparts, Option.map_map, Option.map_map]
  rfl

theorem ofExpr?_eq_ok_iff_of_normalize (h : e.normalize = .ok n) {b : Automaton} :
    Automaton.ofExpr? (some n) = .ok b
      ↔ ∃ a, Automaton.ofExpr? (some e) = .ok a ∧ a.mapGuards Symbol.normalForm = b := by
  have hauto := toOption_ofExpr?_of_normalize h
  rw [← toOption_eq_some_iff, hauto, Option.map_eq_some_iff]
  simp only [toOption_eq_some_iff]

/-- **Normalizing changes nothing that is compiled or matched.** A tree
that has a normal form has an automaton just if the normal form has one.
Then the two are the same apart from the guards, and the guards include
the same characters. So they accept the same texts, and their traces
differ only in the printed guards. -/
theorem ofExpr?_of_normalize (h : e.normalize = .ok n) :
    ((∃ a, Automaton.ofExpr? (some e) = .ok a) ↔ ∃ b, Automaton.ofExpr? (some n) = .ok b)
      ∧ ∀ a b, Automaton.ofExpr? (some e) = .ok a → Automaton.ofExpr? (some n) = .ok b →
        b = a.mapGuards Symbol.normalForm
          ∧ (∀ s c, (Symbol.normalForm s).includes c = s.includes c)
          ∧ (∀ w, b.accepts w = a.accepts w)
          ∧ (∀ w, b.trace w = ((a.trace w).1, (a.trace w).2.map (·.mapGuard Symbol.normalForm)))
          ∧ ∀ p w, (b.traceLines p w).1 = (a.traceLines p w).1
            ∧ List.Forall₂ (SameButGuard Symbol.normalForm) (a.traceLines p w).2
                (b.traceLines p w).2 := by
  have hincludes (s : Symbol) (c : Char) := s.includes_normalForm c
  refine ⟨?_, fun a b ha hb => ?_⟩
  · constructor
    · rintro ⟨a, ha⟩
      exact ⟨_, (ofExpr?_eq_ok_iff_of_normalize h).2 ⟨a, ha, rfl⟩⟩
    · rintro ⟨b, hb⟩
      obtain ⟨a, ha, -⟩ := (ofExpr?_eq_ok_iff_of_normalize h).1 hb
      exact ⟨a, ha⟩
  · obtain ⟨a', ha', rfl⟩ := (ofExpr?_eq_ok_iff_of_normalize h).1 hb
    obtain rfl := Except.ok.inj (ha.symm.trans ha')
    exact ⟨rfl, hincludes, a.accepts_mapGuards hincludes, a.trace_mapGuards hincludes,
      fun p w => a.traceLines_mapGuards hincludes p w⟩

/-- In `[^\d-]*?` the class is spliced into the negative set, and the
quantifier adds the same states. -/
theorem ofExpr?_of_normalize_spliced :
    ∃ n a b, Expr.normalize (.repetition (.symbol (.set
        ⟨[.metaChar .digit, .member (.letter (.literal '-'))], true⟩)) (.zeroOrMore false)) = .ok n
      ∧ Automaton.ofExpr? (some (.repetition (.symbol (.set
        ⟨[.metaChar .digit, .member (.letter (.literal '-'))], true⟩)) (.zeroOrMore false)))
          = .ok a
      ∧ Automaton.ofExpr? (some n) = .ok b ∧ a ≠ b ∧ b = a.mapGuards Symbol.normalForm
      ∧ (∀ w, b.accepts w = a.accepts w)
      ∧ List.Forall₂ (SameButGuard Symbol.normalForm) (a.traceLines .plain ['a', '1']).2
          (b.traceLines .plain ['a', '1']).2 :=
  have hsame := (ofExpr?_of_normalize (e := .repetition (.symbol (.set
    ⟨[.metaChar .digit, .member (.letter (.literal '-'))], true⟩)) (.zeroOrMore false)) rfl).2
      _ _ rfl rfl
  ⟨_, _, _, rfl, rfl, rfl, by decide, hsame.1, hsame.2.2.1, (hsame.2.2.2.2 _ _).2⟩

end Expr

end Regexp
