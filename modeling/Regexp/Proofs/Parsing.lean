import Mathlib.Data.List.Basic
import Regexp.Proofs.Grammar

/-!
# The parser accepts what the grammar derives

`Expr.parse` succeeds on a list of tokens without groups just if the list
is empty or derives from the grammar, and then returns the tree of the
derivation with its groups numbered (`Expr.parse_eq_ok_iff`).

In between stand the nested tokens. From there to the grammar a row of
items is followed up to its pipe (`Expr.Splits`), in one induction along
the parser's own recursion; the other way, each level of the grammar says
what the parser makes of its nested tokens (`Expr.Parses`).
-/

namespace Regexp

namespace Token

variable {t n : Token} {ts us ns ms : List Token}

/-- Whether the token is a group. -/
def isGroup (t : Token) : Bool :=
  match t.kind with
  | .group _ => true
  | _ => false

/-- **No token is a group yet.** -/
def Flat (ts : List Token) : Prop := ∀ t ∈ ts, t.isGroup = false

theorem flat_append : Flat (ts ++ us) ↔ Flat ts ∧ Flat us :=
  List.forall_mem_append

theorem flat_cons : Flat (t :: ts) ↔ t.isGroup = false ∧ Flat ts :=
  List.forall_mem_cons

/-- The first nested token is the nesting of tokens of its own. -/
theorem Nests.exists_append (h : Nests ts (n :: ns)) :
    ∃ us vs, ts = us ++ vs ∧ Nests us [n] ∧ Nests vs ns := by
  cases h with
  | keep ho hc h => exact ⟨[n], _, rfl, .keep ho hc .nil, h⟩
  | @group o c us vs ms _ ho hc hin h =>
    refine ⟨o :: (us ++ [c]), vs, ?_, .group ho hc hin .nil, h⟩
    rw [List.cons_append, List.append_assoc]
    rfl

theorem Nests.eq_nil (h : Nests ts []) : ts = [] := by
  cases h
  rfl

/-- What is no group was there before parentheses were matched. -/
theorem Nests.eq_singleton (h : Nests ts [n]) (hn : n.isGroup = false) : ts = [n] := by
  cases h with
  | keep _ _ h => rw [h.eq_nil]
  | group => cases hn

/-- A group arose from two parentheses and what stood between. -/
theorem Nests.exists_group {span : Span} (h : Nests ts [⟨.group ns, span⟩]) (hts : Flat ts) :
    ∃ o c us, ts = o :: (us ++ [c]) ∧ o.isEntity '(' = true ∧ c.isEntity ')' = true
      ∧ Nests us ns := by
  cases h with
  | keep _ _ _ => cases (flat_cons.1 hts).1
  | @group o c us vs _ _ ho hc hin h =>
    obtain rfl := h.eq_nil
    exact ⟨o, c, us, rfl, ho, hc, hin⟩

end Token

namespace Expr

open Token

variable {t : Token} {ts us ns : List Token} {e : Expr} {rows : List (List Expr)} {atStart : Bool}

/-! ## From nested tokens to the grammar -/

/-- **The tokens fall into rows**, those up to the first pipe and those of
the branches behind it. The first row may be empty, but at the start of
its level only if nothing else is there. -/
def Splits (atStart : Bool) (ts : List Token) : List (List Expr) → Prop
  | [] => False
  | row :: rows => ∃ us vs, ts = us ++ vs
    ∧ (Derives .row us row ∨ row = [] ∧ us = [] ∧ (atStart = true → ts = []))
    ∧ (vs = [] ∧ rows = []
      ∨ ∃ p ws, vs = p :: ws ∧ p.isEntity '|' = true ∧ Derives .branches ws (rows.map ofRow))
    ∧ ∀ r ∈ rows, r ≠ []

/-- A further item belongs to the first row. -/
theorem Splits.consItem (he : Derives .item us [e]) (h : Splits false ts rows) (atStart : Bool) :
    Splits atStart (us ++ ts) (consItem e rows) := by
  cases rows with
  | nil => exact h.elim
  | cons row rows =>
    obtain ⟨vs, ws, rfl, hrow, hrows⟩ := h
    refine ⟨us ++ vs, ws, (List.append_assoc _ _ _).symm, .inl ?_, hrows⟩
    obtain hrow | ⟨rfl, rfl, -⟩ := hrow
    · exact .cons he hrow
    · rw [List.append_nil]
      exact .item he

/-- Rows that are not empty are branches. -/
theorem Splits.branches (h : Splits true ts rows) (hts : ts ≠ []) :
    Derives .branches ts (rows.map ofRow) ∧ ∀ r ∈ rows, r ≠ [] := by
  cases rows with
  | nil => exact h.elim
  | cons row rows =>
    obtain ⟨us, vs, rfl, hrow, hrows, hne⟩ := h
    obtain hrow | ⟨-, -, hnil⟩ := hrow
    · refine ⟨?_, List.forall_mem_cons.2 ⟨trees_ne_nil_of_derives hrow, hne⟩⟩
      obtain ⟨rfl, rfl⟩ | ⟨p, ws, rfl, hp, hws⟩ := hrows
      · rw [List.append_nil]
        exact .branch hrow
      · exact .pipe hrow hp hws
    · exact (hts (hnil rfl)).elim

/-- A row behind a pipe. -/
theorem Splits.pipe {p : Token} (hp : p.isEntity '|' = true) (h : Splits true ts rows)
    (hts : ts ≠ []) : Splits false (p :: ts) ([] :: rows) :=
  ⟨[], p :: ts, rfl, .inr ⟨rfl, rfl, fun h => nomatch h⟩,
    .inr ⟨p, ts, rfl, hp, (h.branches hts).1⟩, (h.branches hts).2⟩

theorem ofBranches_eq_some (hrows : rows ≠ []) (h : ∀ r ∈ rows, r ≠ []) :
    ofBranches rows = some (ofBranchList (rows.map ofRow)) := by
  have hitems : ∀ r ∈ rows, ofItems r = some (ofRow r) := fun r hr => by
    match r, h r hr with
    | [e], _ => rfl
    | _ :: _ :: _, _ => rfl
  match rows, hrows with
  | [r], _ => exact hitems r List.mem_cons_self
  | r :: s :: rows, _ =>
    show some (choice (List.filterMap ofItems (r :: s :: rows))) = _
    rw [List.filterMap_eq_map_iff_forall_eq_some.2 hitems]
    rfl

/-- **The rows of a level are nothing at all or a body.** -/
theorem Splits.body (h : Splits true ts rows) :
    ts = [] ∧ ofBranches rows = none ∨ ∃ e, ofBranches rows = some e ∧ Derives .body ts [e] := by
  by_cases hts : ts = []
  · subst hts
    cases rows with
    | nil => exact h.elim
    | cons row rows =>
      obtain ⟨us, vs, hnil, hrow, hrows, -⟩ := h
      obtain ⟨rfl, rfl⟩ := List.append_eq_nil_iff.1 hnil.symm
      obtain hrow | ⟨rfl, -, -⟩ := hrow
      · exact (tokens_ne_nil_of_derives hrow rfl).elim
      · obtain ⟨-, rfl⟩ | ⟨p, ws, hp, -⟩ := hrows
        · exact .inl ⟨rfl, rfl⟩
        · cases hp
  · obtain ⟨hbranches, hne⟩ := h.branches hts
    refine .inr ⟨_, ofBranches_eq_some ?_ hne, .body hbranches⟩
    rintro rfl
    exact h

theorem danglingPipe?_cons_of_not_pipe (ht : t.isEntity '|' = false) (atStart : Bool)
    (ts : List Token) : danglingPipe? atStart (t :: ts) = danglingPipe? false ts := by
  rw [danglingPipe?]
  exact if_neg (Bool.eq_false_iff.1 ht)

/-- A pipe with something on either side. -/
theorem danglingPipe?_cons_of_pipe (ht : t.isEntity '|' = true)
    (h : danglingPipe? atStart (t :: ts) = none) :
    atStart = false ∧ ts ≠ [] ∧ danglingPipe? true ts = none := by
  rw [danglingPipe?, if_pos ht] at h
  split at h
  next => cases h
  next hor =>
    rw [Bool.or_eq_true, not_or, List.isEmpty_iff] at hor
    exact ⟨Bool.of_not_eq_true hor.1, hor.2, h⟩

/-- What makes a tree does not structure the pattern. -/
theorem isEntity_of_ofToken (h : ofToken t = .ok e) (c : Char) : t.isEntity c = false := by
  obtain ⟨kind, span⟩ := t
  cases kind with
  | entity d => cases h
  | _ => rfl

/-- **The parser derives**: an atom from each token that has a tree, and
rows from each list of nested tokens. -/
theorem derives_and_splits :
    (∀ t ts e, ofToken t = .ok e → Flat ts → Nests ts [t] → Derives .atom ts [e])
      ∧ ∀ ns ts rows atStart, branchesOf ns = .ok rows → danglingPipe? atStart ns = none →
        Flat ts → Nests ts ns → Splits atStart ts rows := by
  refine ofToken.mutual_induct
    (fun t => ∀ ts e, ofToken t = .ok e → Flat ts → Nests ts [t] → Derives .atom ts [e])
    (fun ns => ∀ ts rows atStart, branchesOf ns = .ok rows → danglingPipe? atStart ns = none →
      Flat ts → Nests ts ns → Splits atStart ts rows)
    ?char ?unicode ?metaChar ?charSet ?fault ?group ?entity ?quantity ?nil ?pipe ?repetitionFault
    ?repetition ?itemFault ?item
  case char =>
    intro c span ts e h _ hts
    obtain rfl := Except.ok.inj h
    obtain rfl := hts.eq_singleton rfl
    exact .symbol (.letter rfl)
  case unicode =>
    intro p w span ts e h _ hts
    obtain rfl := Except.ok.inj h
    obtain rfl := hts.eq_singleton rfl
    exact .symbol (.letter rfl)
  case metaChar =>
    intro m span ts e h _ hts
    obtain rfl := Except.ok.inj h
    obtain rfl := hts.eq_singleton rfl
    exact .symbol (.metaChar rfl)
  case charSet =>
    intro members span ts e h _ hts
    obtain ⟨s, hs, rfl⟩ := map_eq_ok_iff.1 h
    obtain rfl := hts.eq_singleton rfl
    exact .symbol (.set rfl (CharSet.ofTokens_eq_ok_iff.1 hs))
  case fault =>
    intro tokens span fault hfault ts e h _ _
    rw [ofToken, hfault] at h
    cases h
  case group =>
    intro tokens span hfault ih ts e h hflat hts
    rw [ofToken, hfault] at h
    obtain ⟨rows, hrows, rfl⟩ := map_eq_ok_iff.1 h
    obtain ⟨o, c, us, rfl, ho, hc, hin⟩ := hts.exists_group hflat
    have hus : Flat us := (flat_append.1 (flat_cons.1 hflat).2).1
    have hdangling := (Option.or_eq_none_iff.1 hfault).2
    obtain ⟨rfl, hnone⟩ | ⟨e, hsome, he⟩ := (ih us rows true hrows hdangling hus hin).body
    · rw [hnone]
      exact .emptyGroup ho hc
    · rw [hsome]
      exact .group ho hc he
  case entity =>
    intro c span ts e h
    cases h
  case quantity =>
    intro q span ts e h
    cases h
  case nil =>
    intro ts rows atStart h _ _ hts
    rw [branchesOf] at h
    obtain rfl := Except.ok.inj h
    obtain rfl := hts.eq_nil
    exact ⟨[], [], rfl, .inr ⟨rfl, rfl, fun _ => rfl⟩, .inl ⟨rfl, rfl⟩, fun _ hr => nomatch hr⟩
  case pipe =>
    intro span ns ih ts rows atStart h hdangling hflat hts
    rw [branchesOf] at h
    obtain ⟨rows, hrows, rfl⟩ := map_eq_ok_iff.1 h
    obtain ⟨us, vs, rfl, hp, hvs⟩ := hts.exists_append
    obtain rfl := hp.eq_singleton rfl
    obtain ⟨rfl, hne, hdangling⟩ := danglingPipe?_cons_of_pipe rfl hdangling
    -- something stands behind the pipe, or it would dangle
    refine (ih vs rows true hrows hdangling (flat_cons.1 hflat).2 hvs).pipe rfl ?_
    rintro rfl
    cases hvs
    exact hne rfl
  case repetitionFault =>
    intro t q span ns hpipe fault hfault _ ts rows atStart h
    rw [branchesOf, hfault] at h
    · cases h
    · exact hpipe
  case repetition =>
    intro t q span ns hpipe a ha iht ih ts rows atStart h hdangling hflat hts
    rw [branchesOf, ha] at h
    · rw [Quantifier.ofQuantity_eq] at h
      obtain ⟨rows, hrows, rfl⟩ := map_eq_ok_iff.1 h
      obtain ⟨us, vs, rfl, hus, hvs⟩ := hts.exists_append
      obtain ⟨ws, vs, rfl, hq, hns⟩ := hvs.exists_append
      obtain rfl := hq.eq_singleton rfl
      obtain ⟨hflatus, hflatvs⟩ := flat_append.1 hflat
      rw [danglingPipe?_cons_of_not_pipe (isEntity_of_ofToken ha '|'),
        danglingPipe?_cons_of_not_pipe rfl] at hdangling
      have hitem := Derives.repetition (t := ⟨.quantity q, span⟩) (iht us a ha hflatus hus) rfl
      have hsplits := ih vs rows false hrows hdangling (flat_cons.1 hflatvs).2 hns
      rw [← List.append_assoc]
      exact hsplits.consItem hitem atStart
    · exact hpipe
  case itemFault =>
    intro t ns hpipe hq fault hfault _ ts rows atStart h
    rw [branchesOf, hfault] at h
    · cases h
    · exact hpipe
    · exact hq
  case item =>
    intro t ns hpipe hq a ha iht ih ts rows atStart h hdangling hflat hts
    rw [branchesOf, ha] at h
    · obtain ⟨rows, hrows, rfl⟩ := map_eq_ok_iff.1 h
      obtain ⟨us, vs, rfl, hus, hvs⟩ := hts.exists_append
      obtain ⟨hflatus, hflatvs⟩ := flat_append.1 hflat
      rw [danglingPipe?_cons_of_not_pipe (isEntity_of_ofToken ha '|')] at hdangling
      have hsplits := ih vs rows false hrows hdangling hflatvs hvs
      exact hsplits.consItem (.atom (iht us a ha hflatus hus)) atStart
    · exact hpipe
    · exact hq

/-- The tree of nested tokens derives from the tokens that they arose
from. -/
theorem derives_of_ofNested {e? : Option Expr} (h : ofNested ns = .ok e?) (hflat : Flat ts)
    (hts : Nests ts ns) : ts = [] ∧ e? = none ∨ ∃ e, e? = some e ∧ Derives .body ts [e] := by
  unfold ofNested at h
  split at h
  next => cases h
  next hdangling =>
    obtain ⟨rows, hrows, rfl⟩ := map_eq_ok_iff.1 h
    exact (derives_and_splits.2 ns ts rows true hrows hdangling hflat hts).body

/-! ## From the grammar to nested tokens -/

/-- The tokens do not start with a quantifier. -/
def NoQuantifierFirst (ts : List Token) : Prop :=
  ∀ t us q, ts = t :: us → t.kind ≠ .quantity q

/-- **The nested tokens lead a row**: in front of others they put the
items `es` into the first row, and no pipe is dangling among them. -/
def Leads (ns : List Token) (es : List Expr) : Prop :=
  ∀ ms, NoQuantifierFirst ms → branchesOf (ns ++ ms) = (branchesOf ms).map (es.foldr consItem ·)
    ∧ ∀ atStart, danglingPipe? atStart (ns ++ ms) = danglingPipe? false ms

/-- **What the parser makes of the tokens of a level.** The first of the
nested tokens always has a tree, so it is no quantifier and structures
nothing. -/
def Parses : Level → List Token → List Expr → Prop
  | .atom, ts, es => ∃ n e, es = [e] ∧ Nests ts [n] ∧ ofToken n = .ok e
  | .item, ts, es => ∃ n ns a, Nests ts (n :: ns) ∧ ofToken n = .ok a ∧ Leads (n :: ns) es
  | .row, ts, es => ∃ n ns a, Nests ts (n :: ns) ∧ ofToken n = .ok a ∧ Leads (n :: ns) es
  | .branches, ts, es => ∃ n ns a rows, Nests ts (n :: ns) ∧ ofToken n = .ok a
    ∧ branchesOf (n :: ns) = .ok rows ∧ danglingPipe? true (n :: ns) = none
    ∧ rows ≠ [] ∧ (∀ r ∈ rows, r ≠ []) ∧ rows.map ofRow = es
  | .body, ts, es => ∃ n ns a e, es = [e] ∧ Nests ts (n :: ns) ∧ ofToken n = .ok a
    ∧ ofNested (n :: ns) = .ok (some e)

/-- What spells a symbol has it as its tree. -/
theorem ofToken_of_spells {s : Symbol} (h : t.Spells s) : ofToken t = .ok (.symbol s) := by
  obtain ⟨kind, span⟩ := t
  cases h with
  | letter h =>
    cases kind with
    | char c =>
      obtain rfl := Option.some.inj h
      rfl
    | unicode p w =>
      obtain rfl := Option.some.inj h
      rfl
    | _ => cases h
  | metaChar h =>
    obtain rfl : kind = _ := h
    rfl
  | set h hs =>
    obtain rfl : kind = _ := h
    rw [ofToken, CharSet.ofTokens_eq_ok_iff.2 hs]
    rfl

/-- What makes a tree is no quantifier. -/
theorem noQuantifierFirst_of_ofToken (h : ofToken t = .ok e) (ts : List Token) :
    NoQuantifierFirst (t :: ts) := by
  rintro u us q heq hq
  obtain ⟨rfl, -⟩ := List.cons.inj heq
  obtain ⟨kind, span⟩ := t
  obtain rfl : kind = .quantity q := hq
  cases h

/-- A structuring character is no quantifier. -/
theorem noQuantifierFirst_of_isEntity {c : Char} (h : t.isEntity c = true) (ts : List Token) :
    NoQuantifierFirst (t :: ts) := by
  rintro u us q heq hq
  obtain ⟨rfl, -⟩ := List.cons.inj heq
  rw [kind_of_isEntity h] at hq
  cases hq

theorem noQuantifierFirst_nil : NoQuantifierFirst [] := by
  rintro t us q hnil
  cases hnil

/-- A quantifier belongs to the token before it. -/
theorem branchesOf_quantity {q : Quantity} (ht : ofToken t = .ok e) (span : Span)
    (ts : List Token) : branchesOf (t :: ⟨.quantity q, span⟩ :: ts)
      = (branchesOf ts).map (consItem (.repetition e q.quantifier)) := by
  rw [branchesOf, ht, ← Quantifier.ofQuantity_eq]
  rintro span rfl
  cases ht

/-- A token without a quantifier is an item. -/
theorem branchesOf_item (ht : ofToken t = .ok e) (hts : NoQuantifierFirst ts) :
    branchesOf (t :: ts) = (branchesOf ts).map (consItem e) := by
  rw [branchesOf, ht]
  · rintro span rfl
    cases ht
  · rintro q span us rfl
    exact hts _ _ q rfl rfl

/-- A pipe ends a row. -/
theorem branchesOf_pipe (ht : t.isEntity '|' = true) (ts : List Token) :
    branchesOf (t :: ts) = (branchesOf ts).map ([] :: ·) := by
  obtain ⟨kind, span⟩ := t
  obtain rfl : kind = .entity '|' := kind_of_isEntity ht
  rw [branchesOf]

theorem foldr_consItem (es r : List Expr) (rows : List (List Expr)) :
    es.foldr consItem (r :: rows) = (es ++ r) :: rows := by
  induction es with
  | nil => rfl
  | cons e es ih =>
    rw [List.foldr_cons, ih]
    rfl

/-- Rows lead on. -/
theorem Leads.append {es fs : List Expr} {ms : List Token} (h : Leads ns es) (h' : Leads ms fs)
    (hms : ∀ us, NoQuantifierFirst (ms ++ us)) : Leads (ns ++ ms) (es ++ fs) := by
  intro us hus
  obtain ⟨hbranches, hdangling⟩ := h (ms ++ us) (hms us)
  obtain ⟨hbranches', hdangling'⟩ := h' us hus
  rw [List.append_assoc]
  refine ⟨?_, fun atStart => (hdangling atStart).trans (hdangling' false)⟩
  rw [hbranches, hbranches', map_map]
  simp only [List.foldr_append]

/-- What opens a group is nothing special if it has a tree. -/
theorem ofToken_group (ht : ofToken t = .ok e) (ts : List Token) (span : Span) :
    ofToken ⟨.group (t :: ts), span⟩ = (ofNested (t :: ts)).map ofGroupBody := by
  have hfault : groupFault? span (t :: ts) = none := by
    unfold groupFault?
    dsimp only
    rw [isEntity_of_ofToken ht, isEntity_of_ofToken ht, isEntity_of_ofToken ht]
    rfl
  rw [ofToken, hfault, Option.none_or, ofNested]
  split
  next => rfl
  next => rw [map_map]

/-- **The parser accepts each level of the grammar.** -/
theorem parses_of_derives {level : Level} {es : List Expr} (h : Derives level ts es) :
    Parses level ts es := by
  induction h with
  | symbol h =>
    have ht := ofToken_of_spells h
    exact ⟨_, _, rfl, .keep (isEntity_of_ofToken ht _) (isEntity_of_ofToken ht _) .nil, ht⟩
  | @emptyGroup o c ho hc =>
    have hnests : Nests [o, c] [⟨.group [], o.span.cover c.span⟩] := .group ho hc .nil .nil
    exact ⟨_, _, rfl, hnests, rfl⟩
  | group ho hc _ ih =>
    obtain ⟨n, ns, a, e, heq, hnests, ha, hn⟩ := ih
    obtain ⟨rfl, -⟩ := List.cons.inj heq
    refine ⟨_, _, rfl, .group ho hc hnests .nil, ?_⟩
    rw [ofToken_group ha, hn]
    rfl
  | @atom ts e _ ih =>
    obtain ⟨n, e, heq, hnests, hn⟩ := ih
    obtain ⟨rfl, -⟩ := List.cons.inj heq
    refine ⟨n, [], e, hnests, hn, fun ms hms => ⟨branchesOf_item hn hms, fun atStart => ?_⟩⟩
    exact danglingPipe?_cons_of_not_pipe (isEntity_of_ofToken hn '|') _ _
  | @repetition t ts e q _ ht ih =>
    obtain ⟨n, e, heq, hnests, hn⟩ := ih
    obtain ⟨rfl, -⟩ := List.cons.inj heq
    obtain ⟨kind, span⟩ := t
    obtain rfl : kind = .quantity q := ht
    refine ⟨n, [⟨.quantity q, span⟩], e, hnests.append (.keep rfl rfl .nil), hn,
      fun ms _ => ⟨branchesOf_quantity hn span ms, fun atStart => ?_⟩⟩
    rw [List.cons_append, danglingPipe?_cons_of_not_pipe (isEntity_of_ofToken hn '|')]
    exact danglingPipe?_cons_of_not_pipe rfl _ _
  | item _ ih => exact ih
  | cons _ _ ih ihs =>
    obtain ⟨n, ns, a, hnests, ha, hleads⟩ := ih
    obtain ⟨m, ms, b, hnests', hb, hleads'⟩ := ihs
    refine ⟨n, ns ++ m :: ms, a, hnests.append hnests', ha, ?_⟩
    exact hleads.append hleads' fun us => noQuantifierFirst_of_ofToken hb _
  | @branch ts es hrow ih =>
    obtain ⟨n, ns, a, hnests, ha, hleads⟩ := ih
    obtain ⟨hbranches, hdangling⟩ := hleads [] noQuantifierFirst_nil
    rw [List.append_nil] at hbranches hdangling
    refine ⟨n, ns, a, [es], hnests, ha, ?_, hdangling true, List.cons_ne_nil _ _, ?_, rfl⟩
    · rw [hbranches, branchesOf]
      show Except.ok (es.foldr consItem [[]]) = _
      rw [foldr_consItem, List.append_nil]
    · exact List.forall_mem_singleton.2 (trees_ne_nil_of_derives hrow)
  | @pipe p ts us es fs hrow hp _ ih ihs =>
    obtain ⟨n, ns, a, hnests, ha, hleads⟩ := ih
    obtain ⟨m, ms, b, rows, hnests', hb, hrows, hdangling', hne, hall, hmap⟩ := ihs
    obtain ⟨hbranches, hdangling⟩ := hleads (p :: m :: ms) (noQuantifierFirst_of_isEntity hp _)
    have hpipe : Nests (p :: us) (p :: m :: ms) :=
      .keep (isEntity_of_ne hp (by decide)) (isEntity_of_ne hp (by decide)) hnests'
    refine ⟨n, ns ++ p :: m :: ms, a, es :: rows, hnests.append hpipe, ha, ?_, ?_,
      List.cons_ne_nil _ _, List.forall_mem_cons.2 ⟨trees_ne_nil_of_derives hrow, hall⟩, ?_⟩
    · rw [List.cons_append] at hbranches
      rw [hbranches, branchesOf_pipe hp, hrows]
      show Except.ok (es.foldr consItem ([] :: rows)) = _
      rw [foldr_consItem, List.append_nil]
    · rw [List.cons_append] at hdangling
      rw [hdangling, danglingPipe?, if_pos hp]
      exact hdangling'
    · rw [List.map_cons, hmap]
  | body _ ih =>
    obtain ⟨n, ns, a, rows, hnests, ha, hrows, hdangling, hne, hall, rfl⟩ := ih
    refine ⟨n, ns, a, _, rfl, hnests, ha, ?_⟩
    -- no row is empty, so none of the branches is dropped
    rw [ofNested, hdangling, hrows, ← ofBranches_eq_some hne hall]
    rfl

/-- **The parser accepts the empty list and what the grammar derives**,
and it returns the tree of the derivation with its groups numbered. -/
theorem parse_eq_ok_iff (hts : Flat ts) {e? : Option Expr} :
    parse ts = .ok e? ↔ ts = [] ∧ e? = none
      ∨ ∃ e, e? = some e.numberGroups ∧ Derives .body ts [e] := by
  unfold parse
  constructor
  · intro h
    split at h
    next => cases h
    next ns hns =>
      obtain ⟨f?, hf, rfl⟩ := map_eq_ok_iff.1 h
      obtain ⟨rfl, rfl⟩ | ⟨e, rfl, he⟩ := derives_of_ofNested hf hts (nest_eq_ok_iff.1 hns)
      · exact .inl ⟨rfl, rfl⟩
      · exact .inr ⟨e, rfl, he⟩
  · rintro (⟨rfl, rfl⟩ | ⟨e, rfl, he⟩)
    · rfl
    · obtain ⟨n, ns, a, e, heq, hnests, ha, hn⟩ := parses_of_derives he
      obtain ⟨rfl, -⟩ := List.cons.inj heq
      rw [nest_eq_ok_iff.2 hnests]
      dsimp only
      rw [hn]
      rfl

end Expr

end Regexp
