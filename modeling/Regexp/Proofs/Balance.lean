import Mathlib.Data.List.Forall2
import Mathlib.Data.List.Infix
import Regexp.Proofs.Bracketing
import Regexp.Proofs.Parsing

/-!
# Balance, and which parenthesis is blamed

Tokens are balanced if no initial part closes more than it opens and all
of them close as much as they open (`Token.Balanced`). This is the same
as all parentheses having partners, so `Token.nest` succeeds just on
balanced tokens. Nothing is lost then: with each group opened up again,
the tokens are back (`Token.unnestAll`).

A parenthesis has a partner if what stands between the two is balanced
(`Token.HasOpener`, `Token.HasCloser`). If one has none, the first that
closes nothing is blamed, and only if there is no such one, the last that
is never closed (`Token.Blames`).
-/

namespace Regexp.Token

variable {ts us vs ns : List Token} {t o c : Token}

/-! ## Counting parentheses -/

/-- How many of the tokens are the structuring character `c`. -/
def countEntity (c : Char) (ts : List Token) : Nat :=
  ts.countP (·.isEntity c)

theorem countEntity_append (d : Char) :
    countEntity d (us ++ vs) = countEntity d us + countEntity d vs :=
  List.countP_append

theorem countEntity_cons_self {d : Char} (h : t.isEntity d = true) :
    countEntity d (t :: ts) = countEntity d ts + 1 :=
  List.countP_cons_of_pos h

theorem countEntity_cons_of_not {d : Char} (h : t.isEntity d = false) :
    countEntity d (t :: ts) = countEntity d ts :=
  List.countP_cons_of_neg (Bool.eq_false_iff.1 h)

/-- A structuring character among tokens counts for itself only. -/
theorem countEntity_split {d : Char} (h : t.isEntity d = true) (e : Char) (hne : d ≠ e) :
    countEntity d (us ++ t :: vs) = countEntity d us + countEntity d vs + 1
      ∧ countEntity e (us ++ t :: vs) = countEntity e us + countEntity e vs := by
  rw [countEntity_append, countEntity_append, countEntity_cons_self h,
    countEntity_cons_of_not (isEntity_of_ne h hne)]
  exact ⟨rfl, rfl⟩

/-- **No initial part closes more than it opens.** -/
def Covered (ts : List Token) : Prop :=
  ∀ us, us <+: ts → countEntity ')' us ≤ countEntity '(' us

/-- **The parentheses are balanced**: no initial part closes more than it
opens, and in all as many are closed as are opened. -/
structure Balanced (ts : List Token) : Prop where
  /-- Whatever is closed was opened before. -/
  covered : Covered ts
  /-- Whatever is opened is closed. -/
  total : countEntity ')' ts = countEntity '(' ts

theorem Covered.left (h : Covered (us ++ vs)) : Covered us :=
  fun ws hws => h ws (hws.trans (List.prefix_append us vs))

theorem Covered.count_le (h : Covered ts) : countEntity ')' ts ≤ countEntity '(' ts :=
  h ts List.prefix_rfl

theorem Covered.append (hus : Covered us) (hvs : Covered vs) : Covered (us ++ vs) := by
  intro ws hws
  obtain hws | ⟨xs, rfl⟩ := List.prefix_or_prefix_of_prefix hws (List.prefix_append us vs)
  · exact hus ws hws
  · have hxs := hvs xs ((List.prefix_append_right_inj us).1 hws)
    have hcount := hus.count_le
    rw [countEntity_append, countEntity_append]
    omega

/-- A token that closes nothing can stand alone. -/
theorem covered_singleton (hc : t.isEntity ')' = false) : Covered [t] := by
  intro us hus
  obtain rfl | ⟨ws, rfl, hws⟩ := List.prefix_cons_iff.1 hus
  · exact Nat.le_refl 0
  · obtain rfl := List.prefix_nil.1 hws
    rw [countEntity_cons_of_not hc]
    exact Nat.zero_le _

theorem Covered.concat (h : Covered us)
    (hcount : countEntity ')' (us ++ [t]) ≤ countEntity '(' (us ++ [t])) :
    Covered (us ++ [t]) := by
  intro ws hws
  obtain rfl | hws := List.prefix_concat_iff.1 hws
  · exact hcount
  · exact h ws hws

theorem Covered.count_lt (h : Covered (us ++ c :: vs)) (hc : c.isEntity ')' = true) :
    countEntity ')' us < countEntity '(' us := by
  have hcount := h (us ++ [c]) ((List.prefix_append_right_inj us).2 (List.prefix_append [c] vs))
  obtain ⟨hclose, hopen⟩ := countEntity_split hc '(' (by decide)
  rw [hclose, hopen] at hcount
  exact hcount

theorem Balanced.count_lt (h : Balanced (us ++ o :: vs)) (ho : o.isEntity '(' = true) :
    countEntity '(' vs < countEntity ')' vs := by
  have hus := h.covered.left.count_le
  have htotal := h.total
  obtain ⟨hopen, hclose⟩ := countEntity_split ho ')' (by decide)
  rw [hopen, hclose] at htotal
  omega

theorem balanced_nil : Balanced [] where
  covered us hus := by
    obtain rfl := List.prefix_nil.1 hus
    exact Nat.le_refl 0
  total := rfl

theorem Balanced.append (hus : Balanced us) (hvs : Balanced vs) : Balanced (us ++ vs) where
  covered := hus.covered.append hvs.covered
  total := by rw [countEntity_append, countEntity_append, hus.total, hvs.total]

/-- A token that is no parenthesis is balanced. -/
theorem balanced_singleton (ho : t.isEntity '(' = false) (hc : t.isEntity ')' = false) :
    Balanced [t] where
  covered := covered_singleton hc
  total := by
    rw [countEntity_cons_of_not ho, countEntity_cons_of_not hc]
    rfl

/-- Two parentheses around balanced tokens are balanced. -/
theorem Balanced.wrap (h : Balanced ts) (ho : o.isEntity '(' = true)
    (hc : c.isEntity ')' = true) : Balanced ([o] ++ ts ++ [c]) := by
  have htotal : countEntity ')' ([o] ++ ts ++ [c]) = countEntity '(' ([o] ++ ts ++ [c]) := by
    obtain ⟨hclose, hopen⟩ := countEntity_split hc '(' (by decide)
    rw [hclose, hopen, List.singleton_append, countEntity_cons_self ho,
      countEntity_cons_of_not (isEntity_of_ne ho (by decide)), h.total]
    rfl
  have hopen : Covered ([o] ++ ts) :=
    (covered_singleton (isEntity_of_ne ho (by decide))).append h.covered
  exact ⟨hopen.concat htotal.le, htotal⟩

/-! ## Balance and partners -/

theorem balanced_of_nests (h : Nests ts ns) : Balanced ts := by
  induction h with
  | nil => exact balanced_nil
  | keep ho hc _ ih => exact (balanced_singleton ho hc).append ih
  | @group o c ts us _ _ ho hc _ _ ihin ih =>
    have hall := (ihin.wrap ho hc).append ih
    rwa [List.append_assoc, List.append_assoc] at hall

theorem covered_of_opens {gs : List OpenGroup} (h : Opens us gs) : Covered us := by
  induction h with
  | nil => exact balanced_nil.covered
  | cons _ hb ho _ ih =>
    exact ih.append ((balanced_of_nests hb).covered.append
      (covered_singleton (isEntity_of_ne ho (by decide))))

/-- **One of the tokens is the partner** of a closing parenthesis behind
them. -/
def HasOpener (us : List Token) : Prop :=
  ∃ ws o xs, us = ws ++ o :: xs ∧ o.isEntity '(' = true ∧ Balanced xs

/-- **One of the tokens is the partner** of an opening parenthesis before
them. -/
def HasCloser (vs : List Token) : Prop :=
  ∃ xs c ys, vs = xs ++ c :: ys ∧ c.isEntity ')' = true ∧ Balanced xs

theorem not_hasOpener_of_balanced (h : Balanced us) : ¬ HasOpener us := by
  rintro ⟨ws, o, xs, rfl, ho, hxs⟩
  exact (h.count_lt ho).ne' hxs.total

theorem not_hasCloser_of_balanced (h : Balanced vs) : ¬ HasCloser vs := by
  rintro ⟨xs, c, ys, rfl, hc, hxs⟩
  exact (h.covered.count_lt hc).ne hxs.total

/-- **Balanced tokens are those whose parentheses can be matched.** -/
theorem balanced_iff_nests : Balanced ts ↔ ∃ ns, Nests ts ns := by
  constructor
  · intro h
    obtain ⟨r, hr⟩ : ∃ r, Outcome ts r := ⟨_, outcome_nest ts⟩
    cases hr with
    | nested hts => exact ⟨_, hts⟩
    | stray hus hc =>
      exact absurd ⟨_, _, _, rfl, hc, balanced_of_nests hus⟩ (not_hasCloser_of_balanced h)
    | unclosed ho _ hvs =>
      exact absurd ⟨_, _, _, rfl, ho, balanced_of_nests hvs⟩ (not_hasOpener_of_balanced h)
  · rintro ⟨ns, h⟩
    exact balanced_of_nests h

/-- **Tokens that are not balanced** close a parenthesis before them or
open one that is closed behind them. -/
theorem balanced_or_partner (ts : List Token) : Balanced ts ∨ HasCloser ts ∨ HasOpener ts := by
  obtain ⟨r, hr⟩ : ∃ r, Outcome ts r := ⟨_, outcome_nest ts⟩
  cases hr with
  | nested hts => exact .inl (balanced_of_nests hts)
  | stray hus hc => exact .inr (.inl ⟨_, _, _, rfl, hc, balanced_of_nests hus⟩)
  | unclosed ho _ hvs => exact .inr (.inr ⟨_, _, _, rfl, ho, balanced_of_nests hvs⟩)

/-- Each closing parenthesis has a partner. -/
def ClosersMatched (ts : List Token) : Prop :=
  ∀ us c vs, ts = us ++ c :: vs → c.isEntity ')' = true → HasOpener us

/-- Each opening parenthesis has a partner. -/
def OpenersMatched (ts : List Token) : Prop :=
  ∀ us o vs, ts = us ++ o :: vs → o.isEntity '(' = true → HasCloser vs

theorem closersMatched_of_covered (h : Covered ts) : ClosersMatched ts := by
  rintro us c vs rfl hc
  -- in front of any closing parenthesis more is opened than closed
  obtain hus | ⟨xs, d, ys, rfl, hd, hxs⟩ | hopener := balanced_or_partner us
  · exact absurd hus.total (h.count_lt hc).ne
  · exact absurd hxs.total (h.left.count_lt hd).ne
  · exact hopener

theorem openersMatched_of_balanced (h : Balanced ts) : OpenersMatched ts := by
  rintro us o vs rfl ho
  -- behind any opening parenthesis more is closed than opened
  obtain hvs | hcloser | ⟨xs, p, ys, rfl, hp, hys⟩ := balanced_or_partner vs
  · exact absurd hvs.total (h.count_lt ho).ne'
  · exact hcloser
  · rw [← List.cons_append, ← List.append_assoc] at h
    exact absurd hys.total (h.count_lt hp).ne'

/-! ## The blamed parenthesis -/

/-- **The parenthesis that is blamed**: the first that closes nothing, and
if there is none, the last that is never closed. -/
inductive Blames : List Token → Token → Prop where
  /-- It closes nothing, and those before it have partners. -/
  | stray {us vs : List Token} {c : Token} (hc : c.isEntity ')' = true) (hno : ¬ HasOpener us)
      (hus : ClosersMatched us) : Blames (us ++ c :: vs) c
  /-- It is never closed, those after it have partners, and whatever is
  closed has a partner. -/
  | unclosed {us vs : List Token} {o : Token} (ho : o.isEntity '(' = true)
      (hall : ClosersMatched (us ++ o :: vs)) (hno : ¬ HasCloser vs) (hvs : OpenersMatched vs) :
      Blames (us ++ o :: vs) o

/-- Balanced tokens give no reason to blame any. -/
theorem not_blames_of_balanced (h : Balanced ts) : ¬ Blames ts t := by
  intro hblames
  cases hblames with
  | stray hc hno _ => exact hno (closersMatched_of_covered h.covered _ _ _ rfl hc)
  | unclosed ho _ hno _ => exact hno (openersMatched_of_balanced h _ _ _ rfl ho)

/-- Of two tokens of a list, one is before the other unless they stand at
the same place. -/
theorem eq_or_before {us' vs' : List Token} {t' : Token}
    (h : us ++ t :: vs = us' ++ t' :: vs') :
    t = t' ∨ (∃ ws, us' = us ++ t :: ws ∧ vs = ws ++ t' :: vs')
      ∨ ∃ ws, us = us' ++ t' :: ws ∧ vs' = ws ++ t :: vs := by
  obtain ⟨ws, hus, hvs⟩ | ⟨ws, hus, hvs⟩ := List.append_eq_append_iff.1 h
  · cases ws with
    | nil => exact .inl (List.cons.inj hvs).1
    | cons w ws =>
      obtain ⟨rfl, rfl⟩ := List.cons.inj hvs
      exact .inr (.inl ⟨ws, hus, rfl⟩)
  · cases ws with
    | nil => exact .inl (List.cons.inj hvs).1.symm
    | cons w ws =>
      obtain ⟨rfl, rfl⟩ := List.cons.inj hvs
      exact .inr (.inr ⟨ws, hus, rfl⟩)

/-- **Only one parenthesis is blamed.** -/
theorem Blames.unique {t' : Token} (h : Blames ts t) (h' : Blames ts t') : t = t' := by
  generalize hts : ts = ts' at h'
  -- if they stood apart, one of them would have to have the partner that it has not
  cases h with
  | stray hc hno hus =>
    cases h' with
    | stray hc' hno' hus' =>
      obtain heq | ⟨ws, hsplit, -⟩ | ⟨ws, hsplit, -⟩ := eq_or_before hts
      · exact heq
      · exact absurd (hus' _ _ _ hsplit hc) hno
      · exact absurd (hus _ _ _ hsplit hc') hno'
    | unclosed _ hall _ _ => exact absurd (hall _ _ _ hts.symm hc) hno
  | unclosed ho hall hno hvs =>
    cases h' with
    | stray hc' hno' _ => exact absurd (hall _ _ _ hts hc') hno'
    | unclosed ho' _ hno' hvs' =>
      obtain heq | ⟨ws, -, hsplit⟩ | ⟨ws, -, hsplit⟩ := eq_or_before hts
      · exact heq
      · exact absurd (hvs _ _ _ hsplit ho') hno'
      · exact absurd (hvs' _ _ _ hsplit ho) hno

theorem Outcome.blames {e : Located ParseFault} (h : Outcome ts (.error e)) :
    ∃ t, Blames ts t ∧ e = ⟨.unbalancedGroup, t.span⟩ := by
  cases h with
  | stray hus hc =>
    have hus := balanced_of_nests hus
    exact ⟨_, .stray hc (not_hasOpener_of_balanced hus) (closersMatched_of_covered hus.covered),
      rfl⟩
  | @unclosed us vs _ o _ ho hus hvs =>
    have hvs := balanced_of_nests hvs
    have hall := (covered_of_opens hus).append hvs.covered
    rw [List.append_assoc, List.singleton_append] at hall
    exact ⟨_, .unclosed ho (closersMatched_of_covered hall) (not_hasCloser_of_balanced hvs)
      (openersMatched_of_balanced hvs), rfl⟩

/-! ## Opening the groups again -/

mutual

/-- The token with each group in it opened up: a parenthesis, what it
holds, and a parenthesis. A group does not keep where its parentheses
stood, so both get its own span. -/
def unnest : Token → List Token
  | ⟨.group ts, span⟩ => ⟨.entity '(', span⟩ :: (unnestAll ts ++ [⟨.entity ')', span⟩])
  | t => [t]

/-- The tokens with all groups opened up. -/
def unnestAll : List Token → List Token
  | [] => []
  | t :: ts => unnest t ++ unnestAll ts

end

/-- A token that is no group has nothing to open up. -/
theorem unnest_of_not_isGroup (h : t.isGroup = false) : unnest t = [t] := by
  obtain ⟨kind, span⟩ := t
  cases kind with
  | group ts => cases h
  | _ => rfl

/-- **A token takes the place of another**: it is of the same kind, and
stands where the other does unless they are parentheses. -/
def Restores (t u : Token) : Prop :=
  t.kind = u.kind ∧ (u.isEntity '(' = false → u.isEntity ')' = false → t.span = u.span)

theorem restores_open (ho : o.isEntity '(' = true) (span : Span) :
    Restores ⟨.entity '(', span⟩ o :=
  ⟨(kind_of_isEntity ho).symm, fun h => absurd ho (Bool.eq_false_iff.1 h)⟩

theorem restores_close (hc : c.isEntity ')' = true) (span : Span) :
    Restores ⟨.entity ')', span⟩ c :=
  ⟨(kind_of_isEntity hc).symm, fun _ h => absurd hc (Bool.eq_false_iff.1 h)⟩

/-- **Matching parentheses loses no token.** -/
theorem restores_of_nests (h : Nests ts ns) (hts : Flat ts) :
    List.Forall₂ Restores (unnestAll ns) ts := by
  induction h with
  | nil => exact .nil
  | keep ho hc _ ih =>
    obtain ⟨ht, hts⟩ := flat_cons.1 hts
    rw [unnestAll, unnest_of_not_isGroup ht]
    exact .cons ⟨rfl, fun _ _ => rfl⟩ (ih hts)
  | @group o c ts us ns ms ho hc _ _ ihin ih =>
    obtain ⟨hts, hus⟩ := flat_append.1 (flat_cons.1 hts).2
    rw [unnestAll, unnest, List.cons_append, List.append_assoc]
    refine .cons (restores_open ho _) (List.rel_append (ihin hts) ?_)
    exact .cons (restores_close hc _) (ih (flat_cons.1 hus).2)

/-! ## What matching parentheses does -/

/-- **Matching parentheses is lossless and blames the right one.** Tokens
without groups can be nested just if they are balanced. With the groups
opened up again, the nested tokens are the given ones. If the tokens
cannot be nested, the error is at the first parenthesis that closes
nothing, or else at the last one that is never closed. -/
theorem nest_matches_parentheses (hts : Flat ts) :
    ((∃ ns, nest ts = .ok ns) ↔ Balanced ts)
      ∧ (∀ ns, nest ts = .ok ns → List.Forall₂ Restores (unnestAll ns) ts)
      ∧ ∀ e, nest ts = .error e ↔ ∃ t, Blames ts t ∧ e = ⟨.unbalancedGroup, t.span⟩ := by
  have hok : (∃ ns, nest ts = .ok ns) ↔ Balanced ts := by
    rw [balanced_iff_nests]
    exact exists_congr fun _ => nest_eq_ok_iff
  refine ⟨hok, fun ns h => restores_of_nests (nest_eq_ok_iff.1 h) hts, fun e => ?_⟩
  constructor
  · intro h
    exact (h ▸ outcome_nest ts).blames
  · rintro ⟨t, ht, rfl⟩
    cases hnest : nest ts with
    | ok ns => exact absurd ht (not_blames_of_balanced (hok.1 ⟨ns, hnest⟩))
    | error e =>
      obtain ⟨u, hu, rfl⟩ := (hnest ▸ outcome_nest ts).blames
      rw [ht.unique hu]

/-- `(a(b))` becomes one group that holds another. In `(a))(` the last
parenthesis is never closed, but the one before it closes nothing and is
blamed. In `((a(b)` the first two are never closed, and the second is
blamed. -/
theorem nest_matches_parentheses_three :
    let balanced : List Token := [⟨.entity '(', ⟨0, 1⟩⟩, ⟨.char 'a', ⟨1, 2⟩⟩,
      ⟨.entity '(', ⟨2, 3⟩⟩, ⟨.char 'b', ⟨3, 4⟩⟩, ⟨.entity ')', ⟨4, 5⟩⟩, ⟨.entity ')', ⟨5, 6⟩⟩]
    let nested : List Token :=
      [⟨.group [⟨.char 'a', ⟨1, 2⟩⟩, ⟨.group [⟨.char 'b', ⟨3, 4⟩⟩], ⟨2, 5⟩⟩], ⟨0, 6⟩⟩]
    let stray : List Token := [⟨.entity '(', ⟨0, 1⟩⟩, ⟨.char 'a', ⟨1, 2⟩⟩,
      ⟨.entity ')', ⟨2, 3⟩⟩, ⟨.entity ')', ⟨3, 4⟩⟩, ⟨.entity '(', ⟨4, 5⟩⟩]
    let unclosed : List Token := [⟨.entity '(', ⟨0, 1⟩⟩, ⟨.entity '(', ⟨1, 2⟩⟩,
      ⟨.char 'a', ⟨2, 3⟩⟩, ⟨.entity '(', ⟨3, 4⟩⟩, ⟨.char 'b', ⟨4, 5⟩⟩, ⟨.entity ')', ⟨5, 6⟩⟩]
    (Flat balanced ∧ nest balanced = .ok nested ∧ Balanced balanced
        ∧ List.Forall₂ Restores (unnestAll nested) balanced)
      ∧ (Flat stray ∧ ¬ Balanced stray ∧ ∃ t, Blames stray t ∧ t.span = ⟨3, 4⟩)
      ∧ Flat unclosed ∧ ¬ Balanced unclosed ∧ ∃ t, Blames unclosed t ∧ t.span = ⟨1, 2⟩ := by
  intro balanced nested stray unclosed
  have hbalanced : Flat balanced := show ∀ t ∈ balanced, t.isGroup = false by decide
  have hstray : Flat stray := show ∀ t ∈ stray, t.isGroup = false by decide
  have hunclosed : Flat unclosed := show ∀ t ∈ unclosed, t.isGroup = false by decide
  have hnest : nest balanced = .ok nested := rfl
  have hfirst : nest stray = .error ⟨.unbalancedGroup, ⟨3, 4⟩⟩ := rfl
  have hlast : nest unclosed = .error ⟨.unbalancedGroup, ⟨1, 2⟩⟩ := rfl
  obtain ⟨hok, hrestores, -⟩ := nest_matches_parentheses hbalanced
  obtain ⟨hnotStray, -, hblamesStray⟩ := nest_matches_parentheses hstray
  obtain ⟨hnotUnclosed, -, hblamesUnclosed⟩ := nest_matches_parentheses hunclosed
  refine ⟨⟨hbalanced, hnest, hok.1 ⟨_, hnest⟩, hrestores _ hnest⟩, ⟨hstray, ?_, ?_⟩,
    hunclosed, ?_, ?_⟩
  · rw [← hnotStray, hfirst]
    rintro ⟨_, h⟩
    cases h
  · obtain ⟨t, ht, herr⟩ := (hblamesStray _).1 hfirst
    exact ⟨t, ht, (congrArg Located.span herr).symm⟩
  · rw [← hnotUnclosed, hlast]
    rintro ⟨_, h⟩
    cases h
  · obtain ⟨t, ht, herr⟩ := (hblamesUnclosed _).1 hlast
    exact ⟨t, ht, (congrArg Located.span herr).symm⟩

end Regexp.Token
