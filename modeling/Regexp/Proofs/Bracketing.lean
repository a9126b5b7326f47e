import Regexp.Token.Nesting

/-!
# Parentheses and their partners

`Token.Nests ts ns` says without any stack what matching parentheses
means: `ns` arises from `ts` when each opening parenthesis, its partner
and what stands between become one group token. `Token.nest` computes
just this (`Token.nest_eq_ok_iff`). Its stack of open groups stands for
the tokens that it has read and not yet put into a group
(`Token.Opens`), which also says what stands around a parenthesis without
a partner (`Token.Outcome`).
-/

namespace Regexp.Token

variable {ts us ns ms rest done : List Token} {opened : List OpenGroup} {t c : Token}

/-- **The parentheses of `ts`, matched, give `ns`.** -/
inductive Nests : List Token → List Token → Prop where
  /-- No token. -/
  | nil : Nests [] []
  /-- A token that is no parenthesis stays. -/
  | keep {t : Token} {ts ns : List Token} (ho : t.isEntity '(' = false)
      (hc : t.isEntity ')' = false) (h : Nests ts ns) : Nests (t :: ts) (t :: ns)
  /-- Two parentheses and what stands between become a group. -/
  | group {o c : Token} {ts us ns ms : List Token} (ho : o.isEntity '(' = true)
      (hc : c.isEntity ')' = true) (hin : Nests ts ns) (h : Nests us ms) :
      Nests (o :: (ts ++ c :: us)) (⟨.group ns, o.span.cover c.span⟩ :: ms)

theorem Nests.append (h : Nests ts ns) (h' : Nests us ms) : Nests (ts ++ us) (ns ++ ms) := by
  induction h with
  | nil => exact h'
  | keep ho hc _ ih => exact .keep ho hc ih
  | @group o c ts ws ns vs ho hc hin _ _ ih =>
    rw [List.cons_append, List.append_assoc, List.cons_append, List.cons_append]
    exact .group ho hc hin ih

theorem kind_of_isEntity {c : Char} (h : t.isEntity c = true) : t.kind = .entity c := by
  unfold isEntity at h
  split at h
  next d hd =>
    rw [beq_iff_eq] at h
    rw [hd, h]
  next => cases h

/-- A token is at most one structuring character. -/
theorem isEntity_of_ne {c d : Char} (h : t.isEntity c = true) (hne : c ≠ d) :
    t.isEntity d = false := by
  unfold isEntity
  rw [kind_of_isEntity h]
  exact beq_false_of_ne hne

/-! ## What the stack makes of balanced tokens -/

theorem nestFrom_open (ho : t.isEntity '(' = true) :
    nestFrom opened done (t :: ts) = nestFrom (⟨t.span, done⟩ :: opened) [] ts := by
  rw [nestFrom.eq_def]
  exact if_pos ho

theorem nestFrom_close (hc : t.isEntity ')' = true) (g : OpenGroup) :
    nestFrom (g :: opened) done (t :: ts)
      = nestFrom opened (⟨.group done.reverse, g.paren.cover t.span⟩ :: g.before) ts := by
  rw [nestFrom.eq_def]
  exact (if_neg (Bool.eq_false_iff.1 (isEntity_of_ne hc (by decide)))).trans (if_pos hc)

/-- No group is open that the parenthesis could close. -/
theorem nestFrom_stray (hc : t.isEntity ')' = true) :
    nestFrom [] done (t :: ts) = .error ⟨.unbalancedGroup, t.span⟩ := by
  rw [nestFrom.eq_def]
  exact (if_neg (Bool.eq_false_iff.1 (isEntity_of_ne hc (by decide)))).trans (if_pos hc)

theorem nestFrom_keep (ho : t.isEntity '(' = false) (hc : t.isEntity ')' = false) :
    nestFrom opened done (t :: ts) = nestFrom opened (t :: done) ts := by
  rw [nestFrom.eq_def]
  exact (if_neg (Bool.eq_false_iff.1 ho)).trans (if_neg (Bool.eq_false_iff.1 hc))

/-- Balanced tokens leave the stack as it is. -/
theorem nestFrom_append (h : Nests ts ns) (opened : List OpenGroup) (done rest : List Token) :
    nestFrom opened done (ts ++ rest) = nestFrom opened (ns.reverse ++ done) rest := by
  induction h generalizing opened done rest with
  | nil => rfl
  | @keep t ts ns ho hc _ ih =>
    rw [List.cons_append, nestFrom_keep ho hc, ih, List.reverse_cons, List.append_assoc]
    rfl
  | @group o c ts us ns ms ho hc _ _ ihin ih =>
    rw [List.cons_append, List.append_assoc, nestFrom_open ho, ihin, List.cons_append,
      nestFrom_close hc, ih, List.append_nil, List.reverse_reverse, List.reverse_cons,
      List.append_assoc]
    rfl

/-! ## What the stack stands for -/

/-- **The tokens that a stack of open groups stands for**: for each group
from the outermost on those before its parenthesis, and the
parenthesis. -/
inductive Opens : List Token → List OpenGroup → Prop where
  /-- No group is open. -/
  | nil : Opens [] []
  /-- A further group is open. -/
  | cons {ps bs : List Token} {o : Token} {g : OpenGroup} {gs : List OpenGroup} (h : Opens ps gs)
      (hb : Nests bs g.before.reverse) (ho : o.isEntity '(' = true) (hs : o.span = g.paren) :
      Opens (ps ++ (bs ++ [o])) (g :: gs)

/-- **All that matching parentheses can come to.** A parenthesis without
a partner has nothing but matched ones on one of its sides: before it, if
it closes, and behind it, if it opens. -/
inductive Outcome : List Token → ParseResult (List Token) → Prop where
  /-- All parentheses have partners. -/
  | nested {ts ns : List Token} (h : Nests ts ns) : Outcome ts (.ok ns)
  /-- A parenthesis closes nothing. -/
  | stray {us ns vs : List Token} {c : Token} (h : Nests us ns) (hc : c.isEntity ')' = true) :
      Outcome (us ++ c :: vs) (.error ⟨.unbalancedGroup, c.span⟩)
  /-- A parenthesis is not closed. -/
  | unclosed {us vs ns : List Token} {o : Token} {gs : List OpenGroup} (ho : o.isEntity '(' = true)
      (hus : Opens (us ++ [o]) gs) (h : Nests vs ns) :
      Outcome (us ++ o :: vs) (.error ⟨.unbalancedGroup, o.span⟩)

/-- **The stack loses nothing**: the outcome is one of the tokens that it
stands for, those read since, and those still to be read. -/
theorem outcome_nestFrom {ps fs : List Token} (hopened : Opens ps opened)
    (hdone : Nests fs done.reverse) : Outcome (ps ++ (fs ++ ts)) (nestFrom opened done ts) := by
  -- the stack and the tokens since its innermost group stand for all that was read before `ts`
  induction ts generalizing ps fs opened done with
  | nil =>
    rw [List.append_nil]
    cases hopened with
    | nil => exact .nested hdone
    | @cons ps bs o g gs h hb ho hs =>
      have hopened : Opens (ps ++ bs ++ [o]) (g :: gs) := by
        rw [List.append_assoc]
        exact .cons h hb ho hs
      have hunclosed := Outcome.unclosed ho hopened hdone
      rw [hs, List.append_assoc] at hunclosed
      rw [List.append_assoc, List.append_assoc]
      exact hunclosed
  | cons t ts ih =>
    by_cases ho : t.isEntity '(' = true
    · rw [nestFrom_open ho]
      have hnext := ih (hopened.cons (g := ⟨t.span, done⟩) hdone ho rfl)
        (show Nests [] [].reverse from .nil)
      rwa [List.nil_append, List.append_assoc, List.append_assoc] at hnext
    · have ho : t.isEntity '(' = false := Bool.of_not_eq_true ho
      by_cases hc : t.isEntity ')' = true
      · cases hopened with
        | nil =>
          rw [nestFrom_stray hc]
          exact .stray hdone hc
        | @cons ps bs o g gs hgs hb ho' hs =>
          rw [nestFrom_close hc]
          -- the innermost group is complete and joins the tokens before it
          have hgroup : Nests (o :: (fs ++ [t])) [⟨.group done.reverse, g.paren.cover t.span⟩] :=
            hs ▸ .group ho' hc hdone .nil
          have hall := hb.append hgroup
          rw [← List.reverse_cons] at hall
          have hnext := ih hgs hall
          simpa using hnext
      · have hc : t.isEntity ')' = false := Bool.of_not_eq_true hc
        rw [nestFrom_keep ho hc]
        have hkeep := hdone.append (.keep ho hc .nil)
        rw [← List.reverse_cons] at hkeep
        have hnext := ih hopened hkeep
        rwa [List.append_assoc] at hnext

theorem outcome_nest (ts : List Token) : Outcome ts (nest ts) :=
  outcome_nestFrom .nil (show Nests [] [].reverse from .nil)

/-- **Matching parentheses succeeds on balanced tokens only**, and then
gives what it should. -/
theorem nest_eq_ok_iff : nest ts = .ok ns ↔ Nests ts ns := by
  constructor
  · intro h
    have houtcome := outcome_nest ts
    rw [h] at houtcome
    cases houtcome with
    | nested h => exact h
  · intro h
    have hall := nestFrom_append h [] [] []
    rw [List.append_nil, List.append_nil] at hall
    rw [nest, hall, nestFrom, List.reverse_reverse]

end Regexp.Token
