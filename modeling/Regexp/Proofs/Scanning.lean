import Regexp.Token.Piece

/-!
# Pieces of a text in front of another one

A piece of a text is cut in the same way whatever follows, with three
exceptions: a backslash at the end takes the next character, `\u` takes
braces that follow, and an operator takes a question mark. If none of
this happens, the pieces of two texts together are those of the first and
those of the second (`Piece.scan_append`).

Two operators that were cut as one make it hard to follow the pieces
character by character. Taken apart again (`Piece.single`), the pieces of
`c :: s` are one piece and then those of `s`, whatever the operators.
-/

namespace Regexp.Piece

variable {c d : Char} {s t digits : List Char} {p : Piece} {ps qs : List Piece} {op : Operator}

/-! ## Cutting one piece -/

theorem char_ne_backslash (op : Operator) : op.char ≠ '\\' := by
  cases op <;> decide

theorem ofChar?_char (op : Operator) : Operator.ofChar? op.char = some op := by
  cases op <;> rfl

theorem ofChar?_eq_none_iff : Operator.ofChar? c = none ↔ ∀ op : Operator, c ≠ op.char := by
  constructor
  · rintro h op rfl
    rw [ofChar?_char] at h
    cases h
  · intro h
    cases hop : Operator.ofChar? c with
    | none => rfl
    | some op => exact (h op (char_of_ofChar? hop).symm).elim

/-- A character without a meaning of its own is a piece. -/
theorem cut_plain (hc : c ≠ '\\') (hop : Operator.ofChar? c = none) (s : List Char) :
    cut c s = (plain c, s) := by
  unfold cut
  rw [if_neg hc, hop]

theorem scan_plain (hc : c ≠ '\\') (hop : Operator.ofChar? c = none) (s : List Char) :
    scan (c :: s) = plain c :: scan s := by
  rw [scan_cons, cut_plain hc hop]

/-- Characters that are no operators and no backslashes are pieces,
whatever follows. -/
theorem scan_append_of_plain (h : ∀ c ∈ s, c ≠ '\\' ∧ Operator.ofChar? c = none) (t : List Char) :
    scan (s ++ t) = s.map plain ++ scan t := by
  induction s with
  | nil => rfl
  | cons c s ih =>
    obtain ⟨⟨hc, hop⟩, hs⟩ := List.forall_mem_cons.1 h
    rw [List.cons_append, scan_plain hc hop, ih hs]
    rfl

/-- A backslash takes the next character. -/
theorem cut_escape (hd : d ≠ 'u') (s : List Char) : cut '\\' (d :: s) = (escape d, s) := by
  rw [cut, if_pos rfl]
  exact fun _ h _ => hd h

theorem splitAtBrace?_append (h : '\x7d' ∉ digits) (s : List Char) :
    splitAtBrace? (digits ++ '\x7d' :: s) = some (digits, s) := by
  induction digits with
  | nil => rfl
  | cons c digits ih =>
    rw [List.mem_cons, not_or] at h
    rw [List.cons_append, splitAtBrace?, if_neg (Ne.symm h.1), ih h.2]
    rfl

/-- A unicode escape reaches up to the first closing brace. -/
theorem cut_unicodeEscape (h : '\x7d' ∉ digits) (s : List Char) :
    cut '\\' ('u' :: '\x7b' :: (digits ++ '\x7d' :: s)) = (unicodeEscape digits, s) := by
  rw [cut, if_pos rfl, splitAtBrace?_append h]

/-- An operator takes a question mark that follows. -/
theorem cut_operator_mark (op : Operator) (s : List Char) :
    cut op.char ('?' :: s) = (operator op true, s) := by
  unfold cut
  rw [if_neg (char_ne_backslash op), ofChar?_char]
  rfl

theorem scan_operator_mark (op : Operator) (s : List Char) :
    scan (op.char :: '?' :: s) = operator op true :: scan s := by
  rw [scan_cons, cut_operator_mark]

/-- An operator takes nothing else. -/
theorem cut_operator (op : Operator) (h : s.head? ≠ some '?') :
    cut op.char s = (operator op false, s) := by
  unfold cut
  rw [if_neg (char_ne_backslash op), ofChar?_char]
  dsimp only
  split
  next => exact (h rfl).elim
  next => rfl

theorem scan_operator (op : Operator) (h : s.head? ≠ some '?') :
    scan (op.char :: s) = operator op false :: scan s := by
  rw [scan_cons, cut_operator op h]

/-- A piece starts with the character that it was cut at. -/
theorem head?_text_of_cut (h : (cut c s).1 = p) : p.text.head? = some c := by
  have htext := text_append_cut c s
  rw [h] at htext
  cases p <;> exact congrArg some (List.cons.inj htext).1

/-! ## Pieces of two texts -/

/-- The piece does not wait for more: it is neither a backslash without a
character nor `\u` without its braces. -/
def IsComplete (p : Piece) : Prop := p ≠ backslash ∧ p ≠ escape 'u'

theorem splitAtBrace?_append_of_some {inner rest : List Char}
    (h : splitAtBrace? s = some (inner, rest)) (t : List Char) :
    splitAtBrace? (s ++ t) = some (inner, rest ++ t) := by
  induction s generalizing inner with
  | nil => cases h
  | cons c s ih =>
    rw [splitAtBrace?] at h
    rw [List.cons_append, splitAtBrace?]
    split at h
    next hc =>
      cases h
      rw [if_pos hc]
    next hc =>
      obtain ⟨⟨inner', rest'⟩, h', heq⟩ := Option.map_eq_some_iff.1 h
      cases heq
      rw [if_neg hc, ih h']
      rfl

/-- A complete escape is cut in the same way whatever follows. -/
theorem cut_backslash_append (h : (cut '\\' s).1.IsComplete) (t : List Char) :
    cut '\\' (s ++ t) = ((cut '\\' s).1, (cut '\\' s).2 ++ t) := by
  match s, h with
  | [], h => exact (h.1 rfl).elim
  | d :: s, h =>
    by_cases hd : d = 'u'
    · subst hd
      match s, h with
      | [], h => exact (h.2 rfl).elim
      | e :: s, h =>
        by_cases he : e = '\x7b'
        · subst he
          cases hs : splitAtBrace? s with
          | none =>
            -- the closing brace may still come
            rw [cut, if_pos rfl, hs] at h
            exact (h.2 rfl).elim
          | some inner =>
            obtain ⟨inner, rest⟩ := inner
            rw [List.cons_append, List.cons_append, cut, cut, if_pos rfl, if_pos rfl, hs,
              splitAtBrace?_append_of_some hs]
        · rw [cut, if_pos rfl] at h
          · exact (h.2 rfl).elim
          · rintro rest - hrest
            exact he (List.cons.inj hrest).1
    · rw [List.cons_append, cut_escape hd, cut_escape hd]

/-- An operator is cut in the same way unless a question mark follows. -/
theorem cut_operator_append (op : Operator) (ht : t.head? ≠ some '?') :
    cut op.char (s ++ t) = ((cut op.char s).1, (cut op.char s).2 ++ t) := by
  match s with
  | [] => rw [List.nil_append, cut_operator op ht, cut_operator op (by simp), List.nil_append]
  | d :: s =>
    by_cases hd : d = '?'
    · subst hd
      rw [List.cons_append, cut_operator_mark, cut_operator_mark]
    · have hne : ∀ u : List Char, (d :: u).head? ≠ some '?' := fun u h => hd (Option.some.inj h)
      rw [cut_operator op (hne s), List.cons_append, cut_operator op (hne _)]

/-- A complete piece is cut in the same way whatever follows, unless a
question mark is taken. -/
theorem cut_append (h : (cut c s).1.IsComplete) (ht : t.head? ≠ some '?') :
    cut c (s ++ t) = ((cut c s).1, (cut c s).2 ++ t) := by
  by_cases hc : c = '\\'
  · subst hc
    exact cut_backslash_append h t
  · cases hop : Operator.ofChar? c with
    | none => rw [cut_plain hc hop, cut_plain hc hop]
    | some op =>
      obtain rfl := char_of_ofChar? hop
      exact cut_operator_append op ht

/-- **The pieces of two texts**, if no piece runs from the first into the
second. -/
theorem scan_append (hs : ∀ p ∈ scan s, p.IsComplete) (ht : t.head? ≠ some '?') :
    scan (s ++ t) = scan s ++ scan t := by
  induction s using scan.induct with
  | case1 => rw [scan_nil]; rfl
  | case2 c s ih =>
    rw [scan_cons] at hs
    obtain ⟨hp, hps⟩ := List.forall_mem_cons.1 hs
    rw [List.cons_append, scan_cons, cut_append hp ht, scan_cons c s, ih hps]
    rfl

/-! ## One piece for each character -/

/-- The piece, with an operator and its question mark taken apart. -/
def single : Piece → List Piece
  | operator op true => [operator op false, operator .question false]
  | p => [p]

/-- Nothing else is taken apart. -/
theorem single_of_ne (hp : ∀ op, p ≠ operator op true) : single p = [p] := by
  cases p with
  | operator op isLazy =>
    cases isLazy with
    | true => exact (hp op rfl).elim
    | false => rfl
  | _ => rfl

/-- The pieces of a text, with operators and their question marks taken
apart. -/
def singles (s : List Char) : List Piece :=
  (scan s).flatMap single

@[simp] theorem singles_nil : singles [] = [] := by
  unfold singles
  rw [scan_nil]
  rfl

theorem singles_plain (hc : c ≠ '\\') (hop : Operator.ofChar? c = none) (s : List Char) :
    singles (c :: s) = plain c :: singles s := by
  unfold singles
  rw [scan_plain hc hop]
  rfl

theorem singles_escape (hd : d ≠ 'u') (s : List Char) :
    singles ('\\' :: d :: s) = escape d :: singles s := by
  unfold singles
  rw [scan_cons, cut_escape hd]
  rfl

theorem singles_unicodeEscape (h : '\x7d' ∉ digits) (s : List Char) :
    singles ('\\' :: 'u' :: '\x7b' :: (digits ++ '\x7d' :: s))
      = unicodeEscape digits :: singles s := by
  unfold singles
  rw [scan_cons, cut_unicodeEscape h]
  rfl

/-- **An operator is a piece of its own**, whether or not question marks
follow. -/
theorem singles_operator (op : Operator) (s : List Char) :
    singles (op.char :: s) = operator op false :: singles s := by
  induction h : s.length using Nat.strongRecOn generalizing op s with
  | ind n ih =>
    match s with
    | [] =>
      unfold singles
      rw [scan_operator op (by simp)]
      rfl
    | d :: s =>
      by_cases hd : d = '?'
      · -- cut together with the operator, which the rest does not see
        subst hd
        have hs : singles (op.char :: '?' :: s)
            = operator op false :: operator .question false :: singles s := by
          unfold singles
          rw [scan_operator_mark]
          rfl
        rw [hs, ← ih s.length (by rw [← h]; exact Nat.lt_succ_self _) .question s rfl]
        rfl
      · unfold singles
        have hne : (d :: s).head? ≠ some '?' := fun h => hd (Option.some.inj h)
        rw [scan_operator op hne]
        rfl

/-- A piece that is no operator stands where it stood. -/
theorem mem_scan_of_mem_singles (hp : ∀ op isLazy, p ≠ operator op isLazy) :
    p ∈ scan s ↔ p ∈ singles s := by
  unfold singles
  rw [List.mem_flatMap]
  constructor
  · intro h
    refine ⟨p, h, ?_⟩
    rw [single_of_ne fun op => hp op true]
    exact List.mem_singleton_self p
  · rintro ⟨q, hq, hpq⟩
    by_cases hfused : ∃ op, q = operator op true
    · obtain ⟨op, rfl⟩ := hfused
      obtain rfl | hpq := List.mem_cons.1 hpq
      · exact (hp _ _ rfl).elim
      · exact (hp _ _ (List.mem_singleton.1 hpq)).elim
    · rw [single_of_ne fun op hop => hfused ⟨op, hop⟩] at hpq
      exact List.mem_singleton.1 hpq ▸ hq

end Regexp.Piece
