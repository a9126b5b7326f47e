import Regexp.Proofs.Composition

/-!
# Which patterns are not supported

Not every pattern that has a tree has an automaton: some meta characters
have no normal form, and repetitions with bounds are not compiled. What a
pattern is rejected for can be read off its tokens from left to right,
where the tokens of a set stand in the place of the set
(`Token.inPlace`).

A tree is walked twice, by normalizing and by compiling, and the second
walk looks at a body before its quantifier. Both meet what belongs to the
tokens in the order of the tokens, so it is always the first unsupported
token that is reported (`Pattern.compile_of_parse`): the first one among
the meta characters if there is one there, since normalizing comes first.
-/

namespace Regexp

/-! ## Tokens where they stand -/

/-- **A token of a pattern where it stands.** -/
structure Occurrence where
  /-- The token. -/
  token : Token
  /-- Whether it stands inside a set. -/
  inSet : Bool

namespace Token

/-- The token, or, in the place of a set, what stands between its
brackets. -/
def occurrences (t : Token) : List Occurrence :=
  match t.kind with
  | .charSet members => members.map (⟨·, true⟩)
  | _ => [⟨t, false⟩]

/-- The tokens from left to right, with those of a set in its place. -/
def inPlace (ts : List Token) : List Occurrence :=
  ts.flatMap occurrences

end Token

/-- What is wrong with a meta character outside or inside a set. -/
def MetaChar.fault? (m : MetaChar) (inSet : Bool) : Option NormalizeFault :=
  match m, inSet with
  | dot, _ | backspace, _ | null, _ => some (.unsupportedMetaChar m)
  | notSpace, true | notWord, true | notDigit, true => some (.unsupportedNestedMetaChar m)
  | _, _ => none

/-- The quantifier as which a quantity with bounds is reported: equal
bounds are an exact count, and an exact count is never lazy. -/
def Quantity.bound? (q : Quantity) : Option Quantifier :=
  match q.count with
  | .exactly n => some (.exactly n)
  | .between lower upper =>
    some (if lower = upper then .exactly lower else .between lower upper q.greedy)
  | .atLeast n => some (.atLeast n q.greedy)
  | _ => none

namespace Occurrence

/-- What is wrong with the token if it is a meta character. -/
def metaFault? (o : Occurrence) : Option NormalizeFault :=
  match o.token.kind with
  | .metaChar m => m.fault? o.inSet
  | _ => none

/-- The quantifier as which the token is reported if it has bounds. -/
def bound? (o : Occurrence) : Option Quantifier :=
  match o.token.kind with
  | .quantity q => q.bound?
  | _ => none

end Occurrence

namespace Token

/-- The fault of the first meta character that has one. -/
def firstMetaFault? (ts : List Token) : Option NormalizeFault :=
  (inPlace ts).findSome? Occurrence.metaFault?

/-- The first quantity with bounds, as it is reported. -/
def firstBound? (ts : List Token) : Option Quantifier :=
  (inPlace ts).findSome? Occurrence.bound?

variable {t : Token} {ts us : List Token}

theorem firstMetaFault?_append (ts us : List Token) :
    firstMetaFault? (ts ++ us) = (firstMetaFault? ts).or (firstMetaFault? us) := by
  rw [firstMetaFault?, inPlace, List.flatMap_append]
  exact List.findSome?_append

theorem firstMetaFault?_cons (t : Token) (ts : List Token) :
    firstMetaFault? (t :: ts) = (firstMetaFault? [t]).or (firstMetaFault? ts) :=
  firstMetaFault?_append [t] ts

theorem firstBound?_append (ts us : List Token) :
    firstBound? (ts ++ us) = (firstBound? ts).or (firstBound? us) := by
  rw [firstBound?, inPlace, List.flatMap_append]
  exact List.findSome?_append

theorem firstBound?_cons (t : Token) (ts : List Token) :
    firstBound? (t :: ts) = (firstBound? [t]).or (firstBound? ts) :=
  firstBound?_append [t] ts

/-- Outside sets a token stands for itself. -/
theorem inPlace_singleton (h : ∀ members, t.kind ≠ .charSet members) :
    inPlace [t] = [⟨t, false⟩] := by
  show t.occurrences ++ [] = _
  rw [List.append_nil, occurrences]
  split
  next members hk => exact (h members hk).elim
  next => rfl

theorem inPlace_charSet {members : List Token} (h : t.kind = .charSet members) :
    inPlace [t] = members.map (⟨·, true⟩) := by
  show t.occurrences ++ [] = _
  rw [List.append_nil, occurrences, h]

theorem inPlace_of_letter? {a : Letter} (h : t.letter? = some a) : inPlace [t] = [⟨t, false⟩] := by
  refine inPlace_singleton fun members hk => ?_
  rw [letter?, hk] at h
  cases h

theorem inPlace_of_metaChar {m : MetaChar} (h : t.kind = .metaChar m) :
    inPlace [t] = [⟨t, false⟩] :=
  inPlace_singleton fun _ hk => nomatch h.symm.trans hk

theorem inPlace_of_isEntity {c : Char} (h : t.isEntity c = true) : inPlace [t] = [⟨t, false⟩] :=
  inPlace_singleton fun _ hk => nomatch (kind_of_isEntity h).symm.trans hk

theorem inPlace_of_quantity {q : Quantity} (h : t.kind = .quantity q) :
    inPlace [t] = [⟨t, false⟩] :=
  inPlace_singleton fun _ hk => nomatch h.symm.trans hk

theorem kind_of_letter? {a : Letter} (h : t.letter? = some a) :
    (∃ c, t.kind = .char c) ∨ ∃ codePoint width, t.kind = .unicode codePoint width := by
  unfold letter? at h
  split at h
  next c hk => exact .inl ⟨c, hk⟩
  next codePoint width hk => exact .inr ⟨codePoint, width, hk⟩
  next => cases h

end Token

namespace Occurrence

variable {o : Occurrence}

/-- **Nothing is wrong with a letter.** -/
theorem metaFault?_of_letter? {a : Letter} (h : o.token.letter? = some a) :
    o.metaFault? = none := by
  rw [metaFault?]
  obtain ⟨c, hk⟩ | ⟨codePoint, width, hk⟩ := Token.kind_of_letter? h <;> rw [hk]

theorem bound?_of_letter? {a : Letter} (h : o.token.letter? = some a) : o.bound? = none := by
  rw [bound?]
  obtain ⟨c, hk⟩ | ⟨codePoint, width, hk⟩ := Token.kind_of_letter? h <;> rw [hk]

/-- Nor with a structuring character. -/
theorem metaFault?_of_isEntity {c : Char} (h : o.token.isEntity c = true) :
    o.metaFault? = none := by
  rw [metaFault?, Token.kind_of_isEntity h]

theorem bound?_of_isEntity {c : Char} (h : o.token.isEntity c = true) : o.bound? = none := by
  rw [bound?, Token.kind_of_isEntity h]

theorem metaFault?_of_metaChar {m : MetaChar} (h : o.token.kind = .metaChar m) :
    o.metaFault? = m.fault? o.inSet := by
  rw [metaFault?, h]

theorem bound?_of_metaChar {m : MetaChar} (h : o.token.kind = .metaChar m) : o.bound? = none := by
  rw [bound?, h]

end Occurrence

/-! ## Symbols -/

theorem MetaChar.faultOf?_normalize (m : MetaChar) : faultOf? m.normalize = m.fault? false := by
  cases m <;> rfl

theorem SetItem.faultOf?_normalize (m : MetaChar) :
    faultOf? (SetItem.metaChar m).normalize = m.fault? true := by
  cases m <;> rfl

namespace CharSet

variable {ts : List Token} {is : List SetItem} {s : CharSet}

theorem faultOf?_normalizeItems_cons (i : SetItem) (is : List SetItem) :
    faultOf? (normalizeItems (i :: is))
      = (faultOf? i.normalize).or (faultOf? (normalizeItems is)) := by
  rw [normalizeItems]
  cases i.normalize with
  | error fault => rfl
  | ok js => exact faultOf?_map _ _

/-- **The items of a set have the faults of its tokens**, in the same
order. -/
theorem faultOf?_normalizeItems_of_lists (h : Lists ts is) :
    faultOf? (normalizeItems is) = ts.findSome? fun t => Occurrence.metaFault? ⟨t, true⟩ := by
  induction h with
  | nil => rfl
  | @metaChar t ts m is h _ ih =>
    have ht : Occurrence.metaFault? ⟨t, true⟩ = m.fault? true :=
      Occurrence.metaFault?_of_metaChar h
    rw [faultOf?_normalizeItems_cons, SetItem.faultOf?_normalize, ih, List.findSome?_cons, ht]
    cases m.fault? true <;> rfl
  | @letter t ts a is h _ ih =>
    have ht : Occurrence.metaFault? ⟨t, true⟩ = none := Occurrence.metaFault?_of_letter? h
    rw [faultOf?_normalizeItems_cons, ih, List.findSome?_cons, ht]
    rfl
  | @range t d u ts a b is ha hd hb _ ih =>
    have ht : Occurrence.metaFault? ⟨t, true⟩ = none := Occurrence.metaFault?_of_letter? ha
    have hd : Occurrence.metaFault? ⟨d, true⟩ = none := Occurrence.metaFault?_of_isEntity hd
    have hu : Occurrence.metaFault? ⟨u, true⟩ = none := Occurrence.metaFault?_of_letter? hb
    rw [faultOf?_normalizeItems_cons, ih, List.findSome?_cons, ht, List.findSome?_cons, hd,
      List.findSome?_cons, hu]
    rfl

theorem faultOf?_normalize_of_spells (h : Spells ts s) :
    faultOf? s.normalize = ts.findSome? fun t => Occurrence.metaFault? ⟨t, true⟩ := by
  rw [normalize, faultOf?_map]
  cases h with
  | positive h => exact faultOf?_normalizeItems_of_lists h
  | @negative t ts is ht h =>
    have ht : Occurrence.metaFault? ⟨t, true⟩ = none := Occurrence.metaFault?_of_isEntity ht
    rw [List.findSome?_cons, ht]
    exact faultOf?_normalizeItems_of_lists h

/-- No token of a set has bounds. -/
theorem bound?_of_lists (h : Lists ts is) : ∀ t ∈ ts, Occurrence.bound? ⟨t, true⟩ = none := by
  induction h with
  | nil => exact List.forall_mem_nil _
  | metaChar h _ ih => exact List.forall_mem_cons.2 ⟨Occurrence.bound?_of_metaChar h, ih⟩
  | letter h _ ih => exact List.forall_mem_cons.2 ⟨Occurrence.bound?_of_letter? h, ih⟩
  | range ha hd hb _ ih =>
    exact List.forall_mem_cons.2 ⟨Occurrence.bound?_of_letter? ha, List.forall_mem_cons.2
      ⟨Occurrence.bound?_of_isEntity hd, List.forall_mem_cons.2
        ⟨Occurrence.bound?_of_letter? hb, ih⟩⟩⟩

theorem bound?_of_spells (h : Spells ts s) : ∀ t ∈ ts, Occurrence.bound? ⟨t, true⟩ = none := by
  cases h with
  | positive h => exact bound?_of_lists h
  | negative ht h =>
    exact List.forall_mem_cons.2 ⟨Occurrence.bound?_of_isEntity ht, bound?_of_lists h⟩

end CharSet

namespace Token

variable {t : Token} {s : Symbol}

/-- **A symbol has the fault of its token.** -/
theorem faultOf?_normalize_of_spells (h : t.Spells s) :
    faultOf? s.normalize = firstMetaFault? [t] := by
  cases h with
  | letter h =>
    rw [firstMetaFault?, inPlace_of_letter? h, List.findSome?_singleton,
      Occurrence.metaFault?_of_letter? h]
    rfl
  | @metaChar m h =>
    rw [firstMetaFault?, inPlace_of_metaChar h, List.findSome?_singleton,
      Occurrence.metaFault?_of_metaChar h]
    exact MetaChar.faultOf?_normalize m
  | @set ts s h hs =>
    rw [firstMetaFault?, inPlace_charSet h, List.findSome?_map, Symbol.normalize, faultOf?_map]
    exact CharSet.faultOf?_normalize_of_spells hs

theorem firstBound?_of_spells (h : t.Spells s) : firstBound? [t] = none := by
  cases h with
  | letter h =>
    rw [firstBound?, inPlace_of_letter? h, List.findSome?_singleton, Occurrence.bound?_of_letter? h]
  | metaChar h =>
    rw [firstBound?, inPlace_of_metaChar h, List.findSome?_singleton,
      Occurrence.bound?_of_metaChar h]
  | set h hs =>
    rw [firstBound?, inPlace_charSet h, List.findSome?_eq_none_iff]
    exact List.forall_mem_map.2 (CharSet.bound?_of_spells hs)

theorem firstMetaFault?_of_isEntity {c : Char} (h : t.isEntity c = true) :
    firstMetaFault? [t] = none := by
  rw [firstMetaFault?, inPlace_of_isEntity h, List.findSome?_singleton,
    Occurrence.metaFault?_of_isEntity h]

theorem firstBound?_of_isEntity {c : Char} (h : t.isEntity c = true) : firstBound? [t] = none := by
  rw [firstBound?, inPlace_of_isEntity h, List.findSome?_singleton,
    Occurrence.bound?_of_isEntity h]

theorem firstMetaFault?_of_quantity {q : Quantity} (h : t.kind = .quantity q) :
    firstMetaFault? [t] = none := by
  rw [firstMetaFault?, inPlace_of_quantity h, List.findSome?_singleton, Occurrence.metaFault?, h]

/-- **A quantity is reported as its normalized quantifier.** -/
theorem firstBound?_of_quantity {q : Quantity} (h : t.kind = .quantity q) :
    (firstBound? [t]).map .unsupportedQuantifier = q.quantifier.normalize.fault? := by
  rw [firstBound?, inPlace_of_quantity h, List.findSome?_singleton, Occurrence.bound?, h]
  obtain ⟨count, greedy⟩ := q
  cases count with
  | between lower upper =>
    show some (CompileFault.unsupportedQuantifier (if lower = upper then _ else _)) = _
    rw [Quantity.quantifier, Quantifier.normalize]
    split <;> rfl
  | _ => rfl

end Token

/-! ## Trees -/

namespace Expr

open Token

variable {level : Level} {ts : List Token} {es ns : List Expr} {e n : Expr}

theorem faultOf?_normalizeAll_cons (e : Expr) (es : List Expr) :
    faultOf? (normalizeAll (e :: es))
      = (faultOf? e.normalize).or (faultOf? (normalizeAll es)) := by
  rw [normalizeAll]
  cases e.normalize with
  | error fault => rfl
  | ok n => exact faultOf?_map _ _

theorem faultOf?_normalizeAll_singleton (e : Expr) :
    faultOf? (normalizeAll [e]) = faultOf? e.normalize := by
  rw [faultOf?_normalizeAll_cons]
  exact Option.or_none

theorem normalizeAll_singleton (e : Expr) : normalizeAll [e] = e.normalize.map ([·]) := by
  rw [normalizeAll]
  cases e.normalize <;> rfl

theorem normalizeAll_singleton_of_normalize (h : e.normalize = .ok n) :
    normalizeAll [e] = .ok [n] := by
  rw [normalizeAll_singleton, h]
  rfl

theorem exists_of_normalizeAll_cons_cons {f : Expr} (h : normalizeAll (e :: f :: es) = .ok ns) :
    ∃ m k ks, ns = m :: k :: ks := by
  obtain ⟨m, ms, -, hms, rfl⟩ := normalizeAll_cons_eq_ok_iff.1 h
  obtain ⟨k, ks, -, -, rfl⟩ := normalizeAll_cons_eq_ok_iff.1 hms
  exact ⟨m, k, ks, rfl⟩

/-- The items of a row are normalized one by one, also if there is a
single one. -/
theorem normalize_ofRow (es : List Expr) : (ofRow es).normalize = (normalizeAll es).map ofRow := by
  match es with
  | [] => rfl
  | [e] =>
    show e.normalize = (normalizeAll [e]).map ofRow
    rw [normalizeAll_singleton]
    cases e.normalize <;> rfl
  | e :: f :: es =>
    show (normalizeAll (e :: f :: es)).map sequence = _
    cases h : normalizeAll (e :: f :: es) with
    | error fault => rfl
    | ok ns =>
      obtain ⟨m, k, ks, rfl⟩ := exists_of_normalizeAll_cons_cons h
      rfl

theorem normalize_ofBranchList (es : List Expr) :
    (ofBranchList es).normalize = (normalizeAll es).map ofBranchList := by
  match es with
  | [] => rfl
  | [e] =>
    show e.normalize = (normalizeAll [e]).map ofBranchList
    rw [normalizeAll_singleton]
    cases e.normalize <;> rfl
  | e :: f :: es =>
    show (normalizeAll (e :: f :: es)).map choice = _
    cases h : normalizeAll (e :: f :: es) with
    | error fault => rfl
    | ok ns =>
      obtain ⟨m, k, ks, rfl⟩ := exists_of_normalizeAll_cons_cons h
      rfl

theorem compileFaultOfAll?_singleton (e : Expr) : compileFaultOfAll? [e] = e.compileFault? :=
  Option.or_none

theorem compileFault?_ofRow (es : List Expr) :
    (ofRow es).compileFault? = compileFaultOfAll? es := by
  match es with
  | [] => rfl
  | [e] => exact (compileFaultOfAll?_singleton e).symm
  | _ :: _ :: _ => rfl

theorem compileFault?_ofBranchList (es : List Expr) :
    (ofBranchList es).compileFault? = compileFaultOfAll? es := by
  match es with
  | [] => rfl
  | [e] => exact (compileFaultOfAll?_singleton e).symm
  | _ :: _ :: _ => rfl

/-- **Normalizing meets the meta characters in the order of the
tokens.** -/
theorem faultOf?_normalizeAll_of_derives (h : Derives level ts es) :
    faultOf? (normalizeAll es) = firstMetaFault? ts := by
  induction h with
  | symbol h =>
    rw [faultOf?_normalizeAll_singleton, normalize, faultOf?_map, faultOf?_normalize_of_spells h]
  | emptyGroup ho hc =>
    rw [firstMetaFault?_cons, firstMetaFault?_of_isEntity ho, firstMetaFault?_of_isEntity hc]
    rfl
  | group ho hc _ ih =>
    rw [faultOf?_normalizeAll_singleton] at ih
    rw [faultOf?_normalizeAll_singleton, normalize, faultOf?_map, ih, firstMetaFault?_cons,
      firstMetaFault?_append, firstMetaFault?_of_isEntity ho, firstMetaFault?_of_isEntity hc,
      Option.or_none, Option.none_or]
  | atom _ ih => exact ih
  | repetition _ ht ih =>
    rw [faultOf?_normalizeAll_singleton] at ih
    rw [faultOf?_normalizeAll_singleton, normalize, faultOf?_map, ih, firstMetaFault?_append,
      firstMetaFault?_of_quantity ht, Option.or_none]
  | item _ ih => exact ih
  | cons _ _ ih ihs =>
    rw [faultOf?_normalizeAll_singleton] at ih
    rw [faultOf?_normalizeAll_cons, ih, ihs, firstMetaFault?_append]
  | branch _ ih => rw [faultOf?_normalizeAll_singleton, normalize_ofRow, faultOf?_map, ih]
  | pipe _ hp _ ih ihs =>
    rw [faultOf?_normalizeAll_cons, normalize_ofRow, faultOf?_map, ih, ihs,
      firstMetaFault?_append, firstMetaFault?_cons, firstMetaFault?_of_isEntity hp,
      Option.none_or]
  | body _ ih => rw [faultOf?_normalizeAll_singleton, normalize_ofBranchList, faultOf?_map, ih]

/-- **Compiling meets the quantifiers in the order of the tokens**, since
a body comes before its quantifier in both. -/
theorem compileFaultOfAll?_of_derives (h : Derives level ts es) (hns : normalizeAll es = .ok ns) :
    compileFaultOfAll? ns = (firstBound? ts).map .unsupportedQuantifier := by
  induction h generalizing ns with
  | symbol h =>
    rw [normalizeAll_singleton, normalize, map_map] at hns
    obtain ⟨s, -, rfl⟩ := map_eq_ok_iff.1 hns
    rw [firstBound?_of_spells h]
    rfl
  | emptyGroup ho hc =>
    obtain rfl := Except.ok.inj hns
    rw [firstBound?_cons, firstBound?_of_isEntity ho, firstBound?_of_isEntity hc]
    rfl
  | group ho hc _ ih =>
    rw [normalizeAll_singleton, normalize, map_map] at hns
    obtain ⟨n, hn, rfl⟩ := map_eq_ok_iff.1 hns
    have hbody := ih (normalizeAll_singleton_of_normalize hn)
    rw [firstBound?_cons, firstBound?_append, firstBound?_of_isEntity ho,
      firstBound?_of_isEntity hc, Option.or_none, Option.none_or, ← hbody]
    rfl
  | atom _ ih => exact ih hns
  | repetition _ ht ih =>
    rw [normalizeAll_singleton, normalize, map_map] at hns
    obtain ⟨n, hn, rfl⟩ := map_eq_ok_iff.1 hns
    have hbody := ih (normalizeAll_singleton_of_normalize hn)
    rw [compileFaultOfAll?_singleton] at hbody
    rw [compileFaultOfAll?_singleton, compileFault?, hbody, firstBound?_append, Option.map_or,
      firstBound?_of_quantity ht]
  | item _ ih => exact ih hns
  | cons _ _ ih ihs =>
    obtain ⟨n, ms, hn, hms, rfl⟩ := normalizeAll_cons_eq_ok_iff.1 hns
    have hfirst := ih (normalizeAll_singleton_of_normalize hn)
    rw [compileFaultOfAll?_singleton] at hfirst
    rw [compileFaultOfAll?, hfirst, ihs hms, firstBound?_append, Option.map_or]
  | branch _ ih =>
    rw [normalizeAll_singleton, normalize_ofRow, map_map] at hns
    obtain ⟨ms, hms, rfl⟩ := map_eq_ok_iff.1 hns
    rw [compileFaultOfAll?_singleton, compileFault?_ofRow, ih hms]
  | pipe _ hp _ ih ihs =>
    obtain ⟨n, ms, hn, hms, rfl⟩ := normalizeAll_cons_eq_ok_iff.1 hns
    rw [normalize_ofRow] at hn
    obtain ⟨ks, hks, rfl⟩ := map_eq_ok_iff.1 hn
    rw [compileFaultOfAll?, compileFault?_ofRow, ih hks, ihs hms, firstBound?_append,
      firstBound?_cons, firstBound?_of_isEntity hp, Option.none_or, Option.map_or]
  | body _ ih =>
    rw [normalizeAll_singleton, normalize_ofBranchList, map_map] at hns
    obtain ⟨ms, hms, rfl⟩ := map_eq_ok_iff.1 hns
    rw [compileFaultOfAll?_singleton, compileFault?_ofBranchList, ih hms]

/-! ## Numbers -/

theorem faultOf?_normalize_numberGroups (e : Expr) :
    faultOf? e.numberGroups.normalize = faultOf? e.normalize := by
  rw [← faultOf?_map e.normalize unnumber, ← normalize_unnumber, ← unnumber_numberGroups,
    normalize_unnumber, faultOf?_map]

/-- The normal form of a numbered tree has the same fault. -/
theorem exists_normalize_of_numberGroups (h : e.numberGroups.normalize = .ok n) :
    ∃ m, e.normalize = .ok m ∧ n.compileFault? = m.compileFault? := by
  have hunnumber : e.normalize.map unnumber = .ok n.unnumber := by
    rw [← normalize_unnumber, ← unnumber_numberGroups, normalize_unnumber, h]
    rfl
  obtain ⟨m, hm, heq⟩ := map_eq_ok_iff.1 hunnumber
  exact ⟨m, hm, by rw [← compileFault?_unnumber n, ← heq, compileFault?_unnumber]⟩

end Expr

/-! ## Patterns -/

namespace Pattern

open Token (firstMetaFault? firstBound? flat_of_lex)

variable {pattern : String} {e? : Option Expr}

theorem compile_of_normalize_eq_error {e : Expr} {fault : NormalizeFault}
    (h : parse pattern = .ok (some e)) (hfault : e.normalize = .error fault) :
    compile pattern = .error (.normalize fault) := by
  rw [compile, normalize, h]
  show ((e.normalize.map some).mapError PatternError.normalize >>= _) = _
  rw [hfault]
  rfl

theorem compile_of_normalize_eq_ok {e n : Expr} (h : parse pattern = .ok (some e))
    (hn : e.normalize = .ok n) :
    faultOf? (compile pattern) = n.compileFault?.map .compile := by
  have hnormal := normalize_eq_ok_iff.2 (.inr ⟨e, n, h, hn, rfl⟩)
  rw [compile, hnormal]
  show faultOf? (((n.construct #[]).map _).mapError PatternError.compile) = _
  rw [faultOf?_mapError, faultOf?_map, Expr.faultOf?_construct]

/-- **What a pattern with a tree is rejected for.** If a meta character
has a fault where it stands, it is the first such fault. Otherwise, if a
quantity has bounds, it is the first such quantity. Every other pattern
has an automaton. -/
theorem compile_of_parse (h : parse pattern = .ok e?) :
    ∃ ts, lex pattern = .ok ts
      ∧ (∀ fault, firstMetaFault? ts = some fault → compile pattern = .error (.normalize fault))
      ∧ (firstMetaFault? ts = none → ∀ q, firstBound? ts = some q →
        compile pattern = .error (.compile (.unsupportedQuantifier q)))
      ∧ (firstMetaFault? ts = none → firstBound? ts = none → ∃ a, compile pattern = .ok a) := by
  obtain ⟨ts, hlex, htree⟩ := parse_eq_ok_iff.1 h
  refine ⟨ts, lex_eq_ok_iff.2 hlex, ?_⟩
  obtain ⟨rfl, rfl⟩ | ⟨e, rfl, he⟩ := (Expr.parse_eq_ok_iff (flat_of_lex hlex)).1 htree
  · have hcompile := compile_eq_ok_iff.2 ⟨none, normalize_eq_ok_iff.2 (.inl ⟨h, rfl⟩), rfl⟩
    exact ⟨fun fault => nofun, fun _ q => nofun, fun _ _ => ⟨_, hcompile⟩⟩
  -- the tree has the faults of the tokens, whether or not its groups are numbered
  have hmeta : faultOf? e.numberGroups.normalize = firstMetaFault? ts := by
    rw [Expr.faultOf?_normalize_numberGroups, ← Expr.faultOf?_normalizeAll_singleton,
      Expr.faultOf?_normalizeAll_of_derives he]
  have hbound (hnone : firstMetaFault? ts = none) : faultOf? (compile pattern)
      = ((firstBound? ts).map .unsupportedQuantifier).map .compile := by
    obtain ⟨n, hn⟩ := faultOf?_eq_none_iff.1 (hmeta.trans hnone)
    obtain ⟨m, hm, hnm⟩ := Expr.exists_normalize_of_numberGroups hn
    rw [compile_of_normalize_eq_ok h hn, hnm, ← Expr.compileFaultOfAll?_singleton,
      Expr.compileFaultOfAll?_of_derives he (Expr.normalizeAll_singleton_of_normalize hm)]
  refine ⟨fun fault hfault => ?_, fun hnone q hq => ?_, fun hnone hq => ?_⟩
  · exact compile_of_normalize_eq_error h (faultOf?_eq_some_iff.1 (hmeta.trans hfault))
  · exact faultOf?_eq_some_iff.1 (by rw [hbound hnone, hq]; rfl)
  · exact faultOf?_eq_none_iff.1 (by rw [hbound hnone, hq]; rfl)

/-- In `(x{2,2}?){3}` the quantity inside the group comes first, and equal
bounds are reported as an exact count. In `a{2}[b\D]\b` the first meta
character with a fault stands in a set, and the quantity is masked. -/
theorem compile_of_parse_first :
    let bounds := "(x\x7b2,2\x7d?)\x7b3\x7d"
    let metas := "a\x7b2\x7d[b\\D]\\b"
    (∃ e?, parse bounds = .ok e?) ∧ (∃ e?, parse metas = .ok e?)
      ∧ compile bounds = .error (.compile (.unsupportedQuantifier (.exactly 2)))
      ∧ compile metas = .error (.normalize (.unsupportedNestedMetaChar .notDigit)) := by
  intro bounds metas
  have hbounds : bounds.toList = ['(', 'x', '\x7b', '2', ',', '2', '\x7d', '?', ')', '\x7b', '3',
      '\x7d'] := by decide
  have hmetas : metas.toList = ['a', '\x7b', '2', '\x7d', '[', 'b', '\\', 'D', ']', '\\', 'b'] := by
    decide
  let us : List Token := [⟨.entity '(', ⟨0, 1⟩⟩, ⟨.char 'x', ⟨1, 2⟩⟩,
    ⟨.quantity ⟨.between 2 2, false⟩, ⟨2, 8⟩⟩, ⟨.entity ')', ⟨8, 9⟩⟩,
    ⟨.quantity ⟨.exactly 3, true⟩, ⟨9, 12⟩⟩]
  let vs : List Token := [⟨.char 'a', ⟨0, 1⟩⟩, ⟨.quantity ⟨.exactly 2, true⟩, ⟨1, 4⟩⟩,
    ⟨.charSet [⟨.char 'b', ⟨5, 6⟩⟩, ⟨.metaChar .notDigit, ⟨6, 8⟩⟩], ⟨4, 9⟩⟩,
    ⟨.metaChar .backspace, ⟨9, 11⟩⟩]
  have hus : Token.lex bounds.toList = .ok us := by
    rw [hbounds]
    with_unfolding_all rfl
  have hvs : Token.lex metas.toList = .ok vs := by
    rw [hmetas]
    with_unfolding_all rfl
  have hus' := parse_eq_ok_iff.2 ⟨us, hus, rfl⟩
  have hvs' := parse_eq_ok_iff.2 ⟨vs, hvs, rfl⟩
  refine ⟨⟨_, hus'⟩, ⟨_, hvs'⟩, ?_, ?_⟩
  · obtain ⟨ts, hts, -, hbound, -⟩ := compile_of_parse hus'
    obtain rfl := Except.ok.inj ((lex_eq_ok_iff.1 hts).symm.trans hus)
    exact hbound rfl _ rfl
  · obtain ⟨ts, hts, hmeta, -, -⟩ := compile_of_parse hvs'
    obtain rfl := Except.ok.inj ((lex_eq_ok_iff.1 hts).symm.trans hvs)
    exact hmeta _ rfl

end Pattern

end Regexp
