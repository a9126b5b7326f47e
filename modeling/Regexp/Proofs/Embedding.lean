import Regexp.Proofs.LexicalGrammar
import Regexp.Proofs.Relocation
import Regexp.Proofs.RoundTrip
import Regexp.Proofs.UniqueReading

/-!
# Patterns inside patterns

A pattern that is parsed on its own is parsed as the same tree inside a
longer one, at whatever place, unless a question mark follows
(`Expr.reads_of_derives`). So a pattern between parentheses is an atom
whatever surrounds it (`Expr.reads_operand`).

Three things might go wrong. A piece of the pattern might reach into what
follows, but no piece of a text that is read waits for more. An operator
at the start might be read as something else behind an opening
parenthesis, but what is parsed does not start with an operator. And what
follows might be read as if it stood behind an opening parenthesis, but
what is parsed does not end with one.
-/

namespace Regexp

open Piece (placeFrom scan)

/-! ## Spans do not matter to the grammar -/

namespace Token

variable {d : Nat} {t : Token} {ts us : List Token}

@[simp] theorem letter?_shift (d : Nat) (t : Token) : (t.shift d).letter? = t.letter? := by
  obtain ⟨kind, span⟩ := t
  cases kind <;> rfl

theorem kind_shift_metaChar {m : MetaChar} (h : t.kind = .metaChar m) :
    (t.shift d).kind = .metaChar m := by
  obtain ⟨kind, span⟩ := t
  obtain rfl : kind = .metaChar m := h
  rfl

theorem kind_shift_quantity {q : Quantity} (h : t.kind = .quantity q) :
    (t.shift d).kind = .quantity q := by
  obtain ⟨kind, span⟩ := t
  obtain rfl : kind = .quantity q := h
  rfl

theorem kind_shift_charSet (h : t.kind = .charSet ts) :
    (t.shift d).kind = .charSet (ts.map (shift d)) := by
  obtain ⟨kind, span⟩ := t
  obtain rfl : kind = .charSet ts := h
  rw [← shiftAll_eq_map]
  rfl

end Token

theorem CharSet.Lists.shift {ts : List Token} {is : List SetItem} (h : Lists ts is) (d : Nat) :
    Lists (ts.map (Token.shift d)) is := by
  induction h with
  | nil => exact .nil
  | metaChar hm _ ih => exact .metaChar (Token.kind_shift_metaChar hm) ih
  | letter ha _ ih => exact .letter ((Token.letter?_shift _ _).trans ha) ih
  | range ha hd hb _ ih =>
    exact .range ((Token.letter?_shift _ _).trans ha) ((Token.isEntity_shift _ _ _).trans hd)
      ((Token.letter?_shift _ _).trans hb) ih

theorem CharSet.Spells.shift {ts : List Token} {s : CharSet} (h : Spells ts s) (d : Nat) :
    Spells (ts.map (Token.shift d)) s := by
  cases h with
  | positive h => exact .positive (h.shift d)
  | negative ht h => exact .negative ((Token.isEntity_shift _ _ _).trans ht) (h.shift d)

theorem Token.Spells.shift {t : Token} {s : Symbol} (h : t.Spells s) (d : Nat) :
    (t.shift d).Spells s := by
  cases h with
  | letter ha => exact .letter ((letter?_shift _ _).trans ha)
  | metaChar hm => exact .metaChar (kind_shift_metaChar hm)
  | set hk hs => exact .set (kind_shift_charSet hk) (hs.shift d)

namespace Expr

open Token (Yields endsOpen lexFrom)

variable {level : Level} {ts us : List Token} {es : List Expr} {e : Expr} {s : List Char}

/-- **The grammar does not look at spans.** -/
theorem Derives.shift (h : Derives level ts es) (d : Nat) :
    Derives level (ts.map (Token.shift d)) es := by
  have entity {t : Token} {c : Char} (ht : t.isEntity c = true) : (t.shift d).isEntity c = true :=
    (Token.isEntity_shift d t c).trans ht
  induction h with
  | symbol h => exact .symbol (h.shift d)
  | emptyGroup ho hc => exact .emptyGroup (entity ho) (entity hc)
  | group ho hc _ ih =>
    rw [List.map_cons, List.map_append]
    exact .group (entity ho) (entity hc) ih
  | atom _ ih => exact .atom ih
  | repetition _ ht ih =>
    rw [List.map_append]
    exact .repetition ih (Token.kind_shift_quantity ht)
  | item _ ih => exact .item ih
  | cons _ _ ih ihs =>
    rw [List.map_append]
    exact .cons ih ihs
  | branch _ ih => exact .branch ih
  | pipe _ hp _ ih ihs =>
    rw [List.map_append, List.map_cons]
    exact .pipe ih (entity hp) ihs
  | body _ ih => exact .body ih

/-! ## The ends of what is derived -/

theorem endsOpen_append (a : Bool) (ts us : List Token) :
    endsOpen a (ts ++ us) = endsOpen (endsOpen a ts) us := by
  induction ts generalizing a with
  | nil => rfl
  | cons t ts ih => exact ih _

/-- **What is derived does not end with an opening parenthesis.** -/
theorem endsOpen_of_derives (h : Derives level ts es) (a : Bool) : endsOpen a ts = false := by
  induction h generalizing a with
  | @symbol t s h => exact isEntity_of_ofToken (ofToken_of_spells h) '('
  | emptyGroup _ hc => exact Token.isEntity_of_ne hc (by decide)
  | group _ hc _ _ =>
    rw [← List.cons_append, endsOpen_append]
    exact Token.isEntity_of_ne hc (by decide)
  | atom _ ih => exact ih a
  | @repetition t _ _ _ _ ht _ =>
    rw [endsOpen_append]
    show t.isEntity '(' = false
    rw [Token.isEntity, ht]
  | item _ ih => exact ih a
  | cons _ _ _ ihs =>
    rw [endsOpen_append]
    exact ihs _
  | branch _ ih => exact ih a
  | pipe _ _ _ _ ihs =>
    rw [endsOpen_append]
    exact ihs _
  | body _ ih => exact ih a

/-- What is derived does not start with a quantifier. -/
theorem noQuantifierFirst_of_derives (h : Derives level ts es) : NoQuantifierFirst ts := by
  obtain ⟨p, rfl, rfl⟩ := exists_phrase_of_derives h
  have hfirst := p.follows_item []
  rwa [List.append_nil] at hfirst

/-! ## What is read at another place -/

/-- The pieces of a text that does not start with a question mark do not
start with one. -/
theorem not_startsWithMark {rest : List Char} (h : rest.head? ≠ some '?') (start : Nat) :
    ¬ Token.StartsWithMark (placeFrom start (scan rest)) := by
  rintro ⟨isLazy, place, qs, heq⟩
  cases rest with
  | nil =>
    rw [Piece.scan_nil] at heq
    cases heq
  | cons c rest =>
    rw [Piece.scan_cons, placeFrom] at heq
    have hcut := congrArg PlacedPiece.piece (List.cons.inj heq).1
    exact h (Piece.head?_text_of_cut hcut).symm

/-- **What is derived is read anywhere.** -/
theorem lexPieces_of_derives (hlex : Token.lex s = .ok ts) (h : Derives level ts es)
    (afterOpen : Bool) (start : Nat) :
    Token.lexPieces afterOpen (placeFrom start (scan s)) = .ok (ts.map (Token.shift start)) := by
  have hfirst := noQuantifierFirst_of_derives h
  have hshift : Token.lexPieces false (placeFrom start (scan s))
      = .ok (ts.map (Token.shift start)) := by
    rw [Token.lexPieces_placeFrom]
    exact congrArg (LexResult.relocate start _) hlex
  rw [← hshift]
  unfold Token.lex Piece.scanPlaced at hlex
  cases hscan : scan s with
  | nil => rw [placeFrom, Token.lexPieces_nil, Token.lexPieces_nil]
  | cons p ps =>
    refine Token.lexPieces_afterOpen (fun op hp => ?_) afterOpen
    obtain rfl : p = .operator op false := hp
    -- an operator that is first would be read as a quantifier
    rw [hscan, placeFrom, Token.lexPieces_cons] at hlex
    obtain ⟨us, -, rfl⟩ := map_eq_ok_iff.1 hlex
    exact hfirst _ _ _ rfl rfl

/-- **What is parsed is parsed as the same tree inside a longer
pattern**, unless a question mark follows. -/
theorem reads_of_derives (hlex : Token.lex s = .ok ts) (h : Derives level ts es) :
    Reads false s (Derives level · es) := by
  intro afterOpen start rest hrest
  have hmark := hrest.resolve_left nofun
  refine ⟨ts.map (Token.shift start), h.shift start, ?_⟩
  show Token.lexPieces afterOpen (placeFrom start (scan (s ++ rest))) = _
  rw [Piece.scan_append (Token.isComplete_of_lex hlex) hmark, Piece.placeFrom_append,
    Token.lexPieces_append (not_startsWithMark hmark _) (lexPieces_of_derives hlex h _ _),
    endsOpen_of_derives (h.shift start), Piece.join_scan]
  rfl

theorem eq_nil_of_lex (h : Token.lex s = .ok []) : s = [] := by
  have hplaced : placeFrom 0 (scan s) = [] := Token.lexPieces_eq_ok_nil_iff.1 h
  rw [← Piece.join_scan s]
  cases hscan : scan s with
  | nil => rfl
  | cons p ps =>
    rw [hscan] at hplaced
    cases hplaced

/-- **A pattern between parentheses is an atom**, whatever surrounds it:
the group around its tree. -/
theorem reads_operand {e? : Option Expr} (hlex : Token.lex s = .ok ts)
    (h : ts = [] ∧ e? = none ∨ ∃ e, e? = some e ∧ Derives .body ts [e]) :
    Reads true ('(' :: (s ++ [')'])) (Derives .atom · [ofGroupBody e?]) := by
  obtain ⟨rfl, rfl⟩ | ⟨e, rfl, he⟩ := h
  · obtain rfl := eq_nil_of_lex hlex
    exact reads_emptyParentheses
  · exact reads_parentheses (reads_of_derives hlex he) fun o c ts ho hc hts => .group ho hc hts

end Expr

end Regexp
