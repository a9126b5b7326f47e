import Regexp.Proofs.Construction
import Regexp.Proofs.Trail

/-!
# Which texts the automaton of a tree accepts

The automaton of a tree accepts the texts that the tree reads
(`Expr.accepts_iff_mem_reading`). These are all that the tree denotes,
and no others if every repetition in the tree has a body that may be
repeated where it stands. `Expr.accepts_of_construct` states both, and
exactly when the second fails.
-/

namespace Regexp

open Computability

namespace Automaton

/-- What is accepted is read between the ends of the part that makes up
the automaton. -/
theorem recognizes_iff_of_added {a : Arena} {f : Fragment} {r : Reading} {w : List Char}
    (h : Arena.Added #[] a f r) :
    (Automaton.mk a f.entry f.exit).Recognizes w ↔ w ∈ r .entry .exit := by
  have hacc := h.part.acceptsAt_iff
  have hentry : f.entry ∈ Set.Ico 0 a.size := h.part.port_mem .entry
  have hexit : f.exit ∈ Set.Ico 0 a.size := h.part.port_mem .exit
  have hreads : a.reads f.entry f.exit = r .entry .exit := h.part.reads_eq .entry .exit
  rw [← hreads]
  constructor
  · rintro ⟨k, p, hk⟩
    have p : w ∈ a.reads f.entry k := Arena.mem_reads_iff.2 p
    -- the path stays in the part, whose exit alone accepts
    have hmem : k ∈ Set.Ico 0 a.size := by
      by_contra hmem
      rw [h.part.closed.reads_eq_zero hentry hmem] at p
      exact Language.notMem_zero w p
    rwa [(hacc k hmem).1 hk] at p
  · intro p
    exact ⟨f.exit, Arena.mem_reads_iff.1 p, (hacc _ hexit).2 rfl⟩

theorem accepts_iff_of_added {a : Arena} {f : Fragment} {r : Reading}
    (h : Arena.Added #[] a f r) (w : List Char) :
    (Automaton.mk a f.entry f.exit).accepts w = true ↔ w ∈ r .entry .exit := by
  unfold Automaton.accepts
  rw [run_iff_trail, trail_iff_recognizes]
  exact recognizes_iff_of_added h

/-- **Without a tree, the empty text alone is accepted.** -/
theorem accepts_of_ofExpr?_none {a : Automaton} (h : ofExpr? none = .ok a) (w : List Char) :
    a.accepts w = true ↔ w = [] := by
  obtain rfl := Except.ok.inj h
  exact (accepts_iff_of_added (Arena.added_emptyPart #[]) w).trans (Language.mem_one w)

end Automaton

namespace Expr

variable {e : Expr} {a : Automaton}

/-- **The automaton of a tree accepts what the tree reads.** -/
theorem accepts_iff_mem_reading (h : Automaton.ofExpr? (some e) = .ok a) (w : List Char) :
    a.accepts w = true ↔ w ∈ e.reading .entry .exit := by
  obtain ⟨⟨f, states⟩, hc, rfl⟩ := map_eq_ok_iff.1 h
  exact Automaton.accepts_iff_of_added (added_of_construct hc) w

/-- The automaton of a tight tree accepts what the tree denotes. -/
theorem accepts_iff_denotes_of_isTight (h : Automaton.ofExpr? (some e) = .ok a)
    (he : e.isTight = true) (w : List Char) : a.accepts w = true ↔ e.Denotes w := by
  rw [accepts_iff_mem_reading h, reading_eq_language he]
  exact mem_language

/-- **The automaton of a tree accepts all that the tree denotes.** It
accepts nothing else just if the tree reads nothing else, and so
whenever the body of each repetition is suitable. -/
theorem accepts_of_construct (h : Automaton.ofExpr? (some e) = .ok a) :
    (∀ w, a.accepts w = true ↔ w ∈ e.reading .entry .exit)
      ∧ (∀ w, e.Denotes w → a.accepts w = true)
      ∧ ((∀ w, a.accepts w = true ↔ e.Denotes w) ↔ e.reading .entry .exit ≤ e.language)
      ∧ (e.isTight = true → ∀ w, a.accepts w = true ↔ e.Denotes w) := by
  have hreads := accepts_iff_mem_reading h
  have hall : ∀ w, e.Denotes w → a.accepts w = true := fun w hw =>
    (hreads w).2 (e.language_le_reading hw)
  refine ⟨hreads, hall, ?_, fun he => accepts_iff_denotes_of_isTight h he⟩
  constructor
  · intro hexact w hw
    exact (hexact w).1 ((hreads w).2 hw)
  · intro hle w
    exact ⟨fun hw => hle ((hreads w).1 hw), hall w⟩

/-- In `(a*)?` the body of the greedy `?` is a repetition of a symbol, so
the automaton accepts just the texts `a*`. -/
theorem accepts_of_construct_star :
    ∃ a, Automaton.ofExpr? (some (.repetition (.repetition (.char 'a') (.zeroOrMore true))
        (.zeroOrOne true))) = .ok a
      ∧ ∀ w, a.accepts w = true ↔ Denotes (.repetition (.repetition (.char 'a') (.zeroOrMore true))
        (.zeroOrOne true)) w :=
  ⟨_, rfl, (accepts_of_construct rfl).2.2.2 rfl⟩

/-- **A body that may not be skipped**: a path goes round at the entry of
`a*b` and leaves by the transition of the greedy `?`, so the automaton
accepts `a`. -/
theorem accepts_of_construct_circle :
    ∃ a, Automaton.ofExpr? (some (.repetition
        (.sequence [.repetition (.char 'a') (.zeroOrMore true), .char 'b']) (.zeroOrOne true)))
          = .ok a
      ∧ a.accepts ['a'] = true
      ∧ ¬ Denotes (.repetition (.sequence [.repetition (.char 'a') (.zeroOrMore true), .char 'b'])
          (.zeroOrOne true)) ['a'] := by
  refine ⟨_, rfl, ?_, fun h => ?_⟩
  · unfold Automaton.accepts
    rw [Automaton.run_iff_trail]
    exact .symbol (s := .letter (.literal 'a')) (j := 1) (by decide) rfl
      (.epsilon (j := 0) (by decide) (by decide)
        (.epsilon (j := 3) (by decide) (by decide) (.stop rfl)))
  · obtain ⟨ws, hq, hws, hw⟩ := denotes_repetition.1 h
    match ws, hq with
    | [], _ => cases hw
    | [v], _ =>
      rw [List.flatten_cons, List.flatten_nil, List.append_nil] at hw
      have hv := hws v List.mem_cons_self
      -- the text ends in `b`
      obtain ⟨u, z, -, hz, rfl⟩ := denotes_sequence_cons.1 hv
      obtain ⟨y, t, hy, ht, rfl⟩ := denotes_sequence_cons.1 hz
      obtain ⟨c, hc, rfl⟩ := denotes_symbol.1 hy
      obtain rfl := denotes_sequence_nil.1 ht
      have hlast := congrArg List.getLast? hw
      rw [List.append_nil, List.getLast?_concat] at hlast
      obtain rfl := Option.some.inj hlast
      exact absurd hc (by decide)

end Expr

end Regexp
