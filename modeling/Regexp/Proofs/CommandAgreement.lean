import Mathlib.Order.WellFounded
import Regexp.CommandLine.Commands
import Regexp.Proofs.FirstRoute
import Regexp.Proofs.Passes

/-!
# What the commands agree on

The commands run over a pattern as far as they have to: some only read its
tokens, others build the automaton (`CommandLine.Command.lastPass`). A
pattern that is rejected is rejected by its first pass that fails
(`Pattern.FirstFails`), and every command that runs this pass reports the
same error in the same words and writes nothing else. The other commands
do not notice.

Matching and tracing build the same automaton and search it in the same
way, so they end with the verdict of the library, and what a trace prints
ends with what a match prints (`CommandLine.run_agrees`).
-/

namespace Regexp

variable {pattern text : String} {e : PatternError}

/-! ## Passes -/

/-- A pass over a pattern. -/
inductive Pass where
  /-- Reading tokens. -/
  | lex
  /-- Building the tree. -/
  | parse
  /-- Normalizing the tree. -/
  | normalize
  /-- Building the automaton. -/
  | compile
deriving DecidableEq, Repr

namespace Pass

/-- The number of passes before. -/
def index : Pass → Nat
  | lex => 0
  | parse => 1
  | normalize => 2
  | compile => 3

/-- Why the passes up to this one reject the pattern, if they do. -/
def fault? : Pass → String → Option PatternError
  | lex, pattern => faultOf? (Pattern.lex pattern)
  | parse, pattern => faultOf? (Pattern.parse pattern)
  | normalize, pattern => faultOf? (Pattern.normalize pattern)
  | compile, pattern => faultOf? (Pattern.compile pattern)

/-- What one pass rejects never gets to the next. -/
theorem fault?_of_bind {α β : Type} {r : Pattern.Result α} (f : α → Pattern.Result β)
    (h : faultOf? r = some e) : faultOf? (r >>= f) = some e :=
  faultOf?_eq_some_iff.2 (bind_eq_error_iff.2 (.inl (faultOf?_eq_some_iff.1 h)))

/-- **A fault stays**: what the passes up to one reject, those up to a
later one reject for the same reason. -/
theorem fault?_of_index_le {p q : Pass} (hpq : p.index ≤ q.index)
    (h : p.fault? pattern = some e) : q.fault? pattern = some e := by
  have hparse : lex.fault? pattern = some e → parse.fault? pattern = some e := fault?_of_bind _
  have hnormalize : parse.fault? pattern = some e → normalize.fault? pattern = some e :=
    fault?_of_bind _
  have hcompile : normalize.fault? pattern = some e → compile.fault? pattern = some e :=
    fault?_of_bind _
  cases p with
  | lex =>
    cases q with
    | lex => exact h
    | parse => exact hparse h
    | normalize => exact hnormalize (hparse h)
    | compile => exact hcompile (hnormalize (hparse h))
  | parse =>
    cases q with
    | lex => exact absurd hpq (by decide)
    | parse => exact h
    | normalize => exact hnormalize h
    | compile => exact hcompile (hnormalize h)
  | normalize =>
    cases q with
    | lex => exact absurd hpq (by decide)
    | parse => exact absurd hpq (by decide)
    | normalize => exact h
    | compile => exact hcompile h
  | compile =>
    cases q with
    | lex => exact absurd hpq (by decide)
    | parse => exact absurd hpq (by decide)
    | normalize => exact absurd hpq (by decide)
    | compile => exact h

end Pass

/-- **The first pass that fails** on the pattern, and its error: those
before it go through. -/
def Pattern.FirstFails (pattern : String) (p : Pass) (e : PatternError) : Prop :=
  (∀ q : Pass, q.index < p.index → q.fault? pattern = none) ∧ p.fault? pattern = some e

/-- **A rejected pattern has a first pass that fails**, and all passes
together report its error. -/
theorem Pattern.compile_eq_error_iff :
    compile pattern = .error e ↔ ∃ p, FirstFails pattern p e := by
  constructor
  · intro h
    obtain ⟨p, hp, hmin⟩ := WellFounded.has_min (measure Pass.index).wf
      {q | q.fault? pattern = some e} ⟨.compile, faultOf?_eq_some_iff.2 h⟩
    refine ⟨p, fun q hq => ?_, hp⟩
    cases hfault : q.fault? pattern with
    | none => rfl
    | some e' =>
      -- the fault of an earlier pass would be that of `p`
      have hlater := Pass.fault?_of_index_le (Nat.le_of_lt hq) hfault
      obtain rfl := Option.some.inj (hlater.symm.trans hp)
      exact absurd hq (hmin q hfault)
  · rintro ⟨p, -, hp⟩
    have hlast : p.index ≤ Pass.compile.index := by cases p <;> decide
    exact faultOf?_eq_some_iff.1 (Pass.fault?_of_index_le hlast hp)

/-! ## Commands and passes -/

namespace CommandLine

variable {colored : Bool} {p : Palette}

namespace Command

/-- The last pass that the command runs over its pattern. -/
def lastPass : Command → Pass
  | lex _ _ => .lex
  | ast _ normalized _ => if normalized then .normalize else .parse
  | states _ => .compile
  | test _ _ => .compile
  | trace _ _ => .compile

/-- The command runs the pass over its pattern. -/
def Runs (c : Command) (q : Pass) : Prop := q.index ≤ c.lastPass.index

/-- **A command fails just where its last pass does.** -/
theorem faultOf?_perform (p : Palette) (c : Command) :
    faultOf? (c.perform p) = c.lastPass.fault? c.pattern := by
  have hmap {α : Type} (r : Pattern.Result α) (f : α → Outcome) :
      faultOf? (r >>= fun a => pure (f a)) = faultOf? r := by
    cases r <;> rfl
  cases c with
  | lex _ _ => exact hmap _ _
  | ast _ normalized _ => cases normalized <;> exact hmap _ _
  | states _ => exact hmap _ _
  | test _ _ => exact hmap _ _
  | trace _ _ => exact hmap _ _

theorem run_of_perform {c : Command} {outcome : Outcome}
    (h : c.perform (.ofBool colored) = .ok outcome) : c.run colored = outcome := by
  unfold run
  rw [h]

/-- What a command does if its passes reject the pattern. -/
theorem run_of_fault {c : Command} (h : c.lastPass.fault? c.pattern = some e) :
    c.run colored = .ofError c.pattern colored e := by
  have hperform : c.perform (.ofBool colored) = .error e := by
    rw [← faultOf?_eq_some_iff, faultOf?_perform, h]
  unfold run
  rw [hperform]

/-- A command that builds no automaton succeeds if its passes do not
reject the pattern. -/
theorem exists_run_eq_ofLines {c : Command} (hc : c.lastPass ≠ .compile)
    (h : c.lastPass.fault? c.pattern = none) : ∃ lines, c.run colored = .ofLines lines := by
  cases c with
  | lex pattern compact =>
    obtain ⟨ts, hts⟩ := faultOf?_eq_none_iff.1 h
    exact ⟨_, run_of_perform (bind_eq_ok_iff.2 ⟨ts, hts, rfl⟩)⟩
  | ast pattern normalized compact =>
    cases normalized with
    | false =>
      obtain ⟨e?, he⟩ := faultOf?_eq_none_iff.1 h
      exact ⟨_, run_of_perform (bind_eq_ok_iff.2 ⟨e?, he, rfl⟩)⟩
    | true =>
      obtain ⟨e?, he⟩ := faultOf?_eq_none_iff.1 h
      exact ⟨_, run_of_perform (bind_eq_ok_iff.2 ⟨e?, he, rfl⟩)⟩
  | states _ => exact absurd rfl hc
  | test _ _ => exact absurd rfl hc
  | trace _ _ => exact absurd rfl hc

/-- A command that does not run all passes builds no automaton. -/
theorem lastPass_ne_compile {c : Command} {q : Pass} (h : ¬c.Runs q) : c.lastPass ≠ .compile := by
  intro hc
  apply h
  rw [Runs, hc]
  cases q <;> decide

/-- **The pass that fails first decides**: the commands that run it report
the same error, and the others succeed. -/
theorem run_of_firstFails {q : Pass} (h : Pattern.FirstFails pattern q e) {c : Command}
    (hc : c.pattern = pattern) :
    (c.Runs q → c.run colored = .ofError pattern colored e)
    ∧ (¬c.Runs q → ∃ lines, c.run colored = .ofLines lines) := by
  subst hc
  constructor
  · intro hruns
    exact run_of_fault (Pass.fault?_of_index_le hruns h.2)
  · intro hruns
    exact exists_run_eq_ofLines (lastPass_ne_compile hruns) (h.1 _ (Nat.lt_of_not_le hruns))

/-! ## Verdicts -/

/-- Observing the search does not change its verdict. -/
theorem traceLines_fst (a : Automaton) (p : Palette) (text : List Char) :
    (a.traceLines p text).1 = a.accepts text := by
  obtain ⟨events, b, hrun, -⟩ := a.exists_run_eq text
  simp only [Automaton.traceLines, Automaton.trace, Automaton.accepts, hrun]

/-- Each event of the search has its line. -/
theorem traceLines_snd (a : Automaton) (p : Palette) (text : List Char) :
    (a.traceLines p text).2 = (a.trace text).2.map (Event.line p) := rfl

theorem run_test {a : Automaton} (h : Pattern.compile pattern = .ok a) :
    (test pattern text).run colored
      = .ofVerdict (.ofBool colored) [] (a.accepts text.toList) :=
  run_of_perform (bind_eq_ok_iff.2 ⟨a, h, rfl⟩)

theorem run_trace {a : Automaton} (h : Pattern.compile pattern = .ok a) :
    (trace pattern text).run colored
      = .ofVerdict (.ofBool colored)
          ((a.trace text.toList).2.map (Event.line (.ofBool colored))
            ++ [separatorLine (.ofBool colored)])
          (a.accepts text.toList) := by
  rw [← traceLines_fst a (.ofBool colored), ← traceLines_snd]
  exact run_of_perform (bind_eq_ok_iff.2 ⟨a, h, rfl⟩)

end Command

/-- The lines, each with a line break. -/
def textOf (lines : List String) : String := String.join (lines.map (· ++ "\n"))

/-- What is written before a verdict stands in front of it. -/
theorem output_ofVerdict (p : Palette) (lines : List String) (matched : Bool) :
    (Outcome.ofVerdict p lines matched).output
      = textOf lines ++ (Outcome.ofVerdict p [] matched).output := by
  show textOf (lines ++ _) = textOf lines ++ textOf ([] ++ _)
  unfold textOf
  rw [List.map_append, String.join_append, List.nil_append]

/-- The status of a verdict says what it is. -/
theorem status_ofVerdict_iff (p : Palette) (lines : List String) (matched : Bool) :
    ((Outcome.ofVerdict p lines matched).status = 0 ↔ matched = true)
    ∧ ((Outcome.ofVerdict p lines matched).status = 1 ↔ matched = false)
    ∧ (Outcome.ofVerdict p lines matched).status ≠ 2 := by
  rw [show (Outcome.ofVerdict p lines matched).status = if matched then 0 else 1 from rfl]
  cases matched <;> decide

/-- **The status says what the library says**, for a match and for a
trace. -/
theorem status_eq (colored : Bool) (pattern text : String) :
    let status := ((Command.test pattern text).run colored).status
    ((Command.trace pattern text).run colored).status = status
    ∧ (status = 0 ↔ Pattern.test pattern text = .ok true)
    ∧ (status = 1 ↔ Pattern.test pattern text = .ok false)
    ∧ (status = 2 ↔ ∃ e, Pattern.test pattern text = .error e) := by
  dsimp only
  cases h : Pattern.compile pattern with
  | ok a =>
    have htest : Pattern.test pattern text = .ok (a.accepts text.toList) :=
      Pattern.test_eq_ok_iff.2 ⟨a, h, rfl⟩
    rw [Command.run_test h, Command.run_trace h, htest]
    obtain ⟨h0, h1, h2⟩ := status_ofVerdict_iff (.ofBool colored) [] (a.accepts text.toList)
    refine ⟨rfl, h0.trans ?_, h1.trans ?_, iff_of_false h2 nofun⟩
    · exact ⟨congrArg Except.ok, Except.ok.inj⟩
    · exact ⟨congrArg Except.ok, Except.ok.inj⟩
  | error e =>
    have htest : Pattern.test pattern text = .error e := bind_eq_error_iff.2 (.inl h)
    have hfault : Pass.compile.fault? pattern = some e := faultOf?_eq_some_iff.2 h
    rw [Command.run_of_fault (c := .test pattern text) hfault,
      Command.run_of_fault (c := .trace pattern text) hfault, htest]
    exact ⟨rfl, iff_of_false nofun nofun, iff_of_false nofun nofun, iff_of_true rfl ⟨e, rfl⟩⟩

/-- **The commands agree.** A match and a trace exit with the same status,
which says what the library says: the text matches, it does not, or the
pattern is rejected. Unless it is, no error is written, and the trace
prints a line for each event of the search, a separator, and what the
match prints. If a pass is the first to reject the pattern, all commands
that run it exit with the same report and print nothing, and all others
succeed. -/
theorem run_agrees (colored : Bool) (pattern text : String) :
    let p := Palette.ofBool colored
    let match_ := (Command.test pattern text).run colored
    let trace := (Command.trace pattern text).run colored
    (trace.status = match_.status
      ∧ (match_.status = 0 ↔ Pattern.test pattern text = .ok true)
      ∧ (match_.status = 1 ↔ Pattern.test pattern text = .ok false)
      ∧ (match_.status = 2 ↔ ∃ e, Pattern.test pattern text = .error e))
    ∧ (match_.status ≤ 1 → match_.errors = "" ∧ trace.errors = ""
        ∧ ∃ a, Pattern.compile pattern = .ok a ∧ trace.output
          = textOf ((a.trace text.toList).2.map (Event.line p)) ++ textOf [separatorLine p]
            ++ match_.output)
    ∧ ∀ q e, Pattern.FirstFails pattern q e →
        ∃ report, ∀ c : Command, c.pattern = pattern →
          (c.Runs q → c.run colored = ⟨2, "", report⟩)
          ∧ (¬c.Runs q → ∃ lines, c.run colored = .ofLines lines) := by
  have hstatus := status_eq colored pattern text
  refine ⟨hstatus, fun hle => ?_, fun q e h => ⟨_, fun c hc => Command.run_of_firstFails h hc⟩⟩
  cases h : Pattern.compile pattern with
  | ok a =>
    rw [Command.run_test h, Command.run_trace h]
    refine ⟨rfl, rfl, a, rfl, ?_⟩
    rw [output_ofVerdict]
    unfold textOf
    rw [List.map_append, String.join_append]
  | error e =>
    have hfault : Pass.compile.fault? pattern = some e := faultOf?_eq_some_iff.2 h
    rw [Command.run_of_fault (c := .test pattern text) hfault] at hle
    exact absurd hle (Nat.not_succ_le_self 1)

/-- The pattern `a` matches the text `a` in four events, one of which
consumes it. A lone backslash is rejected by the first pass. -/
theorem run_agrees_backslash :
    (((Command.test "a" "a").run true).status = 0
      ∧ ((Command.trace "a" "a").run true).errors = ""
      ∧ ((Command.trace "a" "a").run true).output
        = textOf ([.enter 0 0, .symbol 0 0 (.letter (.literal 'a')) 'a' 1, .enter 1 1,
            .accept 1 1].map (Event.line (.ofBool true)))
          ++ textOf [separatorLine (.ofBool true)] ++ ((Command.test "a" "a").run true).output)
    ∧ Pattern.FirstFails "\\" .lex (.lex ⟨.unsupportedEscape none, .ofOffsets 0 1⟩)
    ∧ ∃ report, ∀ c : Command, c.pattern = "\\" →
        (c.Runs .lex → c.run true = ⟨2, "", report⟩)
        ∧ (¬c.Runs .lex → ∃ lines, c.run true = .ofLines lines) := by
  have hparse : Pattern.parse "a" = .ok (some (.char 'a')) :=
    Pattern.parse_eq_ok_iff.2 ⟨_, by with_unfolding_all rfl, by with_unfolding_all rfl⟩
  have hnormal : Pattern.normalize "a" = .ok (some (.char 'a')) :=
    Pattern.normalize_eq_ok_iff.2 (.inr ⟨_, _, hparse, rfl, rfl⟩)
  let a : Automaton := ⟨#[⟨0, false, [.symbol (.letter (.literal 'a')) 1]⟩, ⟨1, true, []⟩], 0, 1⟩
  have hcompile : Pattern.compile "a" = .ok a := Pattern.compile_eq_ok_iff.2 ⟨_, hnormal, rfl⟩
  have haccepts : a.accepts "a".toList = true := by cbv
  have htrace : a.trace "a".toList = (true, [.enter 0 0,
      .symbol 0 0 (.letter (.literal 'a')) 'a' 1, .enter 1 1, .accept 1 1]) := by cbv
  have hstatus : ((Command.test "a" "a").run true).status = 0 := by
    rw [Command.run_test hcompile, haccepts]
    rfl
  have hlone : Token.lex ['\\'] = .error ⟨.unsupportedEscape none, .ofOffsets 0 1⟩ := by
    unfold Token.lex Piece.scanPlaced
    rw [Piece.scan_cons]
    exact Token.lexPieces_cons false ⟨.backslash, 0⟩ _
  have hfirst : Pattern.FirstFails "\\" .lex (.lex ⟨.unsupportedEscape none, .ofOffsets 0 1⟩) :=
    ⟨fun _ h => absurd h (Nat.not_lt_zero _),
      faultOf?_eq_some_iff.2 (mapError_eq_error_iff.2 ⟨_, hlone, rfl⟩)⟩
  obtain ⟨-, herrors, b, hb, houtput⟩ := (run_agrees true "a" "a").2.1 (by rw [hstatus]; decide)
  obtain rfl := Except.ok.inj (hcompile.symm.trans hb)
  rw [htrace] at houtput
  exact ⟨⟨hstatus, herrors, houtput⟩, hfirst, (run_agrees true "\\" "").2.2 _ _ hfirst⟩

end CommandLine

end Regexp
