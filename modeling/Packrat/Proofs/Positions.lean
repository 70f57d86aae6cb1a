import Packrat.Proofs.Actions
import Packrat.Proofs.Keeping
import Packrat.Proofs.Watching
import Packrat.Report

/-!
# Positions never leave the text

Recognition and construction that begin inside a text stay there: nothing goes back before the start of a
call that is still running, nothing goes past the end, and whatever is done at a position that was reached
can be done there (`positions_inside`).
-/

namespace Packrat

open Engine

variable {V α : Type} {g : Grammar V} {text : Buffer} {run after : Run V}

/-! ## Tables left by runs -/

/-- The table is fresh, or a recognition or a parse that came to an end has left it. -/
inductive Memo.Filled (g : Grammar V) (text : Buffer) : Memo → Prop
  | empty {strategy} : Filled g text (.empty strategy)
  | journaling {strategy} : Filled g text (.journaling strategy)
  | accept {run : Run V} {fuel r x after} (h : Filled g text run.memo) (inside : run.position ≤ text.length)
      (sound : run.bindings.Sound g) (hrun : accept g text fuel r run = .ok x after) :
      Filled g text after.memo
  | parse {run : Run V} {fuel p v after} (h : Filled g text run.memo) (inside : run.position ≤ text.length)
      (sound : run.bindings.Sound g) (hrun : parseAt g text fuel p run = .ok v after) :
      Filled g text after.memo
  | fail {run : Run V} {fuel p e after} (h : Filled g text run.memo) (inside : run.position ≤ text.length)
      (sound : run.bindings.Sound g) (hrun : parseAt g text fuel p run = .error (.failed e) after) :
      Filled g text after.memo

theorem Memo.Filled.correct {m : Memo} (h : m.Filled g text) : m.Correct g text := by
  induction h with
  | empty => exact .empty
  | journaling => exact .journaling
  | accept _ inside sound hrun ih =>
      exact ((accept_keeps _ ⟨inside, sound, ih⟩).of_ok hrun).good.correct
  | parse _ inside sound hrun ih =>
      exact ((parseAt_keeps _ ⟨inside, sound, ih⟩).of_ok hrun).good.correct
  | fail _ inside sound hrun ih =>
      exact ((parseAt_keeps _ ⟨inside, sound, ih⟩).of_error hrun _ rfl).good.correct

theorem Memo.Correct.inside {m : Memo} (h : m.Correct g text) : m.Inside text := by
  refine h.imp ?_
  rintro k _ ⟨hstart, hm⟩ stop rfl
  exact ⟨hm.start_le, hm.end_le hstart⟩

/-! ## Runs that stay inside -/

theorem Run.Good.traced (good : run.Good g text) : Traced text run.position [] run.traced run where
  same := rfl
  position := ⟨Nat.le_refl _, good.inside⟩
  memo := good.correct.inside
  trace := ⟨[], rfl, fun _ h => nomatch h⟩

/-- From the position of the run to the end of the text. -/
abbrev Run.Ahead (text : Buffer) (run after : Run V) : Prop :=
  run.position ≤ after.position ∧ after.position ≤ text.length

theorem Shadows.ahead {act act' : Engine V α} (h : Shadows text run.position act act')
    (good : run.Good g text) :
    untraced (act run.traced) = untraced (act' run) ∧
      Ensures act' run (fun _ after => run.Ahead text after) fun _ after => run.Ahead text after := by
  have ha := h [] run.traced run good.traced
  refine ⟨ha.untraced_eq, ?_⟩
  have hposition := ha.stateAfter.position
  rw [← ha.stateAfter.position_eq] at hposition
  cases hr : act' run with
  | ok a after =>
      rw [stateAfter_of_ok hr] at hposition
      exact .done hr hposition
  | error e after =>
      rw [stateAfter_of_error hr] at hposition
      exact .fail hr hposition

/-- Recognition answers, or it needs more fuel. -/
theorem accept_stops {r : RuleId} (complete : g.Complete r) (good : run.Good g text) (fuel : Nat) :
    Ensures (accept g text fuel r) run (fun _ after => run.Ahead text after)
      fun halt _ => halt = .exhausted := by
  have hahead := ((accept_shadows g run.position fuel r).ahead good).2
  refine ((accept_recognizes fuel r run good).and hahead).imp (fun _ _ h => h.2) fun halt _ h => ?_
  exact h.1.resolve_right fun hs => hs.2 complete

/-- A parse that fails is rejected where it began, or it needs more fuel. -/
theorem parseAt_stops {p : Parser V} (hg : g.Aligned) (hp : p.Aligned g) (complete : g.Complete p.rule)
    (good : run.Good g text) (fuel : Nat) :
    Ensures (parseAt g text fuel p) run (fun _ after => run.Ahead text after) fun halt after =>
      halt = .exhausted ∨ halt = .failed .rejected ∧ after.position = run.position := by
  cases hr : parseAt g text fuel p run with
  | ok v after => exact .done hr (((parseAt_shadows _ run.position fuel p).ahead good).2.of_ok hr)
  | error halt after =>
      apply Ensures.fail hr
      by_cases hm : ∃ o, Matches g text p.rule run.position o
      · obtain ⟨o, hm⟩ := hm
        obtain ⟨y, hy, -⟩ := hp.parses hg (Nat.lt_succ_self _) good.inside hm
        by_cases he : halt = .exhausted
        · exact .inl he
        · obtain ⟨after', -, ⟨v, hok, -⟩ | ⟨herr, -, hposition⟩⟩ :=
            hy.parseAt_settled hg hp good (.of_error hr he)
          · cases hr.symm.trans hok
          · cases hr.symm.trans herr
            exact .inr ⟨rfl, hposition⟩
      · obtain ⟨after', herr⟩ := parseAt_exhausted complete good (not_exists.mp hm) fuel
        cases hr.symm.trans herr
        exact .inl rfl

theorem parseSpan_stops {p : Parser V} (hg : g.Aligned) (hp : p.Aligned g) (complete : g.Complete p.rule)
    (good : run.Good g text) (fuel : Nat) :
    Ensures (parseSpan g text fuel p) run
      (fun x after => x.span = ⟨text, 0, after.position⟩ ∧ run.Ahead text after)
      fun halt _ => halt = .exhausted ∨ halt = .failed .rejected := by
  have hstops := parseAt_stops hg hp complete good fuel
  cases hr : parseAt g text fuel p run with
  | ok v after =>
      have hahead := hstops.of_ok hr
      obtain ⟨event, hspan⟩ := parseSpan_of_ok hr hahead.2
      exact .done hspan ⟨rfl, hahead⟩
  | error halt after =>
      rcases hstops.of_error hr with rfl | ⟨rfl, -⟩
      · exact .fail (parseSpan_of_exhausted hr) (.inl rfl)
      · obtain ⟨event, hspan⟩ := parseSpan_of_rejected hr
        exact .fail hspan (.inr rfl)

/-- What a report counts as left over is what comes after the match. -/
theorem Sample.report_adds {s : Sample V} {known} (assembled : Assembled s.workspace known)
    (hroot : s.root ∈ known) (complete : s.workspace.grammar.Complete s.root.rule) (input : String)
    (config : Config) :
    match s.report input config with
    | .ok report => report.stop.getD 0 + report.unconsumed = (Buffer.load 0 input).length
    | .error e => e = .halted .exhausted := by
  have hc := assembled.consistent
  have good : (Session.fresh config s.workspace.bindings).Good s.workspace.grammar (.load 0 input) :=
    .fresh hc.sound
  have hstops := parseAt_stops hc.aligned_slots (hc.aligned hroot) complete good
    (s.workspace.fuel (Buffer.load 0 input).length)
  unfold Sample.report
  cases hr : parseAt s.workspace.grammar (.load 0 input) (s.workspace.fuel (Buffer.load 0 input).length)
      s.root (Session.fresh config s.workspace.bindings) with
  | ok v after =>
      simp only [hr]
      exact Nat.add_sub_cancel' (hstops.of_ok hr).2
  | error halt after =>
      simp only [hr]
      rcases hstops.of_error hr with rfl | ⟨rfl, -⟩
      · rfl
      · exact Nat.zero_add _

/-- Where every forward declaration is defined, a run that begins inside the text, with a table that
earlier runs over the text have left, stays inside. Every call of `accept` or of a parser may be watched
and never strays from between its start and the end of the text, however it comes out and wherever the
run is cut short. Nothing fails on the way for being done at a wrong position: recognition answers, and a
parse gives a value or is rejected where it began. The span of a parse and the counts of a report are
those of its match. -/
theorem positions_inside {w : Workspace V} {known} (assembled : Assembled w known)
    (defined : ∀ slot < w.grammar.ruleSlots.size, (w.grammar.ruleTarget slot).isSome)
    (inside : run.position ≤ text.length) (sound : run.bindings.Sound w.grammar)
    (filled : run.memo.Filled w.grammar text) (fuel : Nat) :
    (∀ r, untraced (acceptWatched w.grammar text fuel r run.traced) =
        untraced (accept w.grammar text fuel r run) ∧
      Ensures (accept w.grammar text fuel r) run (fun _ after => run.Ahead text after)
        fun halt _ => halt = .exhausted) ∧
    (∀ p ∈ known, untraced (parseAtWatched w.grammar text fuel p run.traced) =
        untraced (parseAt w.grammar text fuel p run) ∧
      Ensures (parseAt w.grammar text fuel p) run (fun _ after => run.Ahead text after)
        (fun halt after => halt = .exhausted ∨ halt = .failed .rejected ∧ after.position = run.position) ∧
      Ensures (parseSpan w.grammar text fuel p) run
        (fun x after => x.span = ⟨text, 0, after.position⟩ ∧ run.Ahead text after)
        fun halt _ => halt = .exhausted ∨ halt = .failed .rejected) ∧
    ∀ s : Sample V, s.workspace = w → s.root ∈ known → ∀ input config,
      match s.report input config with
      | .ok report => report.stop.getD 0 + report.unconsumed = (Buffer.load 0 input).length
      | .error e => e = .halted .exhausted := by
  have hg := assembled.consistent.aligned_slots
  have complete := Grammar.complete_of_targets defined
  have good : run.Good w.grammar text := ⟨inside, sound, filled.correct⟩
  refine ⟨fun r => ⟨?_, accept_stops (complete r) good fuel⟩, fun p hp => ?_, ?_⟩
  · exact ((accept_shadows _ run.position fuel r).ahead good).1
  · have hpa := assembled.consistent.aligned hp
    exact ⟨((parseAt_shadows _ run.position fuel p).ahead good).1,
      parseAt_stops hg hpa (complete p.rule) good fuel,
      parseSpan_stops hg hpa (complete p.rule) good fuel⟩
  · rintro s rfl hroot input config
    exact s.report_adds assembled hroot (complete s.root.rule) input config

/-- The term in the parentheses is matched again with what the match of the whole has left. -/
theorem positions_inside_parentheses :
    let g := Lambda.workspace.grammar
    let text := Buffer.load 0 "(λx.x)y"
    ∃ m : Memo, m.Filled g text ∧ (m.get? ⟨Lambda.root.rule, 0⟩).isSome ∧
      ∃ after, acceptWatched g text 40 Lambda.root.rule (Run.begin 1 m .empty).traced = .ok true after ∧
        after.position = 5 := by
  intro g text
  obtain ⟨known, assembled, hroot⟩ := Lambda.assembled
  have whole : Ensures (accept g text 40 Lambda.root.rule) (.begin 0 (.empty .full) .empty)
      (fun _ after => (after.memo.get? ⟨Lambda.root.rule, 0⟩).isSome ∧
        Ensures (accept g text 40 Lambda.root.rule) (.begin 1 after.memo .empty)
          (fun x again => x = true ∧ again.position = 5) fun _ _ => False) fun _ _ => False := by
    decide +kernel
  obtain ⟨x, after, hok, hknown, hagain⟩ := whole.exists_ok
  have filled : after.memo.Filled g text := .accept .empty (Nat.zero_le _) .empty hok
  have inside : (Run.begin 1 after.memo (.empty : Bindings Lambda.Piece)).position ≤ text.length := by
    have hlength : 1 ≤ text.length := by decide +kernel
    exact hlength
  obtain ⟨_, again, hplain, rfl, hposition⟩ := hagain.exists_ok
  have hsame := ((positions_inside assembled (by decide +kernel) inside .empty filled 40).1
    Lambda.root.rule).1
  rw [hplain] at hsame
  refine ⟨after.memo, filled, hknown, ?_⟩
  cases hr : acceptWatched g text 40 Lambda.root.rule (Run.begin 1 after.memo .empty).traced with
  | ok x' watched =>
      rw [hr] at hsame
      obtain ⟨rfl, hafter⟩ := EStateM.Result.ok.inj hsame
      exact ⟨watched, rfl, (congrArg Run.position hafter).trans hposition⟩
  | error halt watched =>
      rw [hr] at hsame
      cases hsame

end Packrat
