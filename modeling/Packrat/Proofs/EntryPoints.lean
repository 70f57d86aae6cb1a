import Packrat.Proofs.Reuse
import Packrat.Report

/-!
# One answer at every entry point

Recognition by the rule of a parser, a parse with its span or of the value alone, a batch and a report:
whatever the configuration, all of them come to the one thing that the parser yields at the start of the
input, or none of them ever ends (`entry_points_agree`).
-/

namespace Packrat

open Engine

variable {V : Type} {w : Workspace V} {p : Parser V} {input : String} {y : Yield V}

/-! ## What is answered -/

namespace Yield

/-- The answer of a parse that gives the value alone. -/
def value : Yield V → Except ParseError V
  | some (v, _) => .ok v
  | none => .error .rejected

/-- The answer of a parse from the start of a text that gives the span of the match too. -/
def spanned (text : Buffer) : Yield V → Except ParseError (Spanned V)
  | some (v, e) => .ok ⟨v, text, 0, e⟩
  | none => .error .rejected

end Yield

/-- The parser comes to the yield on the input, at every entry point and with every configuration. -/
structure Workspace.Agrees (w : Workspace V) (p : Parser V) (input : String) (y : Yield V) : Prop where
  inside : ∀ v e, y = some (v, e) → e ≤ input.length
  recognize : ∀ config, answer (Session.recognize p.rule input config) w = .ok (y.map Prod.snd)
  parseSpan : ∀ config, answer (Session.parseSpan p input config) w =
    (y.spanned (.load 0 input)).mapError .failed
  parse : ∀ config, answer (Session.parse p input config) w = y.value.mapError .failed
  report : ∀ s : Sample V, s.workspace = w → s.root = p → ∀ config, ∃ stats, s.report input config =
    .ok { grammar := s.name, input := input, strategy := config.strategy
          accepted := y.isSome, value := y.map fun x => s.render x.1, stop := y.map Prod.snd
          unconsumed := input.length - (y.map Prod.snd).getD 0, stats := stats }

/-- No fuel is enough for the parser on the input, at any entry point and with any configuration. -/
structure Workspace.Diverges (w : Workspace V) (p : Parser V) (input : String) : Prop where
  recognize : ∀ config fuel, ¬ Settled
    (Engine.recognize w.grammar (.load 0 input) fuel p.rule (Session.fresh config w.bindings))
  parseSpan : ∀ config fuel, ¬ Settled
    (Engine.parseSpan w.grammar (.load 0 input) fuel p (Session.fresh config w.bindings))
  parseAt : ∀ config fuel, ¬ Settled
    (Engine.parseAt w.grammar (.load 0 input) fuel p (Session.fresh config w.bindings))

/-! ## Where the parser yields -/

theorem Session.answer_capture {α : Type} {act : Session V α} {x : Except ParseError α}
    (h : answer act w = x.mapError .failed) : answer (Session.capture act) w = .ok x := by
  cases x with
  | ok a =>
      have hok : answer act w = .ok a := h
      simp only [answer, Session.capture, answer_eq_ok_iff.mp hok]
  | error e =>
      have herr : answer act w = .error (.failed e) := h
      simp only [answer, Session.capture, answer_eq_error_iff.mp herr]

section

variable (hg : w.grammar.Aligned) (hp : p.Aligned w.grammar) (sound : w.bindings.Sound w.grammar)
  (hy : Yields w.grammar (.load 0 input) p 0 y) (config : Config)

include hg hp sound hy

theorem Session.recognize_of_yields :
    answer (Session.recognize p.rule input config) w = .ok (y.map Prod.snd) := by
  have hm := hy.matches hg hp
  rw [Session.recognize_of_matches ⟨rfl, sound⟩ hm config]
  cases y with
  | some x => rfl
  | none => rfl

theorem Session.parseSpan_of_yields : answer (Session.parseSpan p input config) w =
    (y.spanned (.load 0 input)).mapError .failed := by
  cases y with
  | some x =>
      obtain ⟨t, ht, hv, he⟩ := hy.exists_parsed hg hp (Nat.zero_le _)
      obtain ⟨w', hok, -⟩ := Session.parseSpan_of_parsed hg hp sound ht config
      rw [answer_of_ok hok, hv, he]
      rfl
  | none =>
      obtain ⟨w', herr, -⟩ := Session.parseSpan_of_rejected hg hp sound hy config
      exact answer_of_error herr

theorem Session.parse_of_yields :
    answer (Session.parse p input config) w = y.value.mapError .failed := by
  unfold Session.parse
  rw [answer_bind_pure, Session.parseSpan_of_yields hg hp sound hy config]
  cases y with
  | some x => rfl
  | none => rfl

theorem Sample.report_of_yields {s : Sample V} (hs : s.workspace = w) (hroot : s.root = p) :
    ∃ stats, s.report input config =
      .ok { grammar := s.name, input := input, strategy := config.strategy
            accepted := y.isSome, value := y.map fun x => s.render x.1, stop := y.map Prod.snd
            unconsumed := input.length - (y.map Prod.snd).getD 0, stats := stats } := by
  subst hs hroot
  have good : (Session.fresh config s.workspace.bindings).Good s.workspace.grammar (.load 0 input) :=
    .fresh sound
  have hreturns := hy.parseAt_ample hg hp good (s.workspace.lt_fuel _)
  cases y with
  | some x =>
      obtain ⟨_, after, hok, -, rfl, hstop⟩ := (hreturns _ good rfl).exists_ok
      refine ⟨after.memo.stats?, ?_⟩
      simp only [Sample.report, hok, hstop]
      rfl
  | none =>
      obtain ⟨_, after, herr, -, rfl, -⟩ := (hreturns _ good rfl).exists_error
      refine ⟨after.memo.stats?, ?_⟩
      simp only [Sample.report, herr]
      rfl

theorem Sample.parse_of_yields {s : Sample V} (hs : s.workspace = w) (hroot : s.root = p) :
    s.parse input config = .ok (y.map fun x => ⟨x.1, .load 0 input, 0, x.2⟩) := by
  subst hs hroot
  have hspan := Session.answer_capture (Session.parseSpan_of_yields hg hp sound hy config)
  simp only [Sample.parse, Sample.use, answer_eq_ok_iff.mp hspan]
  cases y with
  | some x => rfl
  | none => rfl

theorem Workspace.Agrees.of_yields : w.Agrees p input y where
  inside := by
    rintro v e rfl
    exact Derives.end_le (hy.matches hg hp) (Nat.zero_le _)
  recognize := Session.recognize_of_yields hg hp sound hy
  parseSpan := Session.parseSpan_of_yields hg hp sound hy
  parse := Session.parse_of_yields hg hp sound hy
  report _ hs hroot config := Sample.report_of_yields hg hp sound hy config hs hroot

end

theorem Workspace.Diverges.of_matches (complete : w.grammar.Complete p.rule)
    (sound : w.bindings.Sound w.grammar) (h : ∀ o, ¬ Matches w.grammar (.load 0 input) p.rule 0 o) :
    w.Diverges p input where
  recognize config fuel hs := by
    obtain ⟨after, herr⟩ := Session.recognize_of_exhausted complete ⟨rfl, sound⟩ h config fuel
    exact hs after herr
  parseSpan config fuel hs := by
    obtain ⟨after, herr⟩ := Session.parseSpan_of_exhausted complete ⟨rfl, sound⟩ h config fuel
    exact hs after herr
  parseAt config fuel hs := by
    obtain ⟨after, herr⟩ := parseAt_exhausted complete (.fresh sound) h fuel
    exact hs after herr

/-! ## Batches -/

/-- A parse that lacks fuel in one session lacks it in a batch. -/
theorem Workspace.Diverges.answer_capture {config : Config} (h : w.Diverges p input) :
    answer (Session.capture (Session.parse p input config)) w = .error .exhausted := by
  have hs := h.parseSpan config (w.fuel (Buffer.load 0 input).length)
  obtain ⟨after, herr⟩ : ∃ after, Engine.parseSpan w.grammar (.load 0 input)
      (w.fuel (Buffer.load 0 input).length) p (Session.fresh config w.bindings) =
        .error .exhausted after := by
    simpa [Settled] using hs
  have hparse : Session.parse p input config w = .error .exhausted (w.after after) :=
    bind_of_error (Session.run_of_error herr)
  simp only [answer, Session.capture, hparse]

theorem mapM_eq_error {ε α β : Type} {f : α → Except ε β} {e : ε} {xs : List α}
    (h : ∀ x ∈ xs, (∃ y, f x = .ok y) ∨ f x = .error e) (hx : ∃ x ∈ xs, f x = .error e) :
    xs.mapM f = .error e := by
  induction xs with
  | nil => simp at hx
  | cons x xs ih =>
      rw [List.forall_mem_cons] at h
      rw [List.mapM_cons]
      rcases h.1 with ⟨y, hy⟩ | herr
      · have hrest : ∃ x ∈ xs, f x = .error e := by simpa [hy] using hx
        rw [hy, ih h.2 hrest]
        rfl
      · rw [herr]
        rfl

/-! ## All entry points -/

/-- Where every forward declaration is defined, recognition, parses and reports of an input agree on what
the parser comes to, whatever the configuration: whether the input is accepted, with which value, and where
the match ends; or no fuel is enough for any of them. A batch answers for each of its inputs what the
other entry points answer, and lacks fuel if it does for one of them. Spans agree up to the identity of the
copy of the input that each entry point has loaded. -/
theorem entry_points_agree {known} (assembled : Assembled w known) (hp : p ∈ known)
    (complete : w.grammar.Complete p.rule) :
    (∀ input, (∃ y, w.Agrees p input y) ∨ w.Diverges p input) ∧
    ∀ inputs config,
      (∀ ys, List.Forall₂ (w.Agrees p) inputs ys →
        answer (Session.parseBatch p inputs config) w = .ok (ys.map Yield.value)) ∧
      ((∃ input ∈ inputs, w.Diverges p input) →
        answer (Session.parseBatch p inputs config) w = .error .exhausted) := by
  have hg := assembled.consistent.aligned_slots
  have hpa := assembled.consistent.aligned hp
  have sound := assembled.consistent.sound
  have hall : ∀ input, (∃ y, w.Agrees p input y) ∨ w.Diverges p input := by
    intro input
    by_cases hm : ∃ o, Matches w.grammar (.load 0 input) p.rule 0 o
    · obtain ⟨o, hm⟩ := hm
      obtain ⟨y, hy, -⟩ := hpa.parses hg (w.lt_fuel _) (Nat.zero_le _) hm
      exact .inl ⟨y, .of_yields hg hpa sound hy⟩
    · exact .inr (.of_matches complete sound (not_exists.mp hm))
  refine ⟨hall, fun inputs config => ?_⟩
  rw [Session.parseBatch_answer hg hpa complete ⟨rfl, sound⟩ ⟨rfl, sound⟩]
  constructor
  · intro ys h
    rw [mapM_eq_ok_iff, List.forall₂_map_right_iff]
    exact h.imp fun input y hy => Session.answer_capture (hy.parse config)
  · rintro ⟨input, hmem, hd⟩
    refine mapM_eq_error (fun input _ => ?_) ⟨input, hmem, hd.answer_capture⟩
    rcases hall input with ⟨y, hy⟩ | hd
    · exact .inl ⟨_, Session.answer_capture (hy.parse config)⟩
    · exact .inr hd.answer_capture

/-- An application with a parenthesis too many after it, and a batch where another input is rejected. -/
theorem entry_points_agree_application :
    ∃ x, Lambda.workspace.Agrees Lambda.root "(λx.x)y)" (some (x, 7)) ∧ x.render = "((λx.x) y)" ∧
      Lambda.workspace.Agrees Lambda.root ")" none ∧
      ∀ config, answer (Session.parseBatch Lambda.root ["(λx.x)y)", ")"] config) Lambda.workspace =
        .ok [.ok x, .error .rejected] := by
  obtain ⟨known, assembled, hroot⟩ := Lambda.assembled
  have complete : Lambda.workspace.grammar.Complete Lambda.root.rule :=
    Grammar.complete_of_targets (by decide +kernel) _
  obtain ⟨hall, hbatch⟩ := entry_points_agree assembled hroot complete
  have accepted : Ensures (Session.parseSpan Lambda.root "(λx.x)y)" .memoized) Lambda.workspace
      (fun x _ => x.value.render = "((λx.x) y)" ∧ x.span.stop = 7) fun _ _ => False := by decide +kernel
  have rejected : Ensures (Session.parseSpan Lambda.root ")" .memoized) Lambda.workspace
      (fun _ _ => False) fun halt _ => halt = .failed .rejected := by decide +kernel
  obtain ⟨x, after, hok, hvalue, hstop⟩ := accepted.exists_ok
  obtain ⟨_, after', herr, rfl⟩ := rejected.exists_error
  have ends : ∀ input ∈ ["(λx.x)y)", ")"], ∃ y, Lambda.workspace.Agrees Lambda.root input y := by
    intro input hmem
    rcases hall input with hy | hd
    · exact hy
    · have hrun : ∀ input ∈ ["(λx.x)y)", ")"], Ensures (Engine.recognize Lambda.workspace.grammar
          (.load 0 input) 40 Lambda.root.rule) (Session.fresh .memoized Lambda.workspace.bindings)
          (fun _ _ => True) fun _ _ => False := by decide +kernel
      obtain ⟨_, _, hok, -⟩ := (hrun input hmem).exists_ok
      exact absurd (.of_ok hok) (hd.recognize .memoized 40)
  obtain ⟨y, hy⟩ := ends "(λx.x)y)" (by simp)
  obtain ⟨y', hy'⟩ := ends ")" (by simp)
  have hspanned := (hy.parseSpan .memoized).symm.trans (answer_of_ok hok)
  have hspanned' := (hy'.parseSpan .memoized).symm.trans (answer_of_error herr)
  cases y' with
  | some _ => cases hspanned'
  | none =>
      cases y with
      | none => cases hspanned
      | some v =>
          obtain ⟨v, e⟩ := v
          cases hspanned
          cases hstop
          exact ⟨v, hy, hvalue, hy', fun config => (hbatch _ config).1 _ (.cons hy (.cons hy' .nil))⟩

end Packrat
