import Packrat.Proofs.Construction

/-!
# What a parse performs

A session that parses an input applies a function to values exactly once for each node of the parse tree
that has one, in postorder, and it applies none if there is no tree (`parseSpan_performs`). Neither the
memo table nor what was tried on the way adds to that.
-/

namespace Packrat

open Engine

variable {V : Type} {g : Grammar V} {text : Buffer} {run after : Run V} {p : Parser V} {fuel : Nat}

/-! ## Trees of parses -/

/-- What is yielded as a value has a tree, which a run from the position builds. -/
theorem Yields.exists_parsed {s v e} (hg : g.Aligned) (hp : p.Aligned g) (hs : s ≤ text.length)
    (hy : Yields g text p s (some (v, e))) : ∃ t, Parsed g text p s t ∧ t.value = v ∧ t.stop = e := by
  have good : (Run.begin s (.empty .none) .empty).Good g text := .begin hs .empty
  obtain ⟨fuel, hl, -⟩ := g.exists_ample text 0
  obtain ⟨v', after, hok, -, rfl, rfl⟩ := (hy.parseAt_ample hg hp good hl _ good rfl).exists_ok
  obtain ⟨t, ht⟩ := (parseAt_follows hg hp _ good).of_ok hok
  exact ⟨t, ht.parsed, ht.value, ht.stop⟩

/-! ## Parses with a span -/

namespace Engine

theorem parseSpan_of_ok {v} (h : parseAt g text fuel p run = .ok v after)
    (inside : after.position ≤ text.length) :
    ∃ event, parseSpan g text fuel p run =
      .ok ⟨v, ⟨text, 0, after.position⟩⟩ (after.observe event) := by
  let event : Event := .finished p.rule text.length after.memo.strategy true after.position after.memo.stats?
  have hreport : reporting text p.rule (parseAt g text fuel p) run = .ok v (after.observe event) := by
    unfold reporting
    rw [h]
    rfl
  have hspan : Span.make text 0 (after.observe event).position = .ok ⟨text, 0, after.position⟩ :=
    if_pos ⟨Nat.zero_le _, inside⟩
  refine ⟨event, (bind_of_ok hreport).trans ((bind_of_ok position_eq).trans ?_)⟩
  rw [hspan]
  rfl

theorem parseSpan_of_rejected (h : parseAt g text fuel p run = .error (.failed .rejected) after) :
    ∃ event, parseSpan g text fuel p run = .error (.failed .rejected) (after.observe event) := by
  refine ⟨.finished p.rule text.length after.memo.strategy false after.position after.memo.stats?,
    bind_of_error ?_⟩
  unfold reporting
  rw [h]
  rfl

theorem parseSpan_of_exhausted (h : parseAt g text fuel p run = .error .exhausted after) :
    parseSpan g text fuel p run = .error .exhausted after := by
  apply bind_of_error
  unfold reporting
  rw [h]

/-- Where every forward declaration is defined but the rule has no outcome, no fuel is enough. -/
theorem accept_exhausted {r : RuleId} (complete : g.Complete r) (good : run.Good g text)
    (h : ∀ o, ¬ Matches g text r run.position o) (fuel : Nat) :
    ∃ after, accept g text fuel r run = .error .exhausted after := by
  have hrec := accept_recognizes fuel r run good
  cases hr : accept g text fuel r run with
  | ok x mid => exact absurd (hrec.of_ok hr).outcome (h _)
  | error halt mid =>
      rcases hrec.of_error hr with rfl | ⟨-, hn⟩
      · exact ⟨mid, rfl⟩
      · exact absurd complete hn

theorem parseAt_exhausted (complete : g.Complete p.rule) (good : run.Good g text)
    (h : ∀ o, ¬ Matches g text p.rule run.position o) (fuel : Nat) :
    ∃ after, parseAt g text fuel p run = .error .exhausted after := by
  obtain ⟨mid, herr⟩ := accept_exhausted complete good h fuel
  exact ⟨mid, (bind_of_ok position_eq).trans (bind_of_error herr)⟩

end Engine

/-! ## Sessions -/

section

variable {w : Workspace V} {input : String}

theorem Session.parseSpan_of_parsed {t} (hg : w.grammar.Aligned) (hp : p.Aligned w.grammar)
    (sound : w.bindings.Sound w.grammar) (ht : Parsed w.grammar (.load 0 input) p 0 t) (config : Config) :
    ∃ w', Session.parseSpan p input config w = .ok ⟨t.value, ⟨.load 0 input, 0, t.stop⟩⟩ w' ∧
      w'.actions = t.actions.reverse ++ w.actions := by
  have good : (Session.fresh config w.bindings).Good w.grammar (.load 0 input) := .fresh sound
  have hreturns := ht.yields.parseAt_ample hg hp good (w.lt_fuel _)
  obtain ⟨v, after, hok, hafter, -, -⟩ := (hreturns _ good rfl).exists_ok
  obtain ⟨t', ht'⟩ := (parseAt_follows hg hp _ good).of_ok hok
  cases ht.unique ht'.parsed
  obtain ⟨event, hspan⟩ := parseSpan_of_ok hok hafter.inside
  rw [ht'.value, ht'.stop]
  refine ⟨_, Session.run_of_ok hspan, congrArg (· ++ w.actions) ?_⟩
  exact ht'.actions.trans (List.append_nil _)

theorem Session.parseSpan_of_rejected (hg : w.grammar.Aligned) (hp : p.Aligned w.grammar)
    (sound : w.bindings.Sound w.grammar) (hy : Yields w.grammar (.load 0 input) p 0 none)
    (config : Config) :
    ∃ w', Session.parseSpan p input config w = .error (.failed .rejected) w' ∧
      w'.actions = w.actions := by
  have good : (Session.fresh config w.bindings).Good w.grammar (.load 0 input) := .fresh sound
  have hreturns := hy.parseAt_ample hg hp good (w.lt_fuel _)
  obtain ⟨_, after, herr, -, rfl, -⟩ := (hreturns _ good rfl).exists_error
  have hrefused := (parseAt_follows hg hp _ good).of_error herr rfl
  obtain ⟨event, hspan⟩ := Engine.parseSpan_of_rejected herr
  refine ⟨_, Session.run_of_error hspan, ?_⟩
  exact congrArg (· ++ w.actions) hrefused.actions

end

/-- Where every forward declaration is defined, a session that parses an input builds the one parse tree
of the input and performs the functions of its nodes, once each, in postorder; or there is no tree, and
the session is rejected and performs nothing; or no fuel is enough. Which of these it is does not depend
on the memo table. -/
theorem parseSpan_performs {w : Workspace V} {known} (assembled : Assembled w known) (hp : p ∈ known)
    (complete : w.grammar.Complete p.rule) (input : String) :
    let g := w.grammar
    let text := Buffer.load 0 input
    (∃ t, Parsed g text p 0 t ∧ (∀ t', Parsed g text p 0 t' → t' = t) ∧
      ∀ config, ∃ w', Session.parseSpan p input config w = .ok ⟨t.value, ⟨text, 0, t.stop⟩⟩ w' ∧
        w'.actions = t.actions.reverse ++ w.actions) ∨
    ((∀ t, ¬ Parsed g text p 0 t) ∧
      ∀ config, ∃ w', Session.parseSpan p input config w = .error (.failed .rejected) w' ∧
        w'.actions = w.actions) ∨
    ∀ config fuel, ¬ Settled (Engine.parseSpan g text fuel p (Session.fresh config w.bindings)) := by
  intro g text
  have hg := assembled.consistent.aligned_slots
  have hpa := assembled.consistent.aligned hp
  have sound := assembled.consistent.sound
  by_cases hm : ∃ o, Matches g text p.rule 0 o
  · obtain ⟨o, hm⟩ := hm
    obtain ⟨y, hy, -⟩ := hpa.parses hg (w.lt_fuel _) (Nat.zero_le _) hm
    cases y with
    | some x =>
        obtain ⟨t, ht, -⟩ := hy.exists_parsed hg hpa (Nat.zero_le _)
        exact .inl ⟨t, ht, fun t' ht' => ht'.unique ht,
          Session.parseSpan_of_parsed hg hpa sound ht⟩
    | none =>
        exact .inr (.inl ⟨fun t ht => ht.not_yields_none hy,
          Session.parseSpan_of_rejected hg hpa sound hy⟩)
  · refine .inr (.inr fun config fuel hs => ?_)
    have good : (Session.fresh config w.bindings).Good g text := .begin (Nat.zero_le _) sound
    obtain ⟨after, herr⟩ := parseAt_exhausted complete good (not_exists.mp hm) fuel
    exact hs after (parseSpan_of_exhausted herr)

/-- An application of an abstraction, where each letter, pair of parts and pair of parentheses has its
own node. -/
theorem parseSpan_performs_application :
    let text := Buffer.load 0 "(λx.x)y"
    ∃ t, Parsed Lambda.workspace.grammar text Lambda.root 0 t ∧
      t.actions = ["right", "left", "var", "abs", "right", "left", "var", "app"] ∧
      ∀ config, ∃ w, Session.parseSpan Lambda.root "(λx.x)y" config Lambda.workspace =
        .ok ⟨t.value, ⟨text, 0, t.stop⟩⟩ w ∧ w.actions = t.actions.reverse := by
  intro text
  obtain ⟨known, assembled, hroot⟩ := Lambda.assembled
  have complete : Lambda.workspace.grammar.Complete Lambda.root.rule :=
    Grammar.complete_of_targets (by decide +kernel) _
  have hrun : Ensures (Session.parseSpan Lambda.root "(λx.x)y" .unmemoized) Lambda.workspace
      (fun _ w => w.actions = ["app", "var", "left", "right", "abs", "var", "left", "right"])
      fun _ _ => False := by decide +kernel
  obtain ⟨v, w, hok, hactions⟩ := hrun.exists_ok
  rcases parseSpan_performs assembled hroot complete "(λx.x)y" with
    ⟨t, ht, -, hparse⟩ | ⟨-, hreject⟩ | hnever
  · have hstart : Lambda.workspace.actions = [] := by decide +kernel
    simp only [hstart, List.append_nil] at hparse
    obtain ⟨w', hok', hactions'⟩ := hparse .unmemoized
    cases hok.symm.trans hok'
    refine ⟨t, ht, ?_, hparse⟩
    rw [← List.reverse_reverse t.actions, ← hactions', hactions]
    rfl
  · obtain ⟨w', herr, -⟩ := hreject .unmemoized
    cases hok.symm.trans herr
  · have hset : Answers (Engine.parseSpan Lambda.workspace.grammar text 40 Lambda.root)
        (Session.fresh .unmemoized .empty) := Ensures.answers (Q := fun _ _ => True) (by decide +kernel)
    obtain ⟨v', after, hok'⟩ := hset
    exact absurd (Settled.of_ok hok') (hnever .unmemoized 40)

end Packrat
