import Packrat.Engine.Recognition
import Packrat.Proofs.Growth
import Packrat.Proofs.Resolution

/-!
# Recognition follows the rules

From a run whose table is right, an answer of `accept` is a derivation, and it leaves a run whose table
is right and has grown by keys below the rule only (`accept_recognizes`). The one fault that can stop it
is a forward declaration left undefined below the rule.
-/

namespace Packrat

open Relation (ReflTransGen)

variable {V : Type}

/-! ## What is below a rule -/

/-- The alternatives of a choice. -/
def Body.alternatives : Body → List Alternative
  | .choice alternatives => alternatives
  | _ => []

namespace Grammar

variable (g : Grammar V)

/-- The rules that a body names, deferred alternatives by their targets. -/
def operands : Body → List RuleId
  | .literal _ | .predicate _ _ => []
  | .sequence rules => rules
  | .choice alternatives => alternatives.filterMap g.alternativeTarget
  | .star item | .plus item | .option item | .and item | .not item => [item]

/-- One rule leads to another through any number of bodies. -/
def Reaches (r r' : RuleId) : Prop := ReflTransGen (fun r r' => r' ∈ g.operands (g.body r)) r r'

/-- No deferred alternative below the rule is left without a target. -/
def Complete (r : RuleId) : Prop :=
  ∀ r', g.Reaches r r' → ∀ a ∈ (g.body r').alternatives, (g.alternativeTarget a).isSome

/-- A run of the rule that gives no answer lacks fuel or meets an undefined forward declaration. -/
def Stops (r : RuleId) (halt : Halt) : Prop :=
  halt = .exhausted ∨ (∃ name, halt = .faulted (.undefinedForward name)) ∧ ¬ g.Complete r

variable {g}

theorem Stops.ne_failed {r : RuleId} {halt : Halt} (h : g.Stops r halt) (e : ParseError) :
    halt ≠ .failed e := by
  rintro rfl
  rcases h with h | ⟨⟨name, h⟩, -⟩ <;> cases h

theorem Complete.operand {r r'} (h : g.Complete r) (hr : r' ∈ g.operands (g.body r)) : g.Complete r' :=
  fun r'' hr' => h r'' (ReflTransGen.head hr hr')

theorem complete_of_targets (h : ∀ slot < g.ruleSlots.size, (g.ruleTarget slot).isSome) (r : RuleId) :
    g.Complete r := by
  intro r' _ a _
  cases a with
  | ready r => rfl
  | deferred slot =>
      by_cases hs : slot < g.ruleSlots.size
      · exact h slot hs
      · simp [alternativeTarget, ruleTarget, ruleSource, hs]

theorem Stops.of_operand {r r' halt} (h : g.Stops r' halt) (hr : r' ∈ g.operands (g.body r)) :
    g.Stops r halt :=
  h.imp_right (And.imp_right fun hn hc => hn (hc.operand hr))

end Grammar

/-! ## Runs -/

/-- The position lies in the text, and what has been found and remembered is right. -/
structure Run.Good (g : Grammar V) (text : Buffer) (run : Run V) : Prop where
  inside : run.position ≤ text.length
  sound : run.bindings.Sound g
  correct : run.memo.Correct g text

theorem Run.Good.moveTo {g : Grammar V} {text run p} (h : Run.Good g text run) (hp : p ≤ text.length) :
    (run.moveTo p).Good g text := ⟨hp, h.sound, h.correct⟩

/-- The run `after` comes from `run` by matching the body, with the answer `x`. -/
structure Evaluated (g : Grammar V) (text : Buffer) (b : Body) (run : Run V) (x : Bool) (after : Run V) :
    Prop where
  derives : Derives g text b run.position (.ofAnswer x after.position)
  good : after.Good g text
  grows : run.memo.Grows (Below g text b run.position) after.memo

/-- The run `after` comes from `run` by accepting the rule, with the answer `x`. -/
structure Recognized (g : Grammar V) (text : Buffer) (r : RuleId) (run : Run V) (x : Bool)
    (after : Run V) : Prop where
  outcome : Matches g text r run.position (.ofAnswer x after.position)
  good : after.Good g text
  grows : run.memo.Grows (fun k => ReflTransGen (NeededBy g text) k ⟨r, run.position⟩) after.memo

/-- From a good run, `accept` recognizes the rule or stops as `E` allows. -/
def Recognizes (g : Grammar V) (text : Buffer) (accept : RuleId → Engine V Bool) (E : Halt → Prop)
    (r : RuleId) : Prop :=
  ∀ run : Run V, run.Good g text →
    Ensures (accept r) run (Recognized g text r run) fun halt _ => E halt

variable {g : Grammar V} {text : Buffer} {run : Run V}

theorem Recognized.grows_below {r x mid b} (h : Recognized g text r run x mid)
    (ha : Asks g text b run.position ⟨r, run.position⟩) :
    run.memo.Grows (Below g text b run.position) mid.memo := h.grows.mono fun _ hk => ha.reaches hk

namespace Engine

variable {acc : RuleId → Engine V Bool} {E : Halt → Prop}

/-! ## Terminals -/

theorem matchChars_evaluates {cs : List Char} (good : run.Good g text) :
    Ensures (matchChars text cs) run (Evaluated g text (.literal cs) run) fun halt _ => E halt := by
  suffices h : Ensures (matchChars text cs) run (fun x after =>
      Derives g text (.literal cs) run.position (.ofAnswer x after.position) ∧ after.Good g text ∧
        after.memo = run.memo) fun halt _ => E halt from
    h.imp_left fun x after ⟨hd, hg, hm⟩ => ⟨hd, hg, hm ▸ .refl⟩
  induction cs generalizing run with
  | nil => exact .pure ⟨.literal (List.nil_prefix), good, rfl⟩
  | cons c cs ih =>
      unfold matchChars
      cases hc : text.char? run.position with
      | none =>
          refine .step (advance_eq_none hc) (.pure ⟨.literal_reject ?_, good, rfl⟩)
          simp [Buffer.rest_eq_nil hc]
      | some d =>
          obtain ⟨hp, -⟩ := Buffer.char?_eq_some_iff.mp hc
          apply Ensures.step (advance_eq_some hc)
          by_cases he : d = c
          · subst he
            simp only [if_true]
            apply (ih (good.moveTo hp)).imp_left
            rintro x after ⟨hd, hg, hm⟩
            exact ⟨hd.literal_cons hc, hg, hm⟩
          · simp only [he, if_false]
            refine .pure ⟨.literal_reject ?_, good.moveTo hp, rfl⟩
            rw [Buffer.rest_eq_cons hc, List.cons_prefix_cons]
            exact fun h => he h.1.symm

theorem matchChar_evaluates {d : String} {test : Char → Bool} (good : run.Good g text) :
    Ensures (matchChar text test) run (Evaluated g text (.predicate d test) run)
      fun halt _ => E halt := by
  unfold matchChar
  cases hc : text.char? run.position with
  | none =>
      refine .step (advance_eq_none hc) (.pure ⟨.predicate_reject ?_, good, .refl⟩)
      simp [hc]
  | some c =>
      obtain ⟨hp, -⟩ := Buffer.char?_eq_some_iff.mp hc
      refine .step (advance_eq_some hc) (.pure ⟨?_, good.moveTo hp, .refl⟩)
      cases ht : test c with
      | true => exact .predicate hc ht
      | false => exact .predicate_reject (by simpa [hc] using ht)

/-! ## Sequences and choices -/

theorem matchAll_evaluates {rules : List RuleId} (h : ∀ r ∈ rules, Recognizes g text acc E r)
    (good : run.Good g text) :
    Ensures (matchAll acc rules) run (Evaluated g text (.sequence rules) run) fun halt _ => E halt := by
  induction rules generalizing run with
  | nil => exact .pure ⟨.sequence_nil, good, .refl⟩
  | cons r rest ih =>
      apply (h r List.mem_cons_self run good).bind
      intro x mid hm
      have hgrows := hm.grows_below (b := .sequence (r :: rest)) .sequence_head
      cases x with
      | false => exact .pure ⟨.sequence_reject hm.outcome, hm.good, hgrows⟩
      | true =>
          apply (ih (fun r hr => h r (List.mem_cons_of_mem _ hr)) hm.good).imp_left
          intro x after ha
          exact ⟨.sequence_cons hm.outcome ha.derives, ha.good,
            hgrows.trans (ha.grows.mono fun _ hk => hk.mono fun _ => .sequence_tail hm.outcome)⟩

theorem resolve_ensures {α : Type} {lookup : Resolution V α} {target : Option α}
    (h : Resolution.Finds g lookup target) (good : run.Good g text) :
    Ensures (resolve lookup) run
      (fun a after => target = some a ∧ after.Good g text ∧ after.position = run.position ∧
        after.memo = run.memo)
      fun halt _ => (∃ name, halt = .faulted (.undefinedForward name)) ∧ target = none := by
  have hfind := h run.bindings good.sound
  unfold Ensures at hfind ⊢
  unfold resolve
  cases hr : lookup run.bindings with
  | ok a bindings =>
      simp only [hr] at hfind ⊢
      exact ⟨hfind.1, ⟨good.inside, hfind.2, good.correct⟩, trivial, trivial⟩
  | error halt bindings =>
      simp only [hr] at hfind ⊢
      exact ⟨hfind.1, hfind.2.1⟩

theorem resolve_target {α : Type} {lookup : Resolution V α} {a : α}
    (h : Resolution.Finds g lookup (some a)) (good : run.Good g text) :
    Ensures (resolve lookup) run
      (fun a' after => a' = a ∧ after.Good g text ∧ after.position = run.position) fun _ _ => False := by
  refine (resolve_ensures h good).imp ?_ ?_
  · rintro a' after ⟨ha, hgood, hpos, -⟩
    cases ha
    exact ⟨rfl, hgood, hpos⟩
  · rintro halt after ⟨-, hnone⟩
    cases hnone

theorem matchFirst_evaluates {alternatives : List Alternative}
    (h : ∀ a ∈ alternatives, ∀ r, g.alternativeTarget a = some r → Recognizes g text acc E r)
    (hE : ∀ a ∈ alternatives, g.alternativeTarget a = none →
      ∀ name, E (.faulted (.undefinedForward name)))
    (good : run.Good g text) :
    Ensures (matchFirst g text acc run.position alternatives) run
      (Evaluated g text (.choice alternatives) run) fun halt _ => E halt := by
  induction alternatives generalizing run with
  | nil => exact .pure ⟨.choice_nil, good, .refl⟩
  | cons a rest ih =>
      unfold matchFirst
      refine ((resolve_ensures (Grammar.resolveAlternative_finds a) good).imp_right ?_).bind ?_
      · rintro halt _ ⟨⟨name, rfl⟩, hnone⟩
        exact hE a List.mem_cons_self hnone name
      rintro r found ⟨ha, hfound, hpos, hmemo⟩
      apply (h a List.mem_cons_self r ha found hfound).bind
      intro x mid hm
      have hgrows := hm.grows_below (b := .choice (a :: rest)) (.choice_head ha)
      have hout := hm.outcome
      rw [hpos] at hgrows hout
      rw [hmemo] at hgrows
      cases x with
      | true => exact .pure ⟨.choice_first ha hout, hm.good, hgrows⟩
      | false =>
          apply Ensures.step (rewind_eq good.inside)
          refine (ih (fun a ha => h a (List.mem_cons_of_mem _ ha))
            (fun a ha => hE a (List.mem_cons_of_mem _ ha)) (hm.good.moveTo good.inside)).imp_left ?_
          intro x after hr
          exact ⟨.choice_next ha hout hr.derives, hr.good,
            hgrows.trans (hr.grows.mono fun _ hk => hk.mono fun _ => .choice_tail ha hout)⟩

/-! ## Repetitions and lookaheads -/

theorem matchMany_evaluates {i : RuleId} (h : Recognizes g text acc E i) (hE : E .exhausted)
    (limit : Nat) (good : run.Good g text) :
    Ensures (matchMany text (acc i) limit) run (fun _ => Evaluated g text (.star i) run true)
      fun halt _ => E halt := by
  induction limit generalizing run with
  | zero => exact .throw hE
  | succ limit ih =>
      unfold matchMany
      refine .step position_eq ((h run good).bind fun x mid hm => ?_)
      have hgrows := hm.grows_below (b := .star i) (.operand rfl)
      cases x with
      | true =>
          apply (ih hm.good).imp_left
          intro _ after ha
          exact ⟨.star_more hm.outcome ha.derives, ha.good,
            hgrows.trans (ha.grows.mono fun _ hk => hk.mono fun _ => .star_tail hm.outcome)⟩
      | false =>
          exact .done (rewind_eq good.inside)
            ⟨.star_stop hm.outcome, hm.good.moveTo good.inside, hgrows⟩

theorem unmemoized_ensures {α : Type} {act : Engine V α} {Q : α → Run V → Prop}
    (h : Ensures act { run with memo := .empty .none } Q fun halt _ => E halt) :
    Ensures (unmemoized act) run (fun a after => ∃ mid, Q a mid ∧ after = { mid with memo := run.memo })
      fun halt _ => E halt := by
  unfold Ensures at h ⊢
  unfold unmemoized
  cases hr : act { run with memo := .empty .none } with
  | ok a mid =>
      simp only [hr] at h ⊢
      exact ⟨mid, h, rfl⟩
  | error halt mid =>
      simp only [hr] at h ⊢
      exact h

/-- A lookahead finds the outcome, and only what it found for deferred alternatives is left of it. -/
theorem lookahead_ensures {i : RuleId} (h : Recognizes g text acc E i) (good : run.Good g text) :
    Ensures (lookahead text (acc i)) run (fun x after =>
      (∃ e, Matches g text i run.position (.ofAnswer x e)) ∧ after.Good g text ∧
        after.position = run.position ∧ after.memo = run.memo) fun halt _ => E halt := by
  refine .step position_eq ((unmemoized_ensures (h _ ⟨good.inside, good.sound, .empty⟩)).bind ?_)
  rintro x _ ⟨mid, hm, rfl⟩
  refine .step (rewind_eq good.inside) (.pure ⟨⟨_, hm.outcome⟩, ?_, rfl, rfl⟩)
  exact ⟨good.inside, hm.good.sound, good.correct⟩

/-! ## Rules -/

theorem evaluate_evaluates {b : Body} (h : ∀ r ∈ g.operands b, Recognizes g text acc E r)
    (hE : E .exhausted)
    (hundefined : ∀ a ∈ b.alternatives, g.alternativeTarget a = none →
      ∀ name, E (.faulted (.undefinedForward name)))
    (limit : Nat) (good : run.Good g text) :
    Ensures (evaluate g text acc limit b) run (Evaluated g text b run) fun halt _ => E halt := by
  cases b with
  | literal => exact matchChars_evaluates good
  | predicate => exact matchChar_evaluates good
  | sequence rules => exact matchAll_evaluates h good
  | choice alternatives =>
      refine .step position_eq (matchFirst_evaluates (fun a ha r hr => h r ?_) hundefined good)
      exact List.mem_filterMap.mpr ⟨a, ha, hr⟩
  | star i =>
      exact (matchMany_evaluates (h i List.mem_cons_self) hE limit good).bind fun _ after ha => .pure ha
  | plus i =>
      have hi := h i List.mem_cons_self
      apply (hi run good).bind
      intro x mid hm
      have hgrows := hm.grows_below (b := .plus i) (.operand rfl)
      cases x with
      | false => exact .pure ⟨.plus_reject hm.outcome, hm.good, hgrows⟩
      | true =>
          refine (matchMany_evaluates hi hE limit hm.good).bind fun _ after ha => .pure ?_
          exact ⟨.plus hm.outcome ha.derives, ha.good,
            hgrows.trans (ha.grows.mono fun _ hk => hk.mono fun _ => .plus_tail hm.outcome)⟩
  | option i =>
      refine .step position_eq ((h i List.mem_cons_self run good).bind fun x mid hm => ?_)
      have hgrows := hm.grows_below (b := .option i) (.operand rfl)
      cases x with
      | true => exact .pure ⟨.option_some hm.outcome, hm.good, hgrows⟩
      | false =>
          refine .step (rewind_eq good.inside) (.pure ?_)
          exact ⟨.option_none hm.outcome, hm.good.moveTo good.inside, hgrows⟩
  | and i =>
      apply (lookahead_ensures (h i List.mem_cons_self) good).imp_left
      rintro x after ⟨⟨e, hm⟩, hg, hpos, hmemo⟩
      refine ⟨?_, hg, hmemo ▸ .refl⟩
      cases x with
      | true => exact hpos.symm ▸ .and hm
      | false => exact .and_reject hm
  | not i =>
      apply (lookahead_ensures (h i List.mem_cons_self) good).bind
      rintro x after ⟨⟨e, hm⟩, hg, hpos, hmemo⟩
      refine .pure ⟨?_, hg, hmemo ▸ .refl⟩
      cases x with
      | true => exact .not_reject hm
      | false => exact hpos.symm ▸ .not hm

theorem accept_recognizes (fuel : Nat) (r : RuleId) :
    Recognizes g text (accept g text fuel) (g.Stops r) r := by
  induction fuel generalizing r with
  | zero => exact fun run _ => .throw (.inl rfl)
  | succ fuel ih =>
      intro run good
      unfold accept
      refine .step position_eq (.step consult_eq ?_)
      cases hl : (run.memo.lookup ⟨r, run.position⟩).1 with
      | some o =>
          have hm := (good.correct.answer hl).2
          have hg : Run.Good g text { run with memo := (run.memo.lookup ⟨r, run.position⟩).2 } :=
            ⟨good.inside, good.sound, good.correct.lookup⟩
          cases o with
          | rejected => exact .pure ⟨hm, hg, .hit hl⟩
          | accepted stop =>
              have hstop := hm.end_le good.inside
              exact .step (rewind_eq hstop) (.pure ⟨hm, hg.moveTo hstop, .hit hl⟩)
      | none =>
          refine Ensures.bind (evaluate_evaluates (E := g.Stops r) ?_ (.inl rfl) ?_ fuel
            ⟨good.inside, good.sound, good.correct.lookup⟩) fun x mid hm => ?_
          · intro r' hr' run' good'
            exact (ih r' run' good').imp_right fun halt _ hs => hs.of_operand hr'
          · intro a ha hnone name
            refine .inr ⟨⟨name, rfl⟩, fun hc => ?_⟩
            simpa [hnone] using hc r .refl a ha
          · have hout : Matches g text r run.position (.ofAnswer x mid.position) := hm.derives
            refine .step position_eq (.step remember_eq (.step report_eq (.pure ⟨hout, ?_, ?_⟩)))
            · exact ⟨hm.good.inside, hm.good.sound, hm.good.correct.record ⟨good.inside, hout⟩⟩
            -- it has recorded nothing at its own key, which would have to be below itself
            · apply (hm.grows.evaluation hl (Matches.not_below (k := ⟨r, run.position⟩) hout)).mono
              rintro k (rfl | hk)
              · exact .refl
              · exact hk.needed

theorem accept_recognizes_or_halts {fuel : Nat} (r : RuleId) :
    Recognizes g text (accept g text fuel) (fun _ => True) r :=
  fun run good => (accept_recognizes fuel r run good).imp_right fun _ _ _ => trivial

end Engine

end Packrat
