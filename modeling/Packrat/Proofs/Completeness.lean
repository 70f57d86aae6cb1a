import Packrat.Proofs.Recognition
import Packrat.Session

/-!
# Every derivation is found

Where a rule has an outcome, `accept` answers: with fuel for the depth of the demand and the rounds of
a repetition, whatever the table holds so far (`Matches.answers`). A workspace has that much
(`Workspace.lt_fuel`).
-/

namespace Packrat

variable {V : Type} {g : Grammar V} {text : Buffer} {run : Run V}

/-! ## The answer is the outcome -/

namespace Recognized

variable {r : RuleId} {x : Bool} {mid : Run V}

theorem of_accepted {q} (h : Recognized g text r run x mid)
    (hm : Matches g text r run.position (.accepted q)) : x = true ∧ mid.position = q :=
  Outcome.ofAnswer_eq_accepted_iff.mp (h.outcome.unique hm)

theorem of_rejected (h : Recognized g text r run x mid) (hm : Matches g text r run.position .rejected) :
    x = false := Outcome.ofAnswer_eq_rejected_iff.mp (h.outcome.unique hm)

end Recognized

/-- Good runs at the position of the key get an answer for its rule. -/
def AnswersAt (g : Grammar V) (text : Buffer) (acc : RuleId → Engine V Bool) (k : Memo.Key) : Prop :=
  ∀ run : Run V, run.Good g text → run.position = k.start → Answers (acc k.rule) run

/-- All rules are recognized, and what matching the body from the position asks for is answered where
it has an outcome. -/
structure Supplies (g : Grammar V) (text : Buffer) (acc : RuleId → Engine V Bool) (b : Body) (p : Nat) :
    Prop where
  recognizes : ∀ r, Recognizes g text acc (fun _ => True) r
  answers : ∀ k o, Asks g text b p k → Matches g text k.rule k.start o → AnswersAt g text acc k

variable {acc : RuleId → Engine V Bool}

theorem Supplies.mono {b b' p p'} (h : Supplies g text acc b p)
    (hb : ∀ k, Asks g text b' p' k → Asks g text b p k) : Supplies g text acc b' p' :=
  ⟨h.recognizes, fun k o hk => h.answers k o (hb k hk)⟩

theorem Supplies.bind {b r o} {β : Type} {f : Bool → Engine V β} (h : Supplies g text acc b run.position)
    (ha : Asks g text b run.position ⟨r, run.position⟩) (hm : Matches g text r run.position o)
    (good : run.Good g text) (hf : ∀ x mid, Recognized g text r run x mid → Answers (f x) mid) :
    Answers (acc r >>= f) run :=
  (h.answers _ o ha hm run good rfl).bind (h.recognizes r run good) hf

namespace Engine

/-! ## One level of a rule -/

theorem matchChars_answers {cs : List Char} : Answers (matchChars text cs) run := by
  induction cs generalizing run with
  | nil => exact .pure
  | cons c cs ih =>
      unfold matchChars
      cases hc : text.char? run.position with
      | none => exact .step (advance_eq_none hc) .pure
      | some d =>
          apply Answers.step (advance_eq_some hc)
          by_cases he : d = c
          · simpa only [he, if_true] using ih
          · simpa only [he, if_false] using .pure

theorem matchChar_answers {test : Char → Bool} : Answers (matchChar text test) run := by
  unfold matchChar
  cases hc : text.char? run.position with
  | none => exact .step (advance_eq_none hc) .pure
  | some c => exact .step (advance_eq_some hc) .pure

theorem matchAll_answers {rules o} (h : Supplies g text acc (.sequence rules) run.position)
    (good : run.Good g text) (hd : Derives g text (.sequence rules) run.position o) :
    Answers (matchAll acc rules) run := by
  induction rules generalizing run with
  | nil => exact .pure
  | cons r rest ih =>
      unfold matchAll
      cases hd with
      | sequence_cons hr ht =>
          apply h.bind .sequence_head hr good
          intro x mid hm
          obtain ⟨rfl, rfl⟩ := hm.of_accepted hr
          exact ih (h.mono fun _ => .sequence_tail hr) hm.good ht
      | sequence_reject hr =>
          apply h.bind .sequence_head hr good
          intro x mid hm
          cases hm.of_rejected hr
          exact .pure

theorem matchFirst_answers {alternatives o}
    (h : Supplies g text acc (.choice alternatives) run.position) (good : run.Good g text)
    (hd : Derives g text (.choice alternatives) run.position o) :
    Answers (matchFirst g text acc run.position alternatives) run := by
  induction alternatives generalizing run with
  | nil => exact .pure
  | cons a rest ih =>
      have hfind : ∀ {r}, g.alternativeTarget a = some r → Ensures (resolve (g.resolveAlternative a)) run
          (fun r' after => r' = r ∧ after.Good g text ∧ after.position = run.position)
          fun _ _ => False := fun ha => resolve_target (ha ▸ Grammar.resolveAlternative_finds a) good
      unfold matchFirst
      cases hd with
      | choice_first ha hr =>
          apply (hfind ha).answers.bind (hfind ha)
          rintro _ found ⟨rfl, hfound, hpos⟩
          rw [← hpos] at h hr
          apply h.bind (.choice_head ha) hr hfound
          intro x mid hm
          obtain ⟨rfl, -⟩ := hm.of_accepted hr
          exact .pure
      | choice_next ha hr ht =>
          apply (hfind ha).answers.bind (hfind ha)
          rintro _ found ⟨rfl, hfound, hpos⟩
          have hr' := hr
          rw [← hpos] at hr'
          refine (hpos.symm ▸ h : Supplies g text acc _ found.position).bind (.choice_head ha) hr' hfound
            fun x mid hm => ?_
          cases hm.of_rejected hr'
          have hrest : Supplies g text acc (.choice rest) (mid.moveTo run.position).position :=
            h.mono fun _ => .choice_tail ha hr
          exact .step (rewind_eq good.inside) (ih hrest (hm.good.moveTo good.inside) ht)

/-- Each round moves on, so there are no more rounds than characters left. -/
theorem matchMany_answers {i : RuleId} {limit : Nat} {o}
    (h : Supplies g text acc (.star i) run.position) (good : run.Good g text)
    (hd : Derives g text (.star i) run.position o) (hlimit : text.length < run.position + limit) :
    Answers (matchMany text (acc i) limit) run := by
  induction limit generalizing run with
  | zero => exact absurd hlimit (Nat.not_lt.mpr good.inside)
  | succ limit ih =>
      apply Answers.step position_eq
      cases hd with
      | star_more hr ht =>
          have hlt := Derives.lt_of_star (.star_more hr ht) hr
          apply h.bind (.operand rfl) hr good
          intro x mid hm
          obtain ⟨rfl, rfl⟩ := hm.of_accepted hr
          exact ih (h.mono fun _ => .star_tail hr) hm.good ht (by omega)
      | star_stop hr =>
          apply h.bind (.operand rfl) hr good
          intro x mid hm
          cases hm.of_rejected hr
          exact ⟨_, _, rewind_eq good.inside⟩

theorem lookahead_answers {b i o} (h : Supplies g text acc b run.position) (good : run.Good g text)
    (hb : b.operand? = some i) (hm : Matches g text i run.position o) :
    Answers (lookahead text (acc i)) run := by
  have hbare : Run.Good g text { run with memo := .empty .none } := ⟨good.inside, good.sound, .empty⟩
  have hans : Answers (unmemoized (acc i)) run := by
    obtain ⟨x, after, hok⟩ := h.answers ⟨i, run.position⟩ o (.operand hb) hm _ hbare rfl
    refine ⟨x, { after with memo := run.memo }, ?_⟩
    unfold unmemoized
    rw [hok]
  refine .step position_eq (hans.bind (unmemoized_ensures (h.recognizes i _ hbare)) ?_)
  rintro x _ ⟨mid, -, rfl⟩
  exact .step (rewind_eq good.inside) .pure

theorem evaluate_answers {b limit o} (h : Supplies g text acc b run.position) (good : run.Good g text)
    (hd : Derives g text b run.position o) (hlimit : text.length < limit) :
    Answers (evaluate g text acc limit b) run := by
  cases b with
  | literal => exact matchChars_answers
  | predicate => exact matchChar_answers
  | sequence rules => exact matchAll_answers h good hd
  | choice alternatives => exact .step position_eq (matchFirst_answers h good hd)
  | star i =>
      have hmany := matchMany_evaluates (h.recognizes i) trivial limit good
      exact (matchMany_answers h good hd (by omega)).bind hmany fun _ _ _ => .pure
  | plus i =>
      cases hd with
      | plus hr ht =>
          apply h.bind (.operand rfl) hr good
          intro x mid hm
          obtain ⟨rfl, rfl⟩ := hm.of_accepted hr
          have hmany := matchMany_evaluates (h.recognizes i) trivial limit hm.good
          exact (matchMany_answers (h.mono fun _ => .plus_tail hr) hm.good ht (by omega)).bind hmany
            fun _ _ _ => .pure
      | plus_reject hr =>
          apply h.bind (.operand rfl) hr good
          intro x mid hm
          cases hm.of_rejected hr
          exact .pure
  | option i =>
      apply Answers.step position_eq
      cases hd with
      | option_some hr =>
          apply h.bind (.operand rfl) hr good
          intro x mid hm
          obtain ⟨rfl, -⟩ := hm.of_accepted hr
          exact .pure
      | option_none hr =>
          apply h.bind (.operand rfl) hr good
          intro x mid hm
          cases hm.of_rejected hr
          exact .step (rewind_eq good.inside) .pure
  | and i =>
      cases hd with
      | and hr | and_reject hr => exact lookahead_answers h good rfl hr
  | not i =>
      have hlook := lookahead_ensures (h.recognizes i) good
      cases hd with
      | not hr | not_reject hr =>
          exact (lookahead_answers h good rfl hr).bind hlook fun _ _ _ => .pure

/-! ## Rules -/

/-- Fuel beyond the depth of the demand and the length of the text is enough. -/
theorem accept_answers {n fuel : Nat} {k : Memo.Key} {o} (hn : Within g text n k)
    (hm : Matches g text k.rule k.start o) (hfuel : n + text.length < fuel) :
    AnswersAt g text (accept g text fuel) k := by
  -- each rule that is asked for has a demand less deep, and one unit of fuel less
  induction n generalizing fuel k o with
  | zero => cases hn
  | succ n ih =>
      obtain ⟨fuel, rfl⟩ : ∃ m, fuel = m + 1 := ⟨fuel - 1, by omega⟩
      obtain ⟨r, p⟩ := k
      intro run good hpos
      subst hpos
      refine .step position_eq (.step consult_eq ?_)
      cases hl : (run.memo.lookup ⟨r, run.position⟩).1 with
      | some o' =>
          cases o' with
          | rejected => exact .pure
          | accepted stop => exact .step (rewind_eq ((good.correct.answer hl).2.end_le good.inside)) .pure
      | none =>
          have hgood : Run.Good g text { run with memo := (run.memo.lookup ⟨r, run.position⟩).2 } :=
            ⟨good.inside, good.sound, good.correct.lookup⟩
          have hsup : Supplies g text (accept g text fuel) (g.body r) run.position :=
            ⟨accept_recognizes_or_halts, fun k' o' hk' hm' => ih (hn k' hk') hm' (by omega)⟩
          have heval := evaluate_evaluates (b := g.body r) (fun r _ => hsup.recognizes r) trivial
            (fun _ _ _ _ => trivial) fuel hgood
          refine Answers.bind (evaluate_answers ?_ hgood hm (by omega)) heval fun x mid _ => ?_
          · exact hsup
          · exact .step position_eq (.step remember_eq (.step report_eq .pure))

end Engine

/-- Enough fuel for the rules of a grammar over a text, if an evaluation ends at all. -/
theorem Matches.answers {r o fuel} (h : Matches g text r run.position o) (good : run.Good g text)
    (hfuel : g.rules.size * (text.length + 1) + 1 + text.length < fuel) :
    Answers (Engine.accept g text fuel r) run :=
  Engine.accept_answers (h.within good.inside) h hfuel run good rfl

theorem Workspace.lt_fuel (w : Workspace V) (n : Nat) :
    w.grammar.rules.size * (n + 1) + 1 + n < w.fuel n := by
  have h : (w.grammar.rules.size + 1) * (n + 2) ≤
      2 * (w.grammar.rules.size + w.grammar.parserSlots.size + 2) * (n + 2) :=
    Nat.mul_le_mul_right _ (by omega)
  have hle : w.grammar.rules.size * (n + 1) ≤ w.grammar.rules.size * (n + 2) :=
    Nat.mul_le_mul_left _ (by omega)
  rw [Nat.add_mul] at h
  unfold fuel
  omega

end Packrat
