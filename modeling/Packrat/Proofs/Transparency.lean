import Packrat.Engine.Fuel
import Packrat.Proofs.Semantics

/-!
# Memory is transparent

A table whose entries tell how recognition without memory ends changes no answer of recognition, and it
stays such a table.
-/

namespace Packrat

open Engine

variable {V : Type} {g : Grammar V} {text : Buffer} {run : Run V} {r : RuleId}

/-- Every entry lies in the text and tells how recognition without memory ends. -/
def Memo.Confirmed (g : Grammar V) (text : Buffer) (b : Bindings V) (m : Memo) : Prop :=
  m.Every fun k o => k.start ≤ text.length ∧ Unmemoized g text b k o

theorem Memo.confirmed_iff_correct {b : Bindings V} {m : Memo} (hb : b.Sound g) :
    m.Confirmed g text b ↔ m.Correct g text :=
  ⟨fun h => h.imp fun _ _ ⟨hp, hu⟩ => ⟨hp, (unmemoized_iff_matches hb hp).mp hu⟩,
    fun h => h.imp fun _ _ ⟨hp, hm⟩ => ⟨hp, (unmemoized_iff_matches hb hp).mpr hm⟩⟩

/-! ## When recognition finishes -/

theorem Engine.Settled.of_ok {α : Type} {act : Engine V α} {a after} (h : act run = .ok a after) :
    Settled (act run) := by
  intro s he
  rw [h] at he
  cases he

theorem Engine.Settled.of_error {α : Type} {act : Engine V α} {halt after}
    (h : act run = .error halt after) (hne : halt ≠ .exhausted) : Settled (act run) := by
  intro s he
  rw [h] at he
  cases he
  exact hne rfl

/-- Where every forward declaration below the rule is defined, recognition can only finish with an
answer. -/
theorem Engine.settled_iff_answers {fuel : Nat} (complete : g.Complete r) (good : run.Good g text) :
    Settled (accept g text fuel r run) ↔ Answers (accept g text fuel r) run := by
  have hrec := accept_recognizes fuel r run good
  constructor
  · intro h
    cases hr : accept g text fuel r run with
    | ok x after => exact ⟨x, after, hr⟩
    | error halt after =>
        rcases hrec.of_error hr with rfl | ⟨-, hn⟩
        · exact absurd hr (h after)
        · exact absurd complete hn
  · rintro ⟨x, after, hok⟩
    exact .of_ok hok

theorem Engine.exists_answers_iff (good : run.Good g text) :
    (∃ fuel, Answers (accept g text fuel r) run) ↔ ∃ o, Matches g text r run.position o := by
  constructor
  · rintro ⟨fuel, x, after, hok⟩
    exact ⟨_, ((accept_recognizes fuel r run good).of_ok hok).outcome⟩
  · rintro ⟨o, hm⟩
    exact ⟨_, hm.answers good (Nat.lt_succ_self _)⟩

/-- With a confirmed table, recognition finishes if and only if it does without memory. Both give the
same answer and after a match the same position, and the table is confirmed again. -/
theorem accept_transparent (complete : g.Complete r) (inside : run.position ≤ text.length)
    (sound : run.bindings.Sound g) (full : run.memo.strategy = .full)
    (confirmed : run.memo.Confirmed g text run.bindings) :
    let plain := { run with memo := .empty .none }
    ((∃ fuel, Settled (accept g text fuel r run)) ↔ ∃ fuel, Settled (accept g text fuel r plain)) ∧
    ∀ fuel fuel', Settled (accept g text fuel r run) → Settled (accept g text fuel' r plain) →
      ∃ x after after', accept g text fuel r run = .ok x after ∧
        accept g text fuel' r plain = .ok x after' ∧
        (x = true → after.position = after'.position) ∧
        after.memo.strategy = .full ∧ after.memo.Confirmed g text after.bindings := by
  intro plain
  have good : run.Good g text := ⟨inside, sound, (Memo.confirmed_iff_correct sound).mp confirmed⟩
  have bare : plain.Good g text := ⟨inside, sound, .empty⟩
  simp only [settled_iff_answers complete good, settled_iff_answers complete bare]
  refine ⟨(exists_answers_iff good).trans (exists_answers_iff bare).symm, ?_⟩
  rintro fuel fuel' ⟨x, after, hok⟩ ⟨x', after', hok'⟩
  have h := (accept_recognizes fuel r run good).of_ok hok
  have h' := (accept_recognizes fuel' r plain bare).of_ok hok'
  have hx : Outcome.ofAnswer x after.position = .ofAnswer x' after'.position := h.outcome.unique h'.outcome
  have hconfirmed := (Memo.confirmed_iff_correct h.good.sound).mpr h.good.correct
  have hfull : after.memo.strategy = .full := h.grows.strategy.trans full
  cases x' with
  | true =>
      obtain ⟨rfl, hpos⟩ := Outcome.ofAnswer_eq_accepted_iff.mp hx
      exact ⟨true, after, after', hok, hok', fun _ => hpos, hfull, hconfirmed⟩
  | false =>
      -- a rejection found in the table has not moved, so the positions may differ
      cases Outcome.ofAnswer_eq_rejected_iff.mp hx
      exact ⟨false, after, after', hok, hok', nofun, hfull, hconfirmed⟩

/-- A table that already knows the term in the parentheses. -/
theorem accept_transparent_parentheses :
    let g := Lambda.workspace.grammar
    let text := Buffer.load 0 "(λx.x)y"
    let known := (Memo.empty .full).record ⟨Lambda.root.rule, 1⟩ (.accepted 5)
    (∃ fuel, Settled (accept g text fuel Lambda.root.rule (.begin 0 known .empty))) ∧
    ∃ after after', accept g text 40 Lambda.root.rule (.begin 0 known .empty) = .ok true after ∧
      accept g text 40 Lambda.root.rule (.begin 0 (.empty .none) .empty) = .ok true after' ∧
      after.position = after'.position ∧ after.memo.Confirmed g text after.bindings := by
  intro g text known
  have confirmed : known.Confirmed g text .empty := by
    refine Memo.Every.empty.record ⟨by decide +kernel, ?_⟩
    exact .of_ensures 40 (by decide +kernel)
  have complete : g.Complete Lambda.root.rule := Grammar.complete_of_targets (by decide +kernel) _
  have answers : ∀ m ∈ [known, .empty .none], Ensures (accept g text 40 Lambda.root.rule)
      (.begin 0 m .empty) (fun x _ => x = true) fun _ _ => False := by decide +kernel
  obtain ⟨_, after, hok, rfl⟩ := (answers known (by simp)).exists_ok
  obtain ⟨_, after', hok', rfl⟩ := (answers (.empty .none) (by simp)).exists_ok
  have inside : (Run.begin 0 known (.empty : Bindings Lambda.Piece)).position ≤ text.length :=
    Nat.zero_le _
  obtain ⟨hiff, hsame⟩ := accept_transparent complete inside .empty rfl confirmed
  obtain ⟨x, mid, mid', h, h', hpos, -, hconfirmed⟩ := hsame 40 40 (.of_ok hok) (.of_ok hok')
  cases hok.symm.trans h
  cases hok'.symm.trans h'
  exact ⟨hiff.mpr ⟨40, .of_ok hok'⟩, after, after', hok, hok', hpos rfl, hconfirmed⟩

end Packrat
