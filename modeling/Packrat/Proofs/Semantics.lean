import Packrat.Proofs.Completeness
import Packrat.Sample.Lambda

/-!
# Recognition is derivation

Without memory, `accept` answers exactly what the inference rules derive, from any position of any
text, and so does recognition of an input from its start.
-/

namespace Packrat

open Engine

variable {V : Type} {g : Grammar V} {text : Buffer}

/-- Recognition without memory at the key ends in the outcome. -/
def Unmemoized (g : Grammar V) (text : Buffer) (b : Bindings V) (k : Memo.Key) (o : Outcome) : Prop :=
  ∃ fuel x after, accept g text fuel k.rule (.begin k.start (.empty .none) b) = .ok x after ∧
    .ofAnswer x after.position = o

theorem Run.Good.begin {p : Nat} {b : Bindings V} {s : Strategy} (hp : p ≤ text.length)
    (hb : b.Sound g) : (Run.begin p (.empty s) b).Good g text := ⟨hp, hb, .empty⟩

theorem Run.Good.fresh {b : Bindings V} {config : Config} (hb : b.Sound g) :
    (Session.fresh config b).Good g text := .begin (Nat.zero_le _) hb

theorem unmemoized_iff_matches {b : Bindings V} {k o} (hb : b.Sound g) (hp : k.start ≤ text.length) :
    Unmemoized g text b k o ↔ Matches g text k.rule k.start o := by
  have good : (Run.begin k.start (.empty .none) b).Good g text := .begin hp hb
  constructor
  · rintro ⟨fuel, x, after, hok, rfl⟩
    exact ((accept_recognizes fuel k.rule _ good).of_ok hok).outcome
  · intro hm
    obtain ⟨x, after, hok⟩ := Matches.answers hm good (Nat.lt_succ_self _)
    have hx := ((accept_recognizes _ k.rule _ good).of_ok hok).outcome
    exact ⟨_, x, after, hok, hx.unique hm⟩

theorem Unmemoized.of_ensures {b : Bindings V} {k o} (fuel : Nat)
    (h : Ensures (accept g text fuel k.rule) (.begin k.start (.empty .none) b)
      (fun x after => Outcome.ofAnswer x after.position = o) fun _ _ => False) :
    Unmemoized g text b k o := by
  obtain ⟨x, after, hok, ho⟩ := h.exists_ok
  exact ⟨fuel, x, after, hok, ho⟩

/-! ## Sessions -/

namespace Session

variable {α : Type} {w : Workspace V}

theorem run_of_ok {act : Grammar V → Engine V α} {start : Bindings V → Run V} {a : α} {after : Run V}
    (h : act w.grammar (start w.bindings) = .ok a after) :
    Session.run act start w = .ok a (w.after after) := by
  have hobserve : observe act start w = .ok (.ok a, after) (w.after after) := by simp only [observe, h]
  exact bind_of_ok hobserve

theorem run_of_error {act : Grammar V → Engine V α} {start : Bindings V → Run V} {halt : Halt}
    {after : Run V} (h : act w.grammar (start w.bindings) = .error halt after) :
    Session.run act start w = .error halt (w.after after) := by
  have hobserve : observe act start w = .ok (.error halt, after) (w.after after) := by
    simp only [observe, h]
  exact bind_of_ok hobserve

theorem run_eq_ok_iff {act : Grammar V → Engine V α} {start : Bindings V → Run V} {a : α} :
    (∃ w', Session.run act start w = .ok a w') ↔
      ∃ after, act w.grammar (start w.bindings) = .ok a after := by
  cases hr : act w.grammar (start w.bindings) with
  | ok a' run => simp [run_of_ok hr]
  | error halt run => simp [run_of_error hr]

end Session

namespace Engine

theorem recognize_eq_some_iff {fuel r e} {run after : Run V} :
    recognize g text fuel r run = .ok (some e) after ↔
      accept g text fuel r run = .ok true after ∧ after.position = e := by
  unfold recognize
  cases hr : accept g text fuel r run with
  | ok x mid =>
      rw [bind_of_ok hr]
      cases x with
      | true =>
          change (EStateM.Result.ok (some mid.position) mid = .ok (some e) after) ↔ _
          simp only [EStateM.Result.ok.injEq, Option.some.injEq, true_and]
          exact ⟨fun ⟨h, hm⟩ => ⟨hm, hm ▸ h⟩, fun ⟨hm, h⟩ => ⟨hm ▸ h, hm⟩⟩
      | false =>
          change (EStateM.Result.ok none mid = .ok (some e) after) ↔ _
          simp
  | error halt mid =>
      rw [bind_of_error hr]
      simp

theorem recognize_eq_none_iff {fuel r} {run after : Run V} :
    recognize g text fuel r run = .ok none after ↔ accept g text fuel r run = .ok false after := by
  unfold recognize
  cases hr : accept g text fuel r run with
  | ok x mid =>
      rw [bind_of_ok hr]
      cases x with
      | true =>
          change (EStateM.Result.ok (some mid.position) mid = .ok none after) ↔ _
          simp
      | false =>
          change (EStateM.Result.ok none mid = .ok none after) ↔ _
          simp
  | error halt mid =>
      rw [bind_of_error hr]
      simp

end Engine

/-- A session finds what can be derived from the start of the input. -/
theorem Session.recognize_unmemoized {w : Workspace V} {r input o} (hw : w.bindings.Sound w.grammar) :
    (∃ after, Session.recognize r input .unmemoized w = .ok o after) ↔
      Matches w.grammar (.load 0 input) r 0 (o.elim .rejected .accepted) := by
  let text := Buffer.load 0 input
  have good : (Run.begin 0 (.empty .none) w.bindings).Good w.grammar text := .begin (Nat.zero_le _) hw
  have hrec := accept_recognizes (w.fuel text.length) r _ good
  change (∃ after, Session.run (fun g => Engine.recognize g text (w.fuel text.length) r)
    (Session.fresh .unmemoized) w = .ok o after) ↔ _
  rw [Session.run_eq_ok_iff]
  constructor
  · rintro ⟨after, h⟩
    cases o with
    | some e =>
        obtain ⟨hok, rfl⟩ := Engine.recognize_eq_some_iff.mp h
        exact (hrec.of_ok hok).outcome
    | none => exact (hrec.of_ok (Engine.recognize_eq_none_iff.mp h)).outcome
  · intro hm
    obtain ⟨x, after, hok⟩ := hm.answers good (w.lt_fuel text.length)
    have hx := hrec.of_ok hok
    cases o with
    | some e =>
        obtain ⟨rfl, he⟩ := hx.of_accepted hm
        exact ⟨after, Engine.recognize_eq_some_iff.mpr ⟨hok, he⟩⟩
    | none =>
        cases hx.of_rejected hm
        exact ⟨after, Engine.recognize_eq_none_iff.mpr hok⟩

/-- Recognition without memory answers what the inference rules derive: `true` with the position at `e`
where they derive a match that ends at `e`, and `false` where they derive a failure. -/
theorem accept_iff_derives {w : Workspace V} (hw : w.bindings.Sound w.grammar) (r : RuleId) :
    (∀ text p, p ≤ text.length →
      (∀ e, (∃ fuel after, accept w.grammar text fuel r (.begin p (.empty .none) w.bindings) =
          .ok true after ∧ after.position = e) ↔ Derives w.grammar text (w.grammar.body r) p (.accepted e)) ∧
      ((∃ fuel after, accept w.grammar text fuel r (.begin p (.empty .none) w.bindings) =
          .ok false after) ↔ Derives w.grammar text (w.grammar.body r) p .rejected)) ∧
    ∀ input,
      (∀ e, (∃ after, Session.recognize r input .unmemoized w = .ok (some e) after) ↔
        Derives w.grammar (.load 0 input) (w.grammar.body r) 0 (.accepted e)) ∧
      ((∃ after, Session.recognize r input .unmemoized w = .ok none after) ↔
        Derives w.grammar (.load 0 input) (w.grammar.body r) 0 .rejected) := by
  refine ⟨fun text p hp => ⟨fun e => ?_, ?_⟩, fun input => ⟨fun e => ?_, ?_⟩⟩
  · rw [← Matches, ← unmemoized_iff_matches (k := ⟨r, p⟩) hw hp]
    constructor
    · rintro ⟨fuel, after, hok, he⟩
      exact ⟨fuel, true, after, hok, Outcome.ofAnswer_eq_accepted_iff.mpr ⟨rfl, he⟩⟩
    · rintro ⟨fuel, x, after, hok, hx⟩
      obtain ⟨rfl, he⟩ := Outcome.ofAnswer_eq_accepted_iff.mp hx
      exact ⟨fuel, after, hok, he⟩
  · rw [← Matches, ← unmemoized_iff_matches (k := ⟨r, p⟩) hw hp]
    constructor
    · rintro ⟨fuel, after, hok⟩
      exact ⟨fuel, false, after, hok, rfl⟩
    · rintro ⟨fuel, x, after, hok, hx⟩
      cases Outcome.ofAnswer_eq_rejected_iff.mp hx
      exact ⟨fuel, after, hok⟩
  · exact Session.recognize_unmemoized hw
  · exact Session.recognize_unmemoized hw

/-- An application of an abstraction matches as a whole. -/
theorem accept_iff_derives_application :
    Derives Lambda.workspace.grammar (.load 0 "(λx.x)y") (Lambda.workspace.grammar.body Lambda.root.rule) 0
      (.accepted 7) ∧
    ∃ after, Session.recognize Lambda.root.rule "(λx.x)y" .unmemoized Lambda.workspace =
      .ok (some 7) after := by
  have sound : Lambda.workspace.bindings.Sound Lambda.workspace.grammar := Bindings.Sound.empty
  obtain ⟨hengine, hsession⟩ := accept_iff_derives sound Lambda.root.rule
  have hrun : Ensures (accept Lambda.workspace.grammar (.load 0 "(λx.x)y") 40 Lambda.root.rule)
      (.begin 0 (.empty .none) Lambda.workspace.bindings)
      (fun x after => x = true ∧ after.position = 7) fun _ _ => False := by decide +kernel
  obtain ⟨x, after, hok, rfl, hpos⟩ := hrun.exists_ok
  have hd := ((hengine (.load 0 "(λx.x)y") 0 (Nat.zero_le _)).1 7).mp ⟨40, after, hok, hpos⟩
  exact ⟨hd, ((hsession "(λx.x)y").1 7).mpr hd⟩

end Packrat
