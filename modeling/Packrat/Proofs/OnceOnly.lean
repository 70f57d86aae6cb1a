import Packrat.Proofs.Keeping
import Packrat.Sample.Lambda

/-!
# Nothing is evaluated twice

Over one text with one table, whatever rules are accepted and parsers parsed, from whatever positions
and in whatever order: no rule is evaluated twice at a position, and every look-up is either a hit or
has left an entry.
-/

namespace Packrat

open Engine

variable {V : Type} {g : Grammar V} {text : Buffer} {run after : Run V}

namespace Run

/-- What calls that returned, one after another, have made of a run that began with an empty table. Each
call may be of any rule or parser and from any position of the text. -/
inductive Finished (g : Grammar V) (text : Buffer) : Run V → Prop
  | fresh {run : Run V} (hp : run.position ≤ text.length) (hb : run.bindings.Sound g)
      (hm : run.memo = .empty .full ∨ run.memo = .journaling .full) : Finished g text run
  | moved {run : Run V} {p : Nat} (h : Finished g text run) (hp : p ≤ text.length) :
      Finished g text (run.moveTo p)
  | accepted {run after : Run V} {fuel r x} (h : Finished g text run)
      (hok : accept g text fuel r run = .ok x after) : Finished g text after
  | parsed {run after : Run V} {fuel p v} (h : Finished g text run)
      (hok : parseAt g text fuel p run = .ok v after) : Finished g text after
  | failed {run after : Run V} {fuel p e} (h : Finished g text run)
      (herr : parseAt g text fuel p run = .error (.failed e) after) : Finished g text after

/-- The run is good, and the books of its table are in order with nothing pending. -/
structure Orderly (g : Grammar V) (text : Buffer) (run : Run V) : Prop where
  good : run.Good g text
  full : run.memo.strategy = .full
  balanced : run.memo.Balanced []

theorem Orderly.leads (h : run.Orderly g text) (hl : run.Leads g text after) : after.Orderly g text :=
  ⟨hl.good, hl.grows.strategy.trans h.full, hl.grows.balanced h.full [] h.balanced⟩

theorem Finished.orderly (h : run.Finished g text) : run.Orderly g text := by
  induction h with
  | fresh hp hb hm =>
      rcases hm with hm | hm
      · exact ⟨⟨hp, hb, hm ▸ .empty⟩, by rw [hm]; rfl, hm ▸ .empty⟩
      · exact ⟨⟨hp, hb, hm ▸ .journaling⟩, by rw [hm]; rfl, hm ▸ .journaling⟩
  | moved _ hp ih => exact ih.leads (.moveTo ih.good hp)
  | accepted _ hok ih => exact ih.leads ((accept_keeps _ ih.good).of_ok hok)
  | parsed _ hok ih => exact ih.leads ((parseAt_keeps _ ih.good).of_ok hok)
  | failed _ herr ih => exact ih.leads ((parseAt_keeps _ ih.good).of_error herr _ rfl)

end Run

/-- No key is looked up in vain twice or recorded twice, the recorded keys are those of the entries, and
the look-ups that were no hits are as many as the entries. -/
theorem evaluated_once (h : run.Finished g text) :
    (∀ calls, run.memo.journal = some calls →
      (Memo.missed calls).Nodup ∧ (Memo.recorded calls).Nodup ∧
      (Memo.missed calls).Perm (Memo.recorded calls) ∧
      ∀ k, k ∈ Memo.recorded calls ↔ (run.memo.get? k).isSome) ∧
    run.memo.stats.entries = run.memo.size ∧
    run.memo.stats.lookups = run.memo.stats.hits + run.memo.stats.entries ∧
    run.memo.stats.entries = run.memo.stats.lookups - run.memo.stats.hits := by
  have hb := h.orderly.balanced
  have hlookups : run.memo.stats.lookups = run.memo.stats.hits + run.memo.stats.entries := hb.lookups
  refine ⟨fun calls hc => ?_, hb.entries, hlookups, by omega⟩
  have hj := hb.journal calls hc
  have hperm : (Memo.missed calls).Perm (Memo.recorded calls) := hj.missed
  exact ⟨hperm.nodup_iff.mpr hj.once, hj.once, hperm, hj.stored⟩

/-- Recognition, a parse of what was recognized, and a parse that is rejected at the end of the text. -/
theorem evaluated_once_application :
    let g := Lambda.workspace.grammar
    let text := Buffer.load 0 "(λx.x)y"
    ∃ run : Run Lambda.Piece, run.Finished g text ∧
      (∃ calls, run.memo.journal = some calls ∧ (Memo.missed calls).Nodup ∧ (Memo.recorded calls).Nodup) ∧
      run.memo.stats.entries = 44 ∧ run.memo.stats.entries = run.memo.stats.lookups - run.memo.stats.hits := by
  intro g text
  have hruns : Ensures (accept g text 40 Lambda.root.rule) (.begin 0 (.journaling .full) .empty)
      (fun _ recognized => Ensures (parseAt g text 40 Lambda.root) (recognized.moveTo 0)
        (fun _ parsed => Ensures (parseAt g text 40 Lambda.root) parsed (fun _ _ => False)
          fun halt rejected => halt = .failed .rejected ∧ rejected.memo.journal.isSome ∧
            rejected.memo.stats.entries = 44)
        fun _ _ => False)
      fun _ _ => False := by decide +kernel
  obtain ⟨_, recognized, hrecognized, hruns⟩ := hruns.exists_ok
  obtain ⟨_, parsed, hparsed, hruns⟩ := hruns.exists_ok
  obtain ⟨_, rejected, hrejected, rfl, hjournal, hentries⟩ := hruns.exists_error
  obtain ⟨calls, hcalls⟩ := Option.isSome_iff_exists.mp hjournal
  have fresh : (Run.begin 0 (.journaling .full) .empty).Finished g text :=
    .fresh (Nat.zero_le _) .empty (.inr rfl)
  have finished : rejected.Finished g text :=
    (((fresh.accepted hrecognized).moved (Nat.zero_le _)).parsed hparsed).failed hrejected
  obtain ⟨hcallsOnce, -, -, hstats⟩ := evaluated_once finished
  obtain ⟨hmissed, hrecorded, -⟩ := hcallsOnce calls hcalls
  exact ⟨rejected, finished, ⟨calls, hcalls, hmissed, hrecorded⟩, hentries, hstats⟩

end Packrat
