import Packrat.Proofs.Stepwise

/-!
# What parsing keeps

A parser may be paired with a rule that does not fit it, and then its construction may fail anywhere.
Even so a parse that returns, with a value or with an error, leaves a good run whose table has grown.
-/

namespace Packrat

variable {V α β : Type} {g : Grammar V} {text : Buffer} {run mid after : Run V}

/-- The run `after` is good, and its table has grown out of the table of `run`. -/
structure Run.Leads (g : Grammar V) (text : Buffer) (run after : Run V) : Prop where
  good : after.Good g text
  grows : run.memo.Grows (fun _ => True) after.memo

namespace Run.Leads

protected theorem refl (good : run.Good g text) : run.Leads g text run := ⟨good, .refl⟩

protected theorem trans (h : run.Leads g text mid) (h' : mid.Leads g text after) :
    run.Leads g text after := ⟨h'.good, h.grows.trans h'.grows⟩

theorem moveTo {p : Nat} (good : run.Good g text) (hp : p ≤ text.length) :
    run.Leads g text (run.moveTo p) := ⟨good.moveTo hp, .refl⟩

end Run.Leads

theorem Recognized.leads {r x} (h : Recognized g text r run x after) : run.Leads g text after :=
  ⟨h.good, h.grows.mono fun _ _ => trivial⟩

/-- From a good run, whatever the act returns, it has only let the table grow. Faults and lack of fuel
return nothing. -/
def Keeps (g : Grammar V) (text : Buffer) (act : Engine V α) : Prop :=
  ∀ run : Run V, run.Good g text → Ensures act run (fun _ after => run.Leads g text after)
    fun halt after => ∀ e, halt = .failed e → run.Leads g text after

namespace Keeps

protected theorem pure {a : α} : Keeps g text (pure a) := fun _ good => .pure (.refl good)

protected theorem throw {halt : Halt} : Keeps g text (throw halt : Engine V α) :=
  fun _ good => .throw fun _ _ => .refl good

protected theorem bind {act : Engine V α} {f : α → Engine V β} (h : Keeps g text act)
    (hf : ∀ a, Keeps g text (f a)) : Keeps g text (act >>= f) := by
  intro run good
  apply (h run good).bind
  intro a mid hmid
  exact (hf a mid hmid.good).imp (fun _ _ => hmid.trans) fun _ _ ha e he => hmid.trans (ha e he)

protected theorem attempt {act : Engine V α} (h : Keeps g text act) : Keeps g text (Engine.attempt act) := by
  intro run good
  have hact := h run good
  unfold Ensures at hact ⊢
  unfold Engine.attempt
  cases hr : act run with
  | ok a after =>
      simp only [hr] at hact ⊢
      exact hact
  | error halt after =>
      simp only [hr] at hact
      cases halt with
      | failed e =>
          cases e with
          | rejected => exact hact _ rfl
          | _ => exact hact
      | _ => exact hact

end Keeps

namespace Engine

theorem rewind_keeps {p : Nat} : Keeps g text (rewind text p) := by
  intro run good
  by_cases hp : p ≤ text.length
  · exact .done (rewind_eq hp) (.moveTo good hp)
  · simp only [rewind, hp, if_false]
    exact .throw fun _ _ => .refl good

theorem jump_keeps {p : Nat} : Keeps g text (jump text p) := by
  intro run good
  by_cases hp : p ≤ text.length
  · exact .done (jump_eq hp) (.moveTo good hp)
  · simp only [jump, hp, if_false]
    exact .throw fun _ _ => .refl good

theorem advance_keeps : Keeps g text (advance text) := by
  intro run good
  cases hc : text.char? run.position with
  | none => exact .done (advance_eq_none hc) (.refl good)
  | some c =>
      obtain ⟨hp, -⟩ := Buffer.char?_eq_some_iff.mp hc
      exact .done (advance_eq_some hc) (.moveTo good hp)

theorem resolve_keeps {lookup : Resolution V α} {target : Option α} (h : Resolution.Finds g lookup target) :
    Keeps g text (resolve lookup) := by
  intro run good
  refine (resolve_ensures h good).imp ?_ ?_
  · rintro a after ⟨-, hgood, -, hmemo⟩
    exact ⟨hgood, hmemo ▸ .refl⟩
  · rintro halt after ⟨⟨name, rfl⟩, -⟩ e he
    cases he

theorem accept_keeps {fuel : Nat} {r : RuleId} : Keeps g text (accept g text fuel r) := by
  intro run good
  apply (accept_recognizes fuel r run good).imp (fun _ _ h => h.leads)
  exact fun halt _ h e he => absurd he (h.ne_failed e)

theorem constructing_keeps :
    Constructing g text (fun _ _ => True) (fun _ _ (act : Engine V _) _ => Keeps g text act)
      (accept g text) (accept g text) where
  pure _ := .pure
  throw _ := .throw
  bind h hf := h.bind hf
  mark h := .bind (fun _ good => .done position_eq (.refl good)) fun p => h p trivial
  advance := advance_keeps
  rewind _ := rewind_keeps
  jump _ := jump_keeps
  perform _ _ good := .done perform_eq ⟨⟨good.inside, good.sound, good.correct⟩, .refl⟩
  attempt h := h.attempt
  slot k := resolve_keeps (Grammar.resolveParser_finds k)
  accept _ _ := accept_keeps

theorem parseAt_keeps {fuel : Nat} {p : Parser V} : Keeps g text (parseAt g text fuel p) :=
  constructing_keeps.parseAt 0 fuel p

end Engine

end Packrat
