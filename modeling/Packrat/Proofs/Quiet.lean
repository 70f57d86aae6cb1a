import Packrat.Proofs.Stepwise

/-!
# Recognition performs nothing

No function on values is applied while rules are recognized, whether they match or not
(`accept_quiet`). Only construction adds to the actions of a run.
-/

namespace Packrat

variable {V α β : Type} {g : Grammar V} {text : Buffer}

/-- Whatever the act answers, it has applied no function to values. -/
def Quiet (act : Engine V α) : Prop :=
  ∀ run : Run V, Ensures act run (fun _ after => after.actions = run.actions) fun _ _ => True

namespace Quiet

protected theorem bind {act : Engine V α} {f : α → Engine V β} (h : Quiet act)
    (hf : ∀ a, Quiet (f a)) : Quiet (act >>= f) := by
  intro run
  apply (h run).bind
  intro a mid hmid
  exact (hf a mid).imp_left fun _ _ hafter => hafter.trans hmid

protected theorem unmemoized {act : Engine V α} (h : Quiet act) : Quiet (Engine.unmemoized act) := by
  intro run
  have hact := h { run with memo := .empty .none }
  unfold Ensures at hact ⊢
  unfold Engine.unmemoized
  cases hr : act { run with memo := .empty .none } with
  | ok a after =>
      simp only [hr] at hact ⊢
      exact hact
  | error halt after => trivial

end Quiet

namespace Engine

theorem advance_quiet : Quiet (advance text : Engine V (Option Char)) := by
  intro run
  cases hc : text.char? run.position with
  | none => exact .done (advance_eq_none hc) rfl
  | some c => exact .done (advance_eq_some hc) rfl

theorem rewind_quiet {p : Nat} : Quiet (rewind text p : Engine V Unit) := by
  intro run
  by_cases hp : p ≤ text.length
  · exact .done (rewind_eq hp) rfl
  · simp only [rewind, hp, if_false]
    exact .throw trivial

theorem resolve_quiet {lookup : Resolution V α} : Quiet (resolve lookup) := by
  intro run
  unfold Ensures resolve
  cases lookup run.bindings with
  | ok a bindings => exact rfl
  | error halt bindings => trivial

theorem recognizing_quiet :
    Recognizing g text (fun _ _ => True) fun _ _ (act : Engine V _) _ => Quiet act where
  pure _ _ := .pure rfl
  throw _ _ := .throw trivial
  bind h hf := h.bind hf
  mark h := .bind (fun _ => .done position_eq rfl) fun p => h p trivial
  advance := advance_quiet
  rewind _ := rewind_quiet
  enter h := .bind (fun _ => .done position_eq rfl) fun start => h start trivial
  consult h := .bind (fun _ => .done consult_eq rfl) fun answer => h answer fun _ _ => trivial
  remember _ _ := .done remember_eq rfl
  report _ := .done report_eq rfl
  unmemoized h := h.unmemoized
  alternative _ := resolve_quiet

theorem accept_quiet {fuel : Nat} {r : RuleId} : Quiet (accept g text fuel r) :=
  recognizing_quiet.accept 0 fuel r

end Engine

end Packrat
