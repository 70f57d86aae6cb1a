import Packrat.Proofs.Transparency

/-!
# Comparing two recognitions

Two recognitions concur if both finish or neither does, and if both finish, both accept or both reject, and
what they accept ends at corresponding positions. They may be of different rules and in different texts; it
is enough that derivations of one correspond to derivations of the other (`Concur.of_matches`).
-/

namespace Packrat

open Engine

variable {V : Type}

namespace Outcome

/-- Both reject, or both accept and end at corresponding positions. -/
inductive Corresponds (same : Nat → Nat → Prop) : Outcome → Outcome → Prop
  | rejected : Corresponds same .rejected .rejected
  | accepted {e e'} (h : same e e') : Corresponds same (.accepted e) (.accepted e')

theorem Corresponds.of_eq {o : Outcome} : Corresponds Eq o o := by
  cases o with
  | rejected => exact .rejected
  | accepted => exact .accepted rfl

theorem Corresponds.answers {same : Nat → Nat → Prop} {x x' : Bool} {e e' : Nat}
    (h : Corresponds same (.ofAnswer x e) (.ofAnswer x' e')) : x = x' ∧ (x = true → same e e') := by
  cases x <;> cases x' <;> cases h
  case false.false => exact ⟨rfl, nofun⟩
  case true.true h => exact ⟨rfl, fun _ => h⟩

end Outcome

/-- Both acts finish, each with some fuel, or neither does. If both finish, they give the same answer, and
where it is `true` they end at corresponding positions. -/
structure Concur (act act' : Nat → Engine V Bool) (run run' : Run V) (same : Nat → Nat → Prop) : Prop where
  finishes : (∃ fuel, Settled (act fuel run)) ↔ ∃ fuel, Settled (act' fuel run')
  answers : ∀ fuel fuel', Settled (act fuel run) → Settled (act' fuel' run') →
    ∃ x after after', act fuel run = .ok x after ∧ act' fuel' run' = .ok x after' ∧
      (x = true → same after.position after'.position)

theorem Concur.mono {act act' : Nat → Engine V Bool} {run run' : Run V} {same same' : Nat → Nat → Prop}
    (h : Concur act act' run run' same) (hsame : ∀ e e', same e e' → same' e e') :
    Concur act act' run run' same' where
  finishes := h.finishes
  answers fuel fuel' hs hs' := by
    obtain ⟨x, after, after', hok, hok', he⟩ := h.answers fuel fuel' hs hs'
    exact ⟨x, after, after', hok, hok', fun hx => hsame _ _ (he hx)⟩

variable {g : Grammar V} {text text' : Buffer} {run run' : Run V} {r r' : RuleId}
  {same : Nat → Nat → Prop}

theorem Concur.of_matches (complete : g.Complete r) (complete' : g.Complete r') (good : run.Good g text)
    (good' : run'.Good g text')
    (h : ∀ o, Matches g text r run.position o →
      ∃ o', o.Corresponds same o' ∧ Matches g text' r' run'.position o')
    (h' : ∀ o', Matches g text' r' run'.position o' → ∃ o, Matches g text r run.position o) :
    Concur (fun fuel => accept g text fuel r) (fun fuel => accept g text' fuel r') run run' same where
  finishes := by
    simp only [settled_iff_answers complete good, settled_iff_answers complete' good']
    rw [exists_answers_iff good, exists_answers_iff good']
    constructor
    · rintro ⟨o, hm⟩
      obtain ⟨o', -, hm'⟩ := h o hm
      exact ⟨o', hm'⟩
    · rintro ⟨o', hm'⟩
      exact h' o' hm'
  answers fuel fuel' hs hs' := by
    obtain ⟨x, after, hok⟩ := (settled_iff_answers complete good).mp hs
    obtain ⟨x', after', hok'⟩ := (settled_iff_answers complete' good').mp hs'
    have hm := ((accept_recognizes fuel r run good).of_ok hok).outcome
    have hm' := ((accept_recognizes fuel' r' run' good').of_ok hok').outcome
    obtain ⟨o, ho, hmo⟩ := h _ hm
    -- there is only one outcome on the other side, so it is the corresponding one
    cases hmo.unique hm'
    obtain ⟨rfl, hsame⟩ := ho.answers
    exact ⟨x, after, after', hok, hok', hsame⟩

end Packrat
