import Packrat.Proofs.Alignment
import Packrat.Proofs.Reference

/-!
# Rules agree with one-pass parsing

The rule of an aligned parser has the outcome of what the parser yields: recognition by the rule and one
pass over the parser decide alike at every position.
-/

namespace Packrat

variable {V : Type} {g : Grammar V} {text : Buffer}

namespace Yield

theorem outcome_eq_accepted_iff {y : Yield V} {e : Nat} :
    y.outcome = .accepted e ↔ ∃ v, y = some (v, e) := by
  cases y with
  | none => simp [outcome]
  | some x =>
      obtain ⟨v, stop⟩ := x
      simp [outcome]

theorem outcome_eq_rejected_iff {y : Yield V} : y.outcome = .rejected ↔ y = none := by
  cases y <;> simp [outcome]

end Yield

/-- What a parser yields is derived for every body that it fits. -/
theorem Yields.derives {p s y} (hg : g.Aligned) (h : Yields g text p s y) :
    ∀ {b}, p.Fits g b → Derives g text b s (Yield.outcome y) := by
  induction h with
  | silent h | silent_reject h =>
      intro b hf
      cases hf
      exact h
  | character hb hc ht =>
      intro b hf
      cases hf with
      | character hb' =>
          cases hb.symm.trans hb'
          exact .predicate hc ht
  | character_reject hb hn =>
      intro b hf
      cases hf with
      | character hb' =>
          cases hb.symm.trans hb'
          exact .predicate_reject hn
  | characters hb hi hcs hne =>
      intro b hf
      cases hf with
      | characters hb' _ =>
          cases hb.symm.trans hb'
          obtain ⟨c, cs, rfl⟩ := List.exists_cons_of_ne_nil hne
          exact .plus_predicate hi hcs
  | characters_reject hb hi hcs =>
      intro b hf
      cases hf with
      | characters hb' _ =>
          cases hb.symm.trans hb'
          exact .plus_reject (.predicate_of_nil hi hcs)
  | pair _ _ iha ihb =>
      intro b hf
      cases hf with
      | pair ha hb => exact (Derives.parts_iff.mpr (iha ha)).append (Derives.parts_iff.mpr (ihb hb))
  | pair_first _ iha =>
      intro b hf
      cases hf with
      | pair ha hb => exact (Derives.parts_iff.mpr (iha ha)).append_reject
  | pair_second _ _ iha ihb =>
      intro b hf
      cases hf with
      | pair ha hb => exact (Derives.parts_iff.mpr (iha ha)).append (Derives.parts_iff.mpr (ihb hb))
  | choice_nil =>
      intro b hf
      cases hf with
      | choice h =>
          cases h
          exact .choice_nil
  | choice_first hs _ iha =>
      intro b hf
      cases hf with
      | choice h =>
          cases h with
          | cons ha _ =>
              rw [Grammar.SameTarget, hs] at ha
              exact .choice_first ha (iha (hg _ _ hs))
  | choice_next hs _ _ iha iht =>
      intro b hf
      cases hf with
      | choice h =>
          cases h with
          | cons ha hrest =>
              rw [Grammar.SameTarget, hs] at ha
              exact .choice_next ha (iha (hg _ _ hs)) (iht (.choice hrest))
  | star_more _ _ ihi iht =>
      intro b hf
      cases hf with
      | star hi =>
          have ht := iht (.star hi)
          obtain ⟨e, he⟩ := ht.accepted_of_star
          rw [he] at ht ⊢
          exact .star_more (ihi hi) ht
  | star_stop _ ihi =>
      intro b hf
      cases hf with
      | star hi => exact .star_stop (ihi hi)
  | plus _ _ ihi iht =>
      intro b hf
      cases hf with
      | plus hi =>
          have ht := iht (.star hi)
          obtain ⟨e, he⟩ := ht.accepted_of_star
          rw [he] at ht ⊢
          exact .plus (ihi hi) ht
  | plus_reject _ ihi =>
      intro b hf
      cases hf with
      | plus hi => exact .plus_reject (ihi hi)
  | option_some _ ihi =>
      intro b hf
      cases hf with
      | option hi => exact .option_some (ihi hi)
  | option_none _ ihi =>
      intro b hf
      cases hf with
      | option hi => exact .option_none (ihi hi)
  | map _ ihi | map_reject _ ihi =>
      intro b hf
      cases hf with
      | map hi => exact ihi hi
  | spanned _ ihi | spanned_reject _ ihi =>
      intro b hf
      cases hf with
      | spanned hi => exact ihi hi
  | deferred hs _ iha =>
      intro b hf
      cases hf with
      | deferred ha =>
          rw [Grammar.SameTarget, hs] at ha
          have hm := iha (hg _ _ hs)
          cases ho : Yield.outcome _ with
          | accepted e => exact .choice_first ha (ho ▸ hm)
          | rejected => exact .choice_next ha (ho ▸ hm) .choice_nil

theorem Yields.matches {p s y} (hg : g.Aligned) (hp : p.Aligned g) (h : Yields g text p s y) :
    Matches g text p.rule s (Yield.outcome y) := h.derives hg hp

theorem Yields.outcome_eq {p s y o} (hg : g.Aligned) (hp : p.Aligned g) (h : Yields g text p s y)
    (hm : Matches g text p.rule s o) : Yield.outcome y = o := (h.matches hg hp).unique hm

end Packrat
