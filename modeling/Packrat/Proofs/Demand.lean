import Mathlib.Data.Finset.Prod
import Mathlib.Logic.Relation
import Packrat.Proofs.Derivation

/-!
# Demand

Which rules at which positions a derivation asks for. A derivation that ends never asks for itself
(`Matches.not_below`), and the levels of its demand are no more than the rules times the positions
(`Matches.within`).
-/

namespace Packrat

open Relation (ReflTransGen TransGen)

variable {V : Type}

/-- Matching a body from a position asks for a rule at a position. What comes later is asked for once
the parts before it have the outcomes that lead there. -/
inductive Asks (g : Grammar V) (text : Buffer) : Body → Nat → Memo.Key → Prop
  | operand {b i p} (h : b.operand? = some i) : Asks g text b p ⟨i, p⟩
  | sequence_head {r rest p} : Asks g text (.sequence (r :: rest)) p ⟨r, p⟩
  | sequence_tail {r rest p q k} (h : Matches g text r p (.accepted q))
      (ht : Asks g text (.sequence rest) q k) : Asks g text (.sequence (r :: rest)) p k
  | choice_head {a r rest p} (ha : g.alternativeTarget a = some r) :
      Asks g text (.choice (a :: rest)) p ⟨r, p⟩
  | choice_tail {a r rest p k} (ha : g.alternativeTarget a = some r)
      (h : Matches g text r p .rejected) (ht : Asks g text (.choice rest) p k) :
      Asks g text (.choice (a :: rest)) p k
  | star_tail {i p q k} (h : Matches g text i p (.accepted q)) (ht : Asks g text (.star i) q k) :
      Asks g text (.star i) p k
  | plus_tail {i p q k} (h : Matches g text i p (.accepted q)) (ht : Asks g text (.star i) q k) :
      Asks g text (.plus i) p k

/-- Evaluating the second key asks for the first. -/
abbrev NeededBy (g : Grammar V) (text : Buffer) (k' k : Memo.Key) : Prop :=
  Asks g text (g.body k.rule) k.start k'

/-- A key is asked for, at any depth, when a body is matched from a position. -/
def Below (g : Grammar V) (text : Buffer) (b : Body) (p : Nat) (k : Memo.Key) : Prop :=
  ∃ top, Asks g text b p top ∧ ReflTransGen (NeededBy g text) k top

/-- No chain of demands from a key has `n` steps. -/
def Within (g : Grammar V) (text : Buffer) : Nat → Memo.Key → Prop
  | 0, _ => False
  | n + 1, k => ∀ k', NeededBy g text k' k → Within g text n k'

variable {g : Grammar V} {text : Buffer}

/-! ## Positions -/

theorem Asks.bounds {b p k} (h : Asks g text b p k) :
    p ≤ k.start ∧ (p ≤ text.length → k.start ≤ text.length) := by
  induction h with
  | operand | sequence_head | choice_head => exact ⟨Nat.le_refl _, id⟩
  | sequence_tail h _ ih | star_tail h _ ih | plus_tail h _ ih =>
      exact ⟨Nat.le_trans h.start_le ih.1, fun hp => ih.2 (h.end_le hp)⟩
  | choice_tail _ _ _ ih => exact ih

/-! ## Demands of parts -/

theorem Asks.append_left {xs ys p k} (h : Asks g text (.sequence xs) p k) :
    Asks g text (.sequence (xs ++ ys)) p k := by
  induction xs generalizing p with
  | nil => cases h with
      | operand h => cases h
  | cons r xs ih => cases h with
      | operand h => cases h
      | sequence_head => exact .sequence_head
      | sequence_tail hr ht => exact .sequence_tail hr (ih ht)

theorem Asks.append_right {xs ys p q k} (h : Asks g text (.sequence ys) q k)
    (hxs : Derives g text (.sequence xs) p (.accepted q)) : Asks g text (.sequence (xs ++ ys)) p k := by
  induction xs generalizing p with
  | nil => cases hxs; exact h
  | cons r xs ih => cases hxs with
      | sequence_cons hr hrest => exact .sequence_tail hr (ih hrest)

theorem Asks.reaches {b p k top} (h : Asks g text b p top)
    (hk : ReflTransGen (NeededBy g text) k top) : Below g text b p k := ⟨top, h, hk⟩

theorem Below.mono {b b' p p' k} (h : Below g text b p k)
    (hb : ∀ top, Asks g text b p top → Asks g text b' p' top) : Below g text b' p' k := by
  obtain ⟨top, ha, hk⟩ := h
  exact ⟨top, hb top ha, hk⟩

theorem Below.needed {k top} (h : Below g text (g.body top.rule) top.start k) :
    ReflTransGen (NeededBy g text) k top := by
  obtain ⟨mid, ha, hk⟩ := h
  exact hk.tail ha

/-! ## A derivation never asks for itself -/

/-- The demands of a derivation are well founded: each is met by a part of the derivation. -/
theorem Derives.acc {b p o} (h : Derives g text b p o) :
    ∀ k, Asks g text b p k → Acc (NeededBy g text) k := by
  induction h with
  | literal | literal_reject | predicate | predicate_reject =>
      intro k hk
      cases hk with
      | operand h => cases h
  | sequence_nil | choice_nil =>
      intro k hk
      cases hk with
      | operand h => cases h
  | sequence_cons h _ ih iht =>
      intro k hk
      cases hk with
      | operand h => cases h
      | sequence_head => exact ⟨_, ih⟩
      | sequence_tail h' ht =>
          cases h.unique h'
          exact iht k ht
  | sequence_reject h ih =>
      intro k hk
      cases hk with
      | operand h => cases h
      | sequence_head => exact ⟨_, ih⟩
      | sequence_tail h' _ => cases h.unique h'
  | choice_first ha h ih =>
      intro k hk
      cases hk with
      | operand h => cases h
      | choice_head ha' =>
          cases ha.symm.trans ha'
          exact ⟨_, ih⟩
      | choice_tail ha' h' _ =>
          cases ha.symm.trans ha'
          cases h.unique h'
  | choice_next ha h _ ih iht =>
      intro k hk
      cases hk with
      | operand h => cases h
      | choice_head ha' =>
          cases ha.symm.trans ha'
          exact ⟨_, ih⟩
      | choice_tail _ _ ht => exact iht k ht
  | star_more h _ ih iht =>
      intro k hk
      cases hk with
      | operand h => cases h; exact ⟨_, ih⟩
      | star_tail h' ht =>
          cases h.unique h'
          exact iht k ht
  | star_stop h ih =>
      intro k hk
      cases hk with
      | operand h => cases h; exact ⟨_, ih⟩
      | star_tail h' _ => cases h.unique h'
  | plus h _ ih iht =>
      intro k hk
      cases hk with
      | operand h => cases h; exact ⟨_, ih⟩
      | plus_tail h' ht =>
          cases h.unique h'
          exact iht k ht
  | plus_reject h ih =>
      intro k hk
      cases hk with
      | operand h => cases h; exact ⟨_, ih⟩
      | plus_tail h' _ => cases h.unique h'
  | option_some _ ih | option_none _ ih | and _ ih | and_reject _ ih | not _ ih | not_reject _ ih =>
      intro k hk
      cases hk with
      | operand h => cases h; exact ⟨_, ih⟩

theorem Matches.acc {r p o} (h : Matches g text r p o) : Acc (NeededBy g text) ⟨r, p⟩ :=
  ⟨_, Derives.acc h⟩

theorem not_transGen_self {α : Type} {r : α → α → Prop} {a : α} (h : Acc r a) : ¬ TransGen r a a := by
  intro hs
  replace h := h.transGen
  induction h with
  | intro a _ ih => exact ih a hs hs

/-- An evaluation nested in an evaluation of the same rule at the same position would put the
derivation inside itself. -/
theorem Matches.not_below {k o} (h : Matches g text k.rule k.start o) :
    ¬ Below g text (g.body k.rule) k.start k := by
  rintro ⟨top, ha, hk⟩
  exact not_transGen_self h.acc (TransGen.tail' hk ha)

/-! ## The depth of a demand -/

/-- A chain of demands visits no key twice, so it is no longer than a set of keys that holds all of it
but its last. -/
theorem Within.of_acc (s : Finset Memo.Key) {k} (h : Acc (NeededBy g text) k)
    (hs : ∀ k' k'', ReflTransGen (NeededBy g text) k' k → NeededBy g text k'' k' → k' ∈ s) :
    Within g text (s.card + 1) k := by
  induction s using Finset.strongInduction generalizing k with
  | H s ih =>
      intro k' hk'
      have hmem : k ∈ s := hs k k' .refl hk'
      -- what `k` asks for never asks for `k` again, so the other keys are enough for it
      rw [← Finset.card_erase_add_one hmem]
      apply ih _ (Finset.erase_ssubset hmem) (h.inv hk')
      intro l l' hl hl'
      refine Finset.mem_erase.mpr ⟨?_, hs l l' (hl.tail hk') hl'⟩
      rintro rfl
      exact not_transGen_self h (TransGen.tail' hl hk')

/-- The rules of a grammar at the positions of a text. -/
def keys (g : Grammar V) (text : Buffer) : Finset Memo.Key :=
  (Finset.range g.rules.size ×ˢ Finset.range (text.length + 1)).map
    ⟨fun x => ⟨x.1 + 1, x.2⟩, fun x y h => by
      simp only [Memo.Key.mk.injEq, Nat.add_right_cancel_iff] at h
      exact Prod.ext h.1 h.2⟩

theorem card_keys : (keys g text).card = g.rules.size * (text.length + 1) := by
  simp [keys]

theorem NeededBy.mem_keys {k k'} (h : NeededBy g text k' k) (hp : k.start ≤ text.length) :
    k ∈ keys g text := by
  obtain ⟨r, p⟩ := k
  have hbody : g.body r ≠ .choice [] := by
    intro hb
    simp only [NeededBy, hb] at h
    cases h with
    | operand h => cases h
  cases r with
  | zero => exact absurd rfl hbody
  | succ r =>
      have hr : r < g.rules.size := by
        by_contra hr
        exact hbody (by simp [Grammar.body, Nat.not_lt.mp hr])
      simp only [keys, Finset.mem_map, Finset.mem_product, Finset.mem_range]
      exact ⟨(r, p), ⟨hr, Nat.lt_succ_of_le hp⟩, rfl⟩

theorem Matches.within {r p o} (h : Matches g text r p o) (hp : p ≤ text.length) :
    Within g text (g.rules.size * (text.length + 1) + 1) ⟨r, p⟩ := by
  rw [← card_keys]
  refine .of_acc _ h.acc fun k k' hk hk' => hk'.mem_keys ?_
  clear hk'
  induction hk using ReflTransGen.head_induction_on with
  | refl => exact hp
  | head h _ ih => exact h.bounds.2 ih

end Packrat
