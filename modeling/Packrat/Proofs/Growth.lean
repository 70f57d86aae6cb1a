import Packrat.Proofs.Demand
import Packrat.Proofs.Ledger

/-!
# Growth of a memo table

What a table may become while rules are evaluated: its entries stay, new ones are about keys that were
asked for, and its books stay balanced.
-/

namespace Packrat

open Relation (ReflTransGen)

namespace Memo

/-- All entries satisfy `P`. -/
def Every (P : Key → Outcome → Prop) (m : Memo) : Prop := ∀ k o, m.get? k = some o → P k o

/-- The table `m'` has grown out of `m`, with new entries only at the keys in `new`. -/
structure Grows (new : Key → Prop) (m m' : Memo) : Prop where
  strategy : m'.strategy = m.strategy
  keeps : ∀ k o, m.get? k = some o → m'.get? k = some o
  adds : ∀ k o, m'.get? k = some o → m.get? k = some o ∨ new k
  balanced : m.strategy = .full → ∀ pending, m.Balanced pending → m'.Balanced pending

namespace Grows

variable {new new' : Key → Prop} {m m' m'' : Memo} {k : Key}

protected theorem refl : Grows new m m := ⟨rfl, fun _ _ => id, fun _ _ => .inl, fun _ _ => id⟩

theorem mono (h : Grows new m m') (hn : ∀ k, new k → new' k) : Grows new' m m' :=
  ⟨h.strategy, h.keeps, fun k o hk => (h.adds k o hk).imp_right (hn k), h.balanced⟩

protected theorem trans (h : Grows new m m') (h' : Grows new m' m'') : Grows new m m'' where
  strategy := h'.strategy.trans h.strategy
  keeps k o hk := h'.keeps k o (h.keeps k o hk)
  adds k o hk := (h'.adds k o hk).elim (h.adds k o) .inr
  balanced hs pending hb := h'.balanced (h.strategy.trans hs) pending (h.balanced hs pending hb)

theorem hit {o : Outcome} (h : (m.lookup k).1 = some o) : Grows new m (m.lookup k).2 where
  strategy := strategy_lookup
  keeps key o' hk := by simpa using hk
  adds key o' hk := .inl (by simpa using hk)
  balanced _ _ hb := hb.hit h

/-- An evaluation that a look-up in vain sets off and that ends with recording its outcome. -/
theorem evaluation {o : Outcome} (hmiss : (m.lookup k).1 = none) (h : Grows new (m.lookup k).2 m')
    (hfresh : ¬ new k) : Grows (fun key => key = k ∨ new key) m (m'.record k o) := by
  have hs : m'.strategy = m.strategy := h.strategy.trans strategy_lookup
  cases hm : m.strategy with
  | none =>
      have hget : ∀ key, (m'.record k o).get? key = m'.get? key :=
        fun key => get?_record_none (hs.trans hm)
      refine ⟨by simpa using hs, fun key o' hk => ?_, fun key o' hk => ?_, fun hf => ?_⟩
      · rw [hget]
        exact h.keeps key o' (by simpa using hk)
      · rw [hget] at hk
        simpa using (h.adds key o' hk).imp_right Or.inr
      · rw [hm] at hf
        cases hf
  | full =>
      have hk : m.get? k = none := by simpa [lookup_fst, hm] using hmiss
      -- the evaluation has left no entry at its own key, so the one recorded now is the first
      have hk' : m'.get? k = none := by
        apply Option.eq_none_iff_forall_ne_some.mpr
        intro o' ho
        rcases h.adds k o' ho with hold | hnew
        · rw [get?_lookup, hk] at hold
          cases hold
        · exact hfresh hnew
      have hget : ∀ key, (m'.record k o).get? key = if k = key then some o else m'.get? key := by
        intro key
        simp [get?_record (hs.trans hm), hk']
      refine ⟨by simpa using hs, fun key o' hkey => ?_, fun key o' hkey => ?_, fun _ pending hb => ?_⟩
      · rw [hget, if_neg]
        · exact h.keeps key o' (by simpa using hkey)
        · rintro rfl
          rw [hk] at hkey
          cases hkey
      · rw [hget] at hkey
        split at hkey
        · next he => exact .inr (.inl he.symm)
        · simpa using (h.adds key o' hkey).imp_right Or.inr
      · have hopen := h.balanced (strategy_lookup.trans hm) _ (hb.miss hm hk)
        exact hopen.record (hs.trans hm) hk'

end Grows

namespace Every

variable {P Q : Key → Outcome → Prop} {m : Memo}

theorem empty {s : Strategy} : (empty s).Every P := fun _ _ h => by
  rw [get?_empty] at h
  cases h

theorem journaling {s : Strategy} : (journaling s).Every P := fun _ _ h => by
  rw [get?_journaling] at h
  cases h

theorem imp (h : m.Every P) (hPQ : ∀ k o, P k o → Q k o) : m.Every Q := fun k o hk => hPQ k o (h k o hk)

theorem lookup {k : Key} (h : m.Every P) : (m.lookup k).2.Every P := fun key o hk => h key o (by simpa using hk)

theorem record {k : Key} {o : Outcome} (h : m.Every P) (hk : P k o) : (m.record k o).Every P := by
  intro key o' hkey
  cases hs : m.strategy with
  | none =>
      rw [get?_record_none hs] at hkey
      exact h key o' hkey
  | full =>
      rw [get?_record hs] at hkey
      split at hkey
      · next he =>
          cases hkey
          rw [← he.2]
          exact hk
      · exact h key o' hkey

theorem answer {k : Key} {o : Outcome} (h : m.Every P) (hk : (m.lookup k).1 = some o) : P k o := by
  rw [lookup_fst] at hk
  split at hk
  · exact h k o hk
  · cases hk

end Every

/-- Every entry gives the outcome of its rule at its position. -/
def Correct {V : Type} (g : Grammar V) (text : Buffer) (m : Memo) : Prop :=
  m.Every fun k o => k.start ≤ text.length ∧ Matches g text k.rule k.start o

end Memo

end Packrat
