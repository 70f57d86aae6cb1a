import Packrat.Proofs.Settling

/-!
# Answers that do not depend on the past

What has been found for deferred alternatives decides how a look-up goes, but not what it answers. An act
whose answer is the same from all states that are in order has that answer always (`Determined`), and so
have acts that are put together from such acts.
-/

namespace Packrat

section General

variable {ε σ α β : Type}

/-- From every state that satisfies `I` the act has the answer `x`, and it leaves such a state. -/
def Determined (I : σ → Prop) (act : EStateM ε σ α) (x : Except ε α) : Prop :=
  ∀ s, I s → answer act s = x ∧ I (stateAfter act s)

/-- The act has the same answer from every state that satisfies `I`. -/
def Steady (I : σ → Prop) (act : EStateM ε σ α) : Prop := ∃ x, Determined I act x

variable {I : σ → Prop} {act : EStateM ε σ α} {s : σ}

theorem answer_eq_ok_iff {a : α} : answer act s = .ok a ↔ act s = .ok a (stateAfter act s) := by
  unfold answer stateAfter
  cases act s with
  | ok a' after => simp
  | error e after => simp

theorem answer_eq_error_iff {e : ε} : answer act s = .error e ↔ act s = .error e (stateAfter act s) := by
  unfold answer stateAfter
  cases act s with
  | ok a after => simp
  | error e' after => simp

theorem answer_bind_of_ok {f : α → EStateM ε σ β} {a : α} (h : answer act s = .ok a) :
    answer (act >>= f) s = answer (f a) (stateAfter act s) := by
  simp only [answer, bind_of_ok (answer_eq_ok_iff.mp h)]

theorem stateAfter_bind_of_ok {f : α → EStateM ε σ β} {a : α} (h : answer act s = .ok a) :
    stateAfter (act >>= f) s = stateAfter (f a) (stateAfter act s) := by
  simp only [stateAfter, bind_of_ok (answer_eq_ok_iff.mp h)]

theorem bind_eq_of_answer_error {f : α → EStateM ε σ β} {e : ε} (h : answer act s = .error e) :
    (act >>= f) s = .error e (stateAfter act s) := bind_of_error (answer_eq_error_iff.mp h)

theorem answer_bind_pure {f : α → β} :
    answer (act >>= fun a => pure (f a)) s = answer act s >>= fun a => pure (f a) := by
  cases hr : answer act s with
  | ok a => exact answer_bind_of_ok hr
  | error e => exact answer_of_error (bind_eq_of_answer_error hr)

namespace Determined

variable {x y : Except ε α}

theorem of_ensures {a : α} (h : ∀ s, I s → Ensures act s (fun a' after => a' = a ∧ I after) fun _ _ => False) :
    Determined I act (.ok a) := by
  intro s hs
  obtain ⟨_, after, hok, rfl, hafter⟩ := (h s hs).exists_ok
  rw [answer_of_ok hok, stateAfter_of_ok hok]
  exact ⟨rfl, hafter⟩

protected theorem pure {a : α} : Determined I (pure a : EStateM ε σ α) (.ok a) := fun _ hs => ⟨rfl, hs⟩

protected theorem throw {e : ε} : Determined I (throw e : EStateM ε σ α) (.error e) := fun _ hs => ⟨rfl, hs⟩

protected theorem bind {f : α → EStateM ε σ β} {a : α} {y : Except ε β} (h : Determined I act (.ok a))
    (hf : Determined I (f a) y) : Determined I (act >>= f) y := by
  intro s hs
  obtain ⟨ha, hmid⟩ := h s hs
  rw [answer_bind_of_ok ha, stateAfter_bind_of_ok ha]
  exact hf _ hmid

theorem bind_error {f : α → EStateM ε σ β} {e : ε} (h : Determined I act (.error e)) :
    Determined I (act >>= f) (.error e) := by
  intro s hs
  obtain ⟨he, hmid⟩ := h s hs
  have hbind := bind_eq_of_answer_error (f := f) he
  rw [answer_of_error hbind, stateAfter_of_error hbind]
  exact ⟨rfl, hmid⟩

protected theorem mapM {f : β → EStateM ε σ α} {F : β → α} {xs : List β}
    (h : ∀ x ∈ xs, Determined I (f x) (.ok (F x))) : Determined I (xs.mapM f) (.ok (xs.map F)) := by
  induction xs with
  | nil => exact .pure
  | cons x xs ih =>
      rw [List.mapM_cons]
      obtain ⟨hx, hxs⟩ := List.forall_mem_cons.mp h
      exact hx.bind ((ih hxs).bind .pure)

end Determined

namespace Steady

protected theorem pure {a : α} : Steady I (pure a : EStateM ε σ α) := ⟨_, .pure⟩

protected theorem throw {e : ε} : Steady I (throw e : EStateM ε σ α) := ⟨_, .throw⟩

protected theorem bind {f : α → EStateM ε σ β} (h : Steady I act) (hf : ∀ a, Steady I (f a)) :
    Steady I (act >>= f) := by
  obtain ⟨x, hx⟩ := h
  cases x with
  | ok a =>
      obtain ⟨y, hy⟩ := hf a
      exact ⟨y, hx.bind hy⟩
  | error e => exact ⟨_, hx.bind_error⟩

protected theorem mapM {f : β → EStateM ε σ α} {xs : List β} (h : ∀ x ∈ xs, Steady I (f x)) :
    Steady I (xs.mapM f) :=
  mapM_of_bind (P := fun _ act => Steady I act) (fun _ => .pure) .bind h

theorem answer_eq {s' : σ} (h : Steady I act) (hs : I s) (hs' : I s') : answer act s' = answer act s := by
  obtain ⟨x, hx⟩ := h
  exact (hx s' hs').1.trans (hx s hs).1.symm

theorem keeps (h : Steady I act) (hs : I s) : I (stateAfter act s) := by
  obtain ⟨x, hx⟩ := h
  exact (hx s hs).2

/-- Acts for the elements of a list do not disturb each other. -/
theorem answer_mapM {f : β → EStateM ε σ α} {xs : List β} (h : ∀ x ∈ xs, Steady I (f x)) (hs : I s) :
    answer (xs.mapM f) s = xs.mapM fun x => answer (f x) s := by
  induction xs with
  | nil => rfl
  | cons x xs ih =>
      obtain ⟨hx, hxs⟩ := List.forall_mem_cons.mp h
      rw [List.mapM_cons, List.mapM_cons, ← ih hxs]
      cases hfirst : answer (f x) s with
      | error e => exact answer_of_error (bind_eq_of_answer_error hfirst)
      | ok a =>
          -- the acts for the rest begin in another state, where their answers are the same
          have hrest := (Steady.mapM hxs).answer_eq hs (hx.keeps hs)
          rw [answer_bind_of_ok hfirst, ← hrest]
          cases hlater : answer (xs.mapM f) (stateAfter (f x) s) with
          | error e => exact answer_of_error (bind_eq_of_answer_error hlater)
          | ok bs => exact answer_bind_of_ok hlater

end Steady

end General

/-! ## Look-ups and listings -/

variable {V : Type} {g : Grammar V}

theorem Resolution.Finds.determined {α : Type} {lookup : Resolution V α} {a : α}
    (h : Resolution.Finds g lookup (some a)) : Determined (Bindings.Sound g) lookup (.ok a) := by
  refine .of_ensures fun b hb => (h b hb).imp ?_ ?_
  · rintro a' after ⟨ha, hafter⟩
    cases ha
    exact ⟨rfl, hafter⟩
  · rintro halt after ⟨-, hnone, -⟩
    cases hnone

namespace Grammar

/-- Where all alternatives have targets, the children of a rule are its operands. -/
theorem children_determined {r : RuleId}
    (h : ∀ a ∈ (g.body r).alternatives, (g.alternativeTarget a).isSome) :
    Determined (Bindings.Sound g) (g.children r) (.ok (g.operands (g.body r))) := by
  unfold children
  cases hb : g.body r with
  | choice alternatives =>
      rw [hb] at h
      have hmapM : Determined (Bindings.Sound g) (alternatives.mapM g.resolveAlternative)
          (.ok (alternatives.map fun a => (g.alternativeTarget a).getD 0)) := by
        refine .mapM fun a ha => Resolution.Finds.determined ?_
        obtain ⟨r', hr'⟩ := Option.isSome_iff_exists.mp (h a ha)
        rw [hr', Option.getD_some, ← hr']
        exact resolveAlternative_finds a
      have htargets : alternatives.map (fun a => (g.alternativeTarget a).getD 0) =
          alternatives.filterMap g.alternativeTarget := by
        rw [← List.filterMap_eq_map]
        refine List.filterMap_congr fun a ha => ?_
        obtain ⟨r', hr'⟩ := Option.isSome_iff_exists.mp (h a ha)
        simp [hr']
      rw [htargets] at hmapM
      exact hmapM
  | _ => exact .pure

/-- So where every forward declaration is defined, listings do not depend on the past. -/
theorem lists_steady (hdefined : ∀ slot < g.ruleSlots.size, (g.ruleTarget slot).isSome) :
    g.Lists fun _ act => Steady (Bindings.Sound g) act where
  pure _ := .pure
  throw _ := .throw
  bind h hf := h.bind hf
  children r := ⟨_, children_determined (complete_of_targets hdefined r r .refl)⟩

end Grammar

end Packrat
