import Mathlib.Data.List.Forall2
import Packrat.Engine.Run

/-!
# What an act ensures

An act with a state either gives an answer or fails. `Ensures` states what holds in each case, and
follows the shape of the act: one lemma for each way of putting acts together, one equation for each
elementary step of a run.
-/

namespace Packrat

section General

variable {ε σ α β : Type}

theorem bind_of_ok {act : EStateM ε σ α} {f : α → EStateM ε σ β} {s mid : σ} {a : α}
    (h : act s = .ok a mid) : (act >>= f) s = f a mid := by
  change EStateM.bind act f s = _
  simp only [EStateM.bind, h]

theorem bind_of_error {act : EStateM ε σ α} {f : α → EStateM ε σ β} {s mid : σ} {e : ε}
    (h : act s = .error e mid) : (act >>= f) s = .error e mid := by
  change EStateM.bind act f s = _
  simp only [EStateM.bind, h]

theorem get_bind {f : σ → EStateM ε σ β} {s : σ} : (get >>= f) s = f s s := rfl

/-- What holds of acts put together holds of an act for each element of a list. -/
theorem mapM_of_bind {P : ∀ α : Type, EStateM ε σ α → Prop} (pure : ∀ {α : Type} (a : α), P α (pure a))
    (bind : ∀ {α β : Type} {act : EStateM ε σ α} {f : α → EStateM ε σ β}, P α act → (∀ a, P β (f a)) →
      P β (act >>= f)) {f : β → EStateM ε σ α} {xs : List β} (h : ∀ x ∈ xs, P α (f x)) :
    P (List α) (xs.mapM f) := by
  induction xs with
  | nil => exact pure []
  | cons x xs ih =>
      rw [List.mapM_cons]
      obtain ⟨hx, hxs⟩ := List.forall_mem_cons.mp h
      exact bind hx fun _ => bind (ih hxs) fun _ => pure _

/-- From the state `s`, an answer of `act` satisfies `Q` and a failure satisfies `E`. -/
def Ensures (act : EStateM ε σ α) (s : σ) (Q : α → σ → Prop) (E : ε → σ → Prop) : Prop :=
  match act s with
  | .ok a after => Q a after
  | .error e after => E e after

instance {act : EStateM ε σ α} {s : σ} {Q : α → σ → Prop} {E : ε → σ → Prop}
    [∀ a after, Decidable (Q a after)] [∀ e after, Decidable (E e after)] :
    Decidable (Ensures act s Q E) :=
  match h : act s with
  | .ok a after => decidable_of_iff (Q a after) (by simp only [Ensures, h])
  | .error e after => decidable_of_iff (E e after) (by simp only [Ensures, h])

namespace Ensures

variable {act : EStateM ε σ α} {s : σ} {Q Q' : α → σ → Prop} {E E' : ε → σ → Prop}

theorem of_ok {a after} (h : Ensures act s Q E) (hok : act s = .ok a after) : Q a after := by
  simpa only [Ensures, hok] using h

theorem of_error {e after} (h : Ensures act s Q E) (he : act s = .error e after) : E e after := by
  simpa only [Ensures, he] using h

theorem intro (h : ∀ a after, act s = .ok a after → Q a after) : Ensures act s Q fun _ _ => True := by
  unfold Ensures
  split
  · next a after hok => exact h a after hok
  · trivial

theorem exists_ok (h : Ensures act s Q fun _ _ => False) : ∃ a after, act s = .ok a after ∧ Q a after := by
  unfold Ensures at h
  split at h
  · next a after hok => exact ⟨a, after, hok, h⟩
  · exact h.elim

theorem exists_error (h : Ensures act s (fun _ _ => False) E) :
    ∃ e after, act s = .error e after ∧ E e after := by
  unfold Ensures at h
  split at h
  · exact h.elim
  · next e after he => exact ⟨e, after, he, h⟩

theorem imp (h : Ensures act s Q E) (hQ : ∀ a after, Q a after → Q' a after)
    (hE : ∀ e after, E e after → E' e after) : Ensures act s Q' E' := by
  unfold Ensures at h ⊢
  cases hr : act s with
  | ok a after =>
      simp only [hr] at h
      exact hQ a after h
  | error e after =>
      simp only [hr] at h
      exact hE e after h

theorem imp_left (h : Ensures act s Q E) (hQ : ∀ a after, Q a after → Q' a after) :
    Ensures act s Q' E := h.imp hQ fun _ _ => id

theorem imp_right (h : Ensures act s Q E) (hE : ∀ e after, E e after → E' e after) :
    Ensures act s Q E' := h.imp (fun _ _ => id) hE

theorem of_no_error (h : Ensures act s Q fun _ _ => False) : Ensures act s Q E :=
  h.imp_right fun _ _ hfalse => hfalse.elim

protected theorem and (h : Ensures act s Q E) (h' : Ensures act s Q' E') :
    Ensures act s (fun a after => Q a after ∧ Q' a after) fun e after => E e after ∧ E' e after := by
  unfold Ensures at h h' ⊢
  cases hr : act s with
  | ok a after =>
      simp only [hr] at h h'
      exact ⟨h, h'⟩
  | error e after =>
      simp only [hr] at h h'
      exact ⟨h, h'⟩

protected theorem pure {a : α} (h : Q a s) : Ensures (pure a) s Q E := h

protected theorem throw {e : ε} (h : E e s) : Ensures (throw e) s Q E := h

protected theorem bind {f : α → EStateM ε σ β} {R : β → σ → Prop} (h : Ensures act s Q E)
    (hf : ∀ a mid, Q a mid → Ensures (f a) mid R E) : Ensures (act >>= f) s R E := by
  cases hr : act s with
  | ok a mid =>
      have hmid := hf a mid (h.of_ok hr)
      unfold Ensures at hmid ⊢
      rw [bind_of_ok hr]
      exact hmid
  | error e mid =>
      have herr := h.of_error hr
      unfold Ensures
      rw [bind_of_error hr]
      exact herr

theorem done {a : α} {after : σ} (hok : act s = .ok a after) (h : Q a after) : Ensures act s Q E := by
  simpa only [Ensures, hok] using h

theorem fail {e : ε} {after : σ} (he : act s = .error e after) (h : E e after) : Ensures act s Q E := by
  simpa only [Ensures, he] using h

theorem step {f : α → EStateM ε σ β} {R : β → σ → Prop} {a : α} {mid : σ} (hok : act s = .ok a mid)
    (h : Ensures (f a) mid R E) : Ensures (act >>= f) s R E := by
  unfold Ensures at h ⊢
  rw [bind_of_ok hok]
  exact h

theorem of_eq {act' : EStateM ε σ α} {s' : σ} (he : act s = act' s') (h : Ensures act' s' Q E) :
    Ensures act s Q E := by
  unfold Ensures at h ⊢
  rw [he]
  exact h

protected theorem get {f : σ → EStateM ε σ β} {R : β → σ → Prop} (h : Ensures (f s) s R E) :
    Ensures (get >>= f) s R E := h

protected theorem modify {f : PUnit → EStateM ε σ β} {R : β → σ → Prop} {g : σ → σ}
    (h : Ensures (f ()) (g s) R E) : Ensures (modify g >>= f) s R E := h

/-- An act for each element of a list, from states that satisfy `I` along a relation `R` that keeps `P` and
`T`. -/
protected theorem mapM {f : α → EStateM ε σ β} {I : σ → Prop} {R : σ → σ → Prop} {P : α → σ → Prop}
    {T : α → β → σ → Prop} {xs : List α} (hrefl : ∀ s, I s → R s s)
    (htrans : ∀ {s s' s''}, R s s' → R s' s'' → R s s'') (hP : ∀ {x s s'}, R s s' → P x s → P x s')
    (hT : ∀ {x b s s'}, R s s' → T x b s → T x b s')
    (hf : ∀ x s, I s → P x s → Ensures (f x) s (fun b s' => I s' ∧ R s s' ∧ T x b s') E)
    (hs : I s) (hxs : ∀ x ∈ xs, P x s) :
    Ensures (xs.mapM f) s (fun bs s' => I s' ∧ R s s' ∧ List.Forall₂ (fun x b => T x b s') xs bs) E := by
  induction xs generalizing s with
  | nil => exact .pure ⟨hs, hrefl s hs, .nil⟩
  | cons x xs ih =>
      rw [List.mapM_cons]
      obtain ⟨hx, hxs⟩ := List.forall_mem_cons.mp hxs
      apply (hf x s hs hx).bind
      rintro b mid ⟨hmid, hr, hb⟩
      apply (ih hmid fun y hy => hP hr (hxs y hy)).bind
      rintro bs after ⟨hafter, hr', hbs⟩
      exact .pure ⟨hafter, htrans hr hr', .cons (hT hr' hb) hbs⟩

end Ensures

/-- From the state `s`, the act gives an answer. -/
def Answers (act : EStateM ε σ α) (s : σ) : Prop := ∃ a after, act s = .ok a after

theorem Ensures.answers {act : EStateM ε σ α} {s : σ} {Q : α → σ → Prop}
    (h : Ensures act s Q fun _ _ => False) : Answers act s := by
  obtain ⟨a, after, hok, -⟩ := h.exists_ok
  exact ⟨a, after, hok⟩

namespace Answers

variable {act : EStateM ε σ α} {s : σ}

protected theorem pure {a : α} : Answers (pure a : EStateM ε σ α) s := ⟨a, s, rfl⟩

/-- What is known of the first answer is at hand for the rest. -/
protected theorem bind {f : α → EStateM ε σ β} {Q : α → σ → Prop} {E : ε → σ → Prop}
    (h : Answers act s) (hQ : Ensures act s Q E) (hf : ∀ a mid, Q a mid → Answers (f a) mid) :
    Answers (act >>= f) s := by
  obtain ⟨a, mid, hok⟩ := h
  obtain ⟨b, after, hb⟩ := hf a mid (hQ.of_ok hok)
  exact ⟨b, after, (bind_of_ok hok).trans hb⟩

theorem step {f : α → EStateM ε σ β} {a : α} {mid : σ} (hok : act s = .ok a mid)
    (h : Answers (f a) mid) : Answers (act >>= f) s := by
  obtain ⟨b, after, hb⟩ := h
  exact ⟨b, after, (bind_of_ok hok).trans hb⟩

end Answers

attribute [irreducible] Ensures

end General

/-! ## Elementary steps of a run -/

namespace Engine

variable {V : Type} {text : Buffer} {run : Run V}

theorem position_eq : position run = .ok run.position run := rfl

theorem advance_eq_some {c : Char} (h : text.char? run.position = some c) :
    advance text run = .ok (some c) (run.moveTo (run.position + 1)) := by
  unfold advance
  rw [get_bind, h]
  rfl

theorem advance_eq_none (h : text.char? run.position = none) : advance text run = .ok none run := by
  unfold advance
  rw [get_bind, h]
  rfl

theorem rewind_eq {p : Nat} (h : p ≤ text.length) : rewind text p run = .ok () (run.moveTo p) := by
  simp only [rewind, h, if_true]
  rfl

theorem jump_eq {p : Nat} (h : p ≤ text.length) : jump text p run = .ok () (run.moveTo p) := by
  simp only [jump, h, if_true]
  rfl

theorem consult_eq {key : Memo.Key} :
    consult key run = .ok (run.memo.lookup key).1 { run with memo := (run.memo.lookup key).2 } := rfl

theorem remember_eq {key : Memo.Key} {o : Outcome} :
    remember key o run = .ok () { run with memo := run.memo.record key o } := rfl

theorem report_eq {event : Event} : report event run = .ok () (run.observe event) := rfl

theorem perform_eq {label : String} :
    perform label run = .ok () { run with actions := label :: run.actions } := rfl

end Engine

end Packrat
