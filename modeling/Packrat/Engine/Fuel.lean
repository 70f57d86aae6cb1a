import Packrat.Engine.Construction

/-!
More fuel never changes an answer: an act that settles with some fuel gives the same result, and
leaves the same state, with any greater amount.
-/

namespace Packrat

namespace Engine

variable {V α β : Type}

/-- The result is an answer, or a halt for another cause than lack of fuel. -/
def Settled {σ α : Type} (result : EStateM.Result Halt σ α) : Prop :=
  ∀ s, result ≠ .error .exhausted s

/-- Wherever `a` settles, `b` does the same. -/
def Refines (a b : Engine V α) : Prop := ∀ run, Settled (a run) → b run = a run

namespace Refines

protected theorem rfl {a : Engine V α} : Refines a a := fun _ _ => Eq.refl _

protected theorem bind {a a' : Engine V α} {f f' : α → Engine V β} (ha : Refines a a')
    (hf : ∀ x, Refines (f x) (f' x)) : Refines (a >>= f) (a' >>= f') := by
  intro run h
  change Settled (EStateM.bind a f run) at h
  change EStateM.bind a' f' run = EStateM.bind a f run
  unfold EStateM.bind at h ⊢
  cases hr : a run with
  | ok x s =>
    rw [ha run (by rw [hr]; intro s h; cases h), hr]
    simp only [hr] at h
    exact hf x s h
  | error e s =>
    have hs : Settled (a run) := by
      intro s' h'
      rw [hr] at h'
      cases h'
      simp only [hr] at h
      exact h _ (Eq.refl _)
    rw [ha run hs, hr]

protected theorem exhausted {b : Engine V α} : Refines (throw .exhausted) b := by
  intro run h
  exact absurd (Eq.refl _) (h run)

protected theorem unmemoized {a a' : Engine V α} (h : Refines a a') :
    Refines (unmemoized a) (unmemoized a') := by
  intro run hs
  unfold Engine.unmemoized at hs ⊢
  rw [h]
  intro s he
  rw [he] at hs
  exact hs _ (Eq.refl _)

protected theorem attempt {a a' : Engine V α} (h : Refines a a') :
    Refines (attempt a) (attempt a') := by
  intro run hs
  unfold Engine.attempt at hs ⊢
  rw [h]
  intro s he
  rw [he] at hs
  exact hs _ (Eq.refl _)

end Refines

variable (g : Grammar V) (text : Buffer)

/-! ## Recognition -/

theorem matchAll_refines {f f' : RuleId → Engine V Bool} (h : ∀ r, Refines (f r) (f' r))
    (rules : List RuleId) : Refines (matchAll f rules) (matchAll f' rules) := by
  induction rules with
  | nil => exact .rfl
  | cons r rest ih =>
    unfold matchAll
    refine (h r).bind fun accepted => ?_
    cases accepted with
    | false => exact .rfl
    | true => exact ih

theorem matchFirst_refines {f f' : RuleId → Engine V Bool} (h : ∀ r, Refines (f r) (f' r))
    (start : Nat) (alternatives : List Alternative) :
    Refines (matchFirst g text f start alternatives) (matchFirst g text f' start alternatives) := by
  induction alternatives with
  | nil => exact .rfl
  | cons a rest ih =>
    unfold matchFirst
    refine Refines.rfl.bind fun r => (h r).bind fun accepted => ?_
    cases accepted with
    | false => exact Refines.rfl.bind fun _ => ih
    | true => exact .rfl

theorem matchMany_refines {a a' : Engine V Bool} (h : Refines a a') {n m : Nat} (hle : n ≤ m) :
    Refines (matchMany text a n) (matchMany text a' m) := by
  induction n generalizing m with
  | zero => exact .exhausted
  | succ n ih =>
    obtain ⟨m, rfl⟩ : ∃ k, m = k + 1 := ⟨m - 1, by omega⟩
    unfold matchMany
    refine Refines.rfl.bind fun _ => h.bind fun accepted => ?_
    cases accepted with
    | false => exact .rfl
    | true => exact ih (Nat.le_of_succ_le_succ hle)

theorem lookahead_refines {a a' : Engine V Bool} (h : Refines a a') :
    Refines (lookahead text a) (lookahead text a') :=
  Refines.rfl.bind fun _ => h.unmemoized.bind fun _ => .rfl

theorem evaluate_refines {f f' : RuleId → Engine V Bool} (h : ∀ r, Refines (f r) (f' r)) {n m : Nat}
    (hle : n ≤ m) (body : Body) :
    Refines (evaluate g text f n body) (evaluate g text f' m body) := by
  cases body with
  | literal => exact .rfl
  | predicate => exact .rfl
  | sequence rules => exact matchAll_refines h rules
  | choice alternatives => exact Refines.rfl.bind fun _ => matchFirst_refines g text h _ alternatives
  | star item => exact (matchMany_refines text (h item) hle).bind fun _ => .rfl
  | plus item =>
    refine (h item).bind fun accepted => ?_
    cases accepted with
    | false => exact .rfl
    | true => exact (matchMany_refines text (h item) hle).bind fun _ => .rfl
  | option item =>
    refine Refines.rfl.bind fun _ => (h item).bind fun accepted => ?_
    cases accepted <;> exact .rfl
  | and item => exact lookahead_refines text (h item)
  | not item => exact (lookahead_refines text (h item)).bind fun _ => .rfl

theorem accept_refines {n m : Nat} (hle : n ≤ m) (r : RuleId) :
    Refines (accept g text n r) (accept g text m r) := by
  induction n generalizing m r with
  | zero => exact .exhausted
  | succ n ih =>
    obtain ⟨m, rfl⟩ : ∃ k, m = k + 1 := ⟨m - 1, by omega⟩
    have hle := Nat.le_of_succ_le_succ hle
    unfold accept
    refine Refines.rfl.bind fun _ => Refines.rfl.bind fun answer => ?_
    match answer with
    | none => exact (evaluate_refines g text (ih hle) hle _).bind fun _ => .rfl
    | some .rejected => exact .rfl
    | some (.accepted _) => exact .rfl

/-! ## Construction -/

theorem twoPass_refines {f f' : RuleId → Engine V Bool} (h : ∀ r, Refines (f r) (f' r))
    {b b' : Engine V V} (hb : Refines b b') (r : RuleId) :
    Refines (twoPass text f r b) (twoPass text f' r b') := by
  refine Refines.rfl.bind fun _ => (h r).bind fun accepted => ?_
  cases accepted with
  | false => exact .rfl
  | true => exact Refines.rfl.bind fun _ => Refines.rfl.bind fun _ => hb.bind fun _ => .rfl

theorem firstOf_refines {p p' : Nat → Engine V V} (h : ∀ slot, Refines (p slot) (p' slot))
    (slots : List Nat) : Refines (firstOf p slots) (firstOf p' slots) := by
  induction slots with
  | nil => exact .rfl
  | cons slot rest ih =>
    unfold firstOf
    refine (h slot).attempt.bind fun value => ?_
    cases value with
    | none => exact ih
    | some => exact .rfl

theorem gather_refines {a a' : Engine V V} (h : Refines a a') {n m : Nat} (hle : n ≤ m) :
    Refines (gather a n) (gather a' m) := by
  induction n generalizing m with
  | zero => exact .exhausted
  | succ n ih =>
    obtain ⟨m, rfl⟩ : ∃ k, m = k + 1 := ⟨m - 1, by omega⟩
    unfold gather
    refine h.attempt.bind fun value => ?_
    cases value with
    | none => exact .rfl
    | some => exact (ih (Nat.le_of_succ_le_succ hle)).bind fun _ => .rfl

theorem build_refines {f f' : RuleId → Engine V Bool} (h : ∀ r, Refines (f r) (f' r))
    {q q' : Nat → Engine V V} (hq : ∀ slot, Refines (q slot) (q' slot)) {n m : Nat} (hle : n ≤ m)
    (p : Parser V) : Refines (p.build text f q n) (p.build text f' q' m) := by
  induction p with
  | silent r =>
    refine (h r).bind fun accepted => ?_
    cases accepted <;> exact .rfl
  | character => exact .rfl
  | characters r =>
    refine Refines.rfl.bind fun _ => (h r).bind fun accepted => ?_
    cases accepted <;> exact .rfl
  | pair r a b _ _ iha ihb =>
    exact (twoPass_refines text h iha _).bind fun _ => (twoPass_refines text h ihb _).bind fun _ => .rfl
  | choice r slots => exact firstOf_refines hq slots
  | star r item _ ih => exact (gather_refines (twoPass_refines text h ih _) hle).bind fun _ => .rfl
  | plus r item _ ih =>
    exact (twoPass_refines text h ih _).bind fun _ =>
      (gather_refines (twoPass_refines text h ih _) hle).bind fun _ => .rfl
  | option r item _ ih => exact (twoPass_refines text h ih _).attempt.bind fun _ => .rfl
  | map inner _ _ ih => exact ih.bind fun _ => .rfl
  | spanned inner _ ih => exact Refines.rfl.bind fun _ => ih.bind fun _ => .rfl
  | deferred r slot => exact hq slot

theorem parseSlot_refines {l k : Nat} (hl : l ≤ k) {n m : Nat} (hle : n ≤ m) (slot : Nat) :
    Refines (parseSlot g text l n slot) (parseSlot g text k m slot) := by
  induction n generalizing m slot with
  | zero => exact .exhausted
  | succ n ih =>
    obtain ⟨m, rfl⟩ : ∃ k, m = k + 1 := ⟨m - 1, by omega⟩
    have hp := fun slot => ih (Nat.le_of_succ_le_succ hle) slot
    exact Refines.rfl.bind fun p => twoPass_refines text (accept_refines g text hl)
      (build_refines text (accept_refines g text hl) hp hl p) _

theorem construct_refines {n m : Nat} (hle : n ≤ m) (p : Parser V) :
    Refines (construct g text n p) (construct g text m p) :=
  build_refines text (accept_refines g text hle) (parseSlot_refines g text hle hle) hle p

theorem parseAt_refines {n m : Nat} (hle : n ≤ m) (p : Parser V) :
    Refines (parseAt g text n p) (parseAt g text m p) :=
  twoPass_refines text (accept_refines g text hle) (construct_refines g text hle p) _

end Engine

end Packrat
