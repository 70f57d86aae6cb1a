import Packrat.Grammar.Basic

/-!
# Derivations

What a rule matches, by inference rules alone: no table, no state, no order of evaluation. Every body
has at most one outcome at a position (`Derives.unique`), and a match never leaves the text.
-/

namespace Packrat

/-! ## Characters from a position on -/

namespace Buffer

/-- The characters from a position to the end. -/
def rest (b : Buffer) (p : Nat) : List Char := b.chars.toList.drop p

theorem rest_eq_cons {b : Buffer} {p c} (h : b.char? p = some c) : b.rest p = c :: b.rest (p + 1) := by
  obtain ⟨hp, rfl⟩ := char?_eq_some_iff.mp h
  simp only [rest]
  rw [List.drop_eq_getElem_cons (by simpa [length] using hp)]
  rfl

theorem rest_eq_nil {b : Buffer} {p} (h : b.char? p = none) : b.rest p = [] := by
  have hp := char?_eq_none_iff.mp h
  simpa [rest, length] using hp

theorem add_length_le_of_prefix {b : Buffer} {p} {cs : List Char} (hp : p ≤ b.length)
    (h : cs <+: b.rest p) : p + cs.length ≤ b.length := by
  have := h.length_le
  simp only [rest, List.length_drop, Array.length_toList, length] at this hp ⊢
  omega

end Buffer

/-! ## Outcomes -/

namespace Outcome

/-- The outcome of an evaluation that answered `accepted` and stopped at `stop`. -/
def ofAnswer (accepted : Bool) (stop : Nat) : Outcome := if accepted then .accepted stop else .rejected

@[simp] theorem ofAnswer_true (stop : Nat) : ofAnswer true stop = .accepted stop := rfl

@[simp] theorem ofAnswer_false (stop : Nat) : ofAnswer false stop = .rejected := rfl

theorem ofAnswer_eq_accepted_iff {x : Bool} {stop e : Nat} :
    ofAnswer x stop = .accepted e ↔ x = true ∧ stop = e := by
  cases x <;> simp

theorem ofAnswer_eq_rejected_iff {x : Bool} {stop : Nat} : ofAnswer x stop = .rejected ↔ x = false := by
  cases x <;> simp

end Outcome

/-! ## The inference rules -/

variable {V : Type}

/-- Matching a body from a position ends in an outcome. A rule stands for its body, a deferred
alternative for its target. A choice never returns into an alternative that matched, and a repetition
never gives back a round. -/
inductive Derives (g : Grammar V) (text : Buffer) : Body → Nat → Outcome → Prop
  | literal {cs p} (h : cs <+: text.rest p) : Derives g text (.literal cs) p (.accepted (p + cs.length))
  | literal_reject {cs p} (h : ¬ cs <+: text.rest p) : Derives g text (.literal cs) p .rejected
  | predicate {d test p c} (hc : text.char? p = some c) (ht : test c = true) :
      Derives g text (.predicate d test) p (.accepted (p + 1))
  | predicate_reject {d test p} (h : ∀ c, text.char? p = some c → test c = false) :
      Derives g text (.predicate d test) p .rejected
  | sequence_nil {p} : Derives g text (.sequence []) p (.accepted p)
  | sequence_cons {r rest p q o} (h : Derives g text (g.body r) p (.accepted q))
      (ht : Derives g text (.sequence rest) q o) : Derives g text (.sequence (r :: rest)) p o
  | sequence_reject {r rest p} (h : Derives g text (g.body r) p .rejected) :
      Derives g text (.sequence (r :: rest)) p .rejected
  | choice_nil {p} : Derives g text (.choice []) p .rejected
  | choice_first {a r rest p q} (ha : g.alternativeTarget a = some r)
      (h : Derives g text (g.body r) p (.accepted q)) :
      Derives g text (.choice (a :: rest)) p (.accepted q)
  | choice_next {a r rest p o} (ha : g.alternativeTarget a = some r)
      (h : Derives g text (g.body r) p .rejected) (ht : Derives g text (.choice rest) p o) :
      Derives g text (.choice (a :: rest)) p o
  | star_more {i p q e} (h : Derives g text (g.body i) p (.accepted q))
      (ht : Derives g text (.star i) q (.accepted e)) : Derives g text (.star i) p (.accepted e)
  | star_stop {i p} (h : Derives g text (g.body i) p .rejected) :
      Derives g text (.star i) p (.accepted p)
  | plus {i p q e} (h : Derives g text (g.body i) p (.accepted q))
      (ht : Derives g text (.star i) q (.accepted e)) : Derives g text (.plus i) p (.accepted e)
  | plus_reject {i p} (h : Derives g text (g.body i) p .rejected) :
      Derives g text (.plus i) p .rejected
  | option_some {i p q} (h : Derives g text (g.body i) p (.accepted q)) :
      Derives g text (.option i) p (.accepted q)
  | option_none {i p} (h : Derives g text (g.body i) p .rejected) :
      Derives g text (.option i) p (.accepted p)
  | and {i p q} (h : Derives g text (g.body i) p (.accepted q)) :
      Derives g text (.and i) p (.accepted p)
  | and_reject {i p} (h : Derives g text (g.body i) p .rejected) :
      Derives g text (.and i) p .rejected
  | not {i p} (h : Derives g text (g.body i) p .rejected) : Derives g text (.not i) p (.accepted p)
  | not_reject {i p q} (h : Derives g text (g.body i) p (.accepted q)) :
      Derives g text (.not i) p .rejected

/-- A rule has an outcome at a position. -/
def Matches (g : Grammar V) (text : Buffer) (r : RuleId) (p : Nat) (o : Outcome) : Prop :=
  Derives g text (g.body r) p o

variable {g : Grammar V} {text : Buffer}

/-! ## At most one outcome -/

theorem Derives.unique {b p o o'} (h : Derives g text b p o) (h' : Derives g text b p o') : o = o' := by
  induction h generalizing o' with
  | literal h => cases h' with
      | literal => rfl
      | literal_reject hn => exact absurd h hn
  | literal_reject hn => cases h' with
      | literal h => exact absurd h hn
      | literal_reject => rfl
  | predicate hc ht => cases h' with
      | predicate => rfl
      | predicate_reject hn => simp [hn _ hc] at ht
  | predicate_reject hn => cases h' with
      | predicate hc ht => simp [hn _ hc] at ht
      | predicate_reject => rfl
  | sequence_nil => cases h'; rfl
  | sequence_cons _ _ ih iht => cases h' with
      | sequence_cons h ht =>
          cases ih h
          exact iht ht
      | sequence_reject h => cases ih h
  | sequence_reject _ ih => cases h' with
      | sequence_cons h _ => cases ih h
      | sequence_reject => rfl
  | choice_nil => cases h'; rfl
  | choice_first ha _ ih => cases h' with
      | choice_first ha' h =>
          cases ha.symm.trans ha'
          exact ih h
      | choice_next ha' h _ =>
          cases ha.symm.trans ha'
          cases ih h
  | choice_next ha _ _ ih iht => cases h' with
      | choice_first ha' h =>
          cases ha.symm.trans ha'
          cases ih h
      | choice_next _ _ ht => exact iht ht
  | star_more _ _ ih iht => cases h' with
      | star_more h ht =>
          cases ih h
          exact iht ht
      | star_stop h => cases ih h
  | star_stop _ ih => cases h' with
      | star_more h _ => cases ih h
      | star_stop => rfl
  | plus _ _ ih iht => cases h' with
      | plus h ht =>
          cases ih h
          exact iht ht
      | plus_reject h => cases ih h
  | plus_reject _ ih => cases h' with
      | plus h _ => cases ih h
      | plus_reject => rfl
  | option_some _ ih => cases h' with
      | option_some h => exact ih h
      | option_none h => cases ih h
  | option_none _ ih => cases h' with
      | option_some h => cases ih h
      | option_none => rfl
  | and _ ih => cases h' with
      | and => rfl
      | and_reject h => cases ih h
  | and_reject _ ih => cases h' with
      | and h => cases ih h
      | and_reject => rfl
  | not _ ih => cases h' with
      | not => rfl
      | not_reject h => cases ih h
  | not_reject _ ih => cases h' with
      | not h => cases ih h
      | not_reject => rfl

theorem Matches.unique {r p o o'} (h : Matches g text r p o) (h' : Matches g text r p o') : o = o' :=
  Derives.unique h h'

/-! ## Sequences in parts -/

theorem Derives.append {xs ys p q o} (h : Derives g text (.sequence xs) p (.accepted q))
    (ht : Derives g text (.sequence ys) q o) : Derives g text (.sequence (xs ++ ys)) p o := by
  induction xs generalizing p with
  | nil => cases h; exact ht
  | cons r xs ih => cases h with
      | sequence_cons hr hrest => exact .sequence_cons hr (ih hrest)

theorem Derives.append_reject {xs ys p} (h : Derives g text (.sequence xs) p .rejected) :
    Derives g text (.sequence (xs ++ ys)) p .rejected := by
  induction xs generalizing p with
  | nil => cases h
  | cons r xs ih => cases h with
      | sequence_cons hr hrest => exact .sequence_cons hr (ih hrest)
      | sequence_reject hr => exact .sequence_reject hr

theorem Derives.of_append {xs ys p o} (h : Derives g text (.sequence (xs ++ ys)) p o) :
    (∃ q, Derives g text (.sequence xs) p (.accepted q) ∧ Derives g text (.sequence ys) q o) ∨
      Derives g text (.sequence xs) p .rejected := by
  induction xs generalizing p with
  | nil => exact .inl ⟨p, .sequence_nil, h⟩
  | cons r xs ih => cases h with
      | sequence_cons hr hrest =>
          rcases ih hrest with ⟨q, hxs, hys⟩ | hxs
          · exact .inl ⟨q, .sequence_cons hr hxs, hys⟩
          · exact .inr (.sequence_cons hr hxs)
      | sequence_reject hr => exact .inr (.sequence_reject hr)

/-- A rule matches as its parts do one after another. -/
theorem Derives.parts_iff {r p o} :
    Derives g text (.sequence ((g.body r).parts r)) p o ↔ Matches g text r p o := by
  have hone : Derives g text (.sequence [r]) p o ↔ Matches g text r p o := by
    constructor
    · intro h
      cases h with
      | sequence_cons hr hrest => cases hrest; exact hr
      | sequence_reject hr => exact hr
    · intro h
      cases o with
      | rejected => exact .sequence_reject h
      | accepted e => exact .sequence_cons h .sequence_nil
  cases hb : g.body r with
  | sequence rules => rw [Matches, hb]; rfl
  | _ => exact hone

/-! ## Literals, character by character -/

theorem Derives.literal_cons {c cs p o} (hc : text.char? p = some c)
    (h : Derives g text (.literal cs) (p + 1) o) : Derives g text (.literal (c :: cs)) p o := by
  have hrest := Buffer.rest_eq_cons hc
  cases h with
  | literal h =>
      have hcs : c :: cs <+: text.rest p := by simpa [hrest] using h
      rw [show p + 1 + cs.length = p + (c :: cs).length by simp only [List.length_cons]; omega]
      exact .literal hcs
  | literal_reject h => exact .literal_reject (by simpa [hrest] using h)

/-! ## Runs of characters -/

section Runs

variable {i : RuleId} {d : String} {test : Char → Bool} {p : Nat}

theorem Derives.predicate_of_nil (hi : g.body i = .predicate d test)
    (h : (text.rest p).takeWhile test = []) : Derives g text (g.body i) p .rejected := by
  rw [hi]
  refine .predicate_reject fun c hc => ?_
  rw [Buffer.rest_eq_cons hc, List.takeWhile_cons] at h
  simpa using h

theorem Derives.predicate_of_cons {c cs} (hi : g.body i = .predicate d test)
    (h : (text.rest p).takeWhile test = c :: cs) :
    Derives g text (g.body i) p (.accepted (p + 1)) ∧ (text.rest (p + 1)).takeWhile test = cs := by
  rw [hi]
  cases hc : text.char? p with
  | none =>
      rw [Buffer.rest_eq_nil hc] at h
      cases h
  | some c' =>
      rw [Buffer.rest_eq_cons hc, List.takeWhile_cons] at h
      split at h
      · next ht =>
          cases h
          exact ⟨.predicate hc ht, rfl⟩
      · cases h

/-- A repeated predicate matches the longest run of characters that satisfy it. -/
theorem Derives.star_predicate {cs} (hi : g.body i = .predicate d test)
    (h : (text.rest p).takeWhile test = cs) : Derives g text (.star i) p (.accepted (p + cs.length)) := by
  induction cs generalizing p with
  | nil => exact .star_stop (.predicate_of_nil hi h)
  | cons c cs ih =>
      obtain ⟨hone, hrest⟩ := Derives.predicate_of_cons hi h
      rw [List.length_cons, Nat.add_comm cs.length, ← Nat.add_assoc]
      exact .star_more hone (ih hrest)

theorem Derives.plus_predicate {c cs} (hi : g.body i = .predicate d test)
    (h : (text.rest p).takeWhile test = c :: cs) :
    Derives g text (.plus i) p (.accepted (p + (c :: cs).length)) := by
  obtain ⟨hone, hrest⟩ := Derives.predicate_of_cons hi h
  rw [List.length_cons, Nat.add_comm cs.length, ← Nat.add_assoc]
  exact .plus hone (.star_predicate hi hrest)

end Runs

/-! ## Where a match ends -/

theorem Derives.bounds {b p o} (h : Derives g text b p o) {e : Nat} (he : o = .accepted e) :
    p ≤ e ∧ (p ≤ text.length → e ≤ text.length) := by
  induction h generalizing e with
  | literal h =>
      cases he
      exact ⟨Nat.le_add_right .., fun hp => Buffer.add_length_le_of_prefix hp h⟩
  | predicate hc =>
      cases he
      obtain ⟨hp, -⟩ := Buffer.char?_eq_some_iff.mp hc
      exact ⟨Nat.le_succ _, fun _ => hp⟩
  | sequence_nil | star_stop | option_none | and | not => cases he; exact ⟨Nat.le_refl _, id⟩
  | sequence_cons _ _ ih iht | star_more _ _ ih iht | plus _ _ ih iht =>
      obtain ⟨h₁, h₂⟩ := ih rfl
      obtain ⟨h₃, h₄⟩ := iht he
      exact ⟨Nat.le_trans h₁ h₃, fun hp => h₄ (h₂ hp)⟩
  | choice_first _ _ ih | option_some _ ih => exact ih he
  | choice_next _ _ _ _ iht => exact iht he
  | literal_reject | predicate_reject | sequence_reject | choice_nil | plus_reject | and_reject
  | not_reject => cases he

theorem Derives.start_le {b p e} (h : Derives g text b p (.accepted e)) : p ≤ e := (h.bounds rfl).1

theorem Derives.end_le {b p e} (h : Derives g text b p (.accepted e)) (hp : p ≤ text.length) :
    e ≤ text.length := (h.bounds rfl).2 hp

theorem Derives.accepted_of_star {i p o} (h : Derives g text (.star i) p o) : ∃ e, o = .accepted e := by
  cases h with
  | star_more _ _ => exact ⟨_, rfl⟩
  | star_stop _ => exact ⟨_, rfl⟩

theorem Derives.lt_of_star {i p q o} (hs : Derives g text (.star i) p o)
    (h : Derives g text (g.body i) p (.accepted q)) : p < q := by
  apply Nat.lt_of_le_of_ne h.start_le
  intro hpq
  subst hpq
  -- a round that stays where it was is followed by the same round, and the derivation has no end
  generalize hb : Body.star i = b at hs
  induction hs with
  | star_more h' _ _ ih =>
      cases hb
      cases h.unique h'
      exact ih h rfl
  | star_stop h' =>
      cases hb
      cases h.unique h'
  | _ => cases hb

end Packrat
