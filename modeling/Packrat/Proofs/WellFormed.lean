import Mathlib.Data.Set.Finite.Lattice
import Mathlib.Order.WellFounded
import Packrat.Proofs.Recognition

/-!
# Well-formed grammars

Which bodies can match without consuming anything, and which rules a body may ask for where it starts.
A grammar is well formed if no rule asks for itself in that way and nothing that can match nothing is
repeated. The left calls of a well-formed grammar are well founded (`Grammar.WellFormed.acc`), and what
matches without moving is nullable (`Derives.nullable`).
-/

namespace Packrat

open Relation (TransGen)

variable {V : Type}

namespace Body

/-- The rule that a repetition repeats. -/
def repeated? : Body → Option RuleId
  | .star item | .plus item => some item
  | _ => none

end Body

namespace Grammar

variable (g : Grammar V)

/-- The body can match nothing. -/
inductive Nullable : Body → Prop
  | literal : Nullable (.literal [])
  | sequence {rules} (h : ∀ r ∈ rules, Nullable (g.body r)) : Nullable (.sequence rules)
  | choice {alternatives a r} (ha : a ∈ alternatives) (hr : g.alternativeTarget a = some r)
      (h : Nullable (g.body r)) : Nullable (.choice alternatives)
  | star {i} : Nullable (.star i)
  | plus {i} (h : Nullable (g.body i)) : Nullable (.plus i)
  | option {i} : Nullable (.option i)
  | and {i} : Nullable (.and i)
  | not {i} : Nullable (.not i)

/-- Matching the body may ask for the rule where it starts. -/
inductive LeftCalls : Body → RuleId → Prop
  | alternative {alternatives a r} (ha : a ∈ alternatives) (hr : g.alternativeTarget a = some r) :
      LeftCalls (.choice alternatives) r
  | operand {b i} (h : b.operand? = some i) : LeftCalls b i
  | child {rules earlier r later} (hrules : rules = earlier ++ r :: later)
      (h : ∀ r' ∈ earlier, g.Nullable (g.body r')) : LeftCalls (.sequence rules) r

/-- The second rule left-calls the first. -/
abbrev LeftOf (r' r : RuleId) : Prop := g.LeftCalls (g.body r) r'

/-- Below the root no deferred alternative is without a target, no rule left-calls itself through any
number of rules, and nothing nullable is repeated. -/
structure WellFormed (root : RuleId) : Prop where
  complete : g.Complete root
  acyclic : ∀ r, g.Reaches root r → ¬ TransGen g.LeftOf r r
  consuming : ∀ r i, g.Reaches root r → (g.body r).repeated? = some i → ¬ g.Nullable (g.body i)

variable {g}

theorem mem_operands_of_operand? {b : Body} {i} (h : b.operand? = some i) : i ∈ g.operands b := by
  cases b with
  | star | plus | option | and | not => cases h; exact List.mem_singleton_self _
  | literal | predicate | sequence | choice => cases h

theorem operand?_of_repeated? {b : Body} {i} (h : b.repeated? = some i) : b.operand? = some i := by
  cases b with
  | star | plus => exact h
  | literal | predicate | sequence | choice | option | and | not => cases h

theorem LeftCalls.mem_operands {b r} (h : g.LeftCalls b r) : r ∈ g.operands b := by
  cases h with
  | alternative ha hr => exact List.mem_filterMap.mpr ⟨_, ha, hr⟩
  | operand h => exact mem_operands_of_operand? h
  | child hrules =>
      rw [hrules]
      exact List.mem_append_right _ List.mem_cons_self

/-! ## Left calls are well founded -/

theorem body_of_size_lt {r : RuleId} (h : g.rules.size < r) : g.body r = .choice [] := by
  cases r with
  | zero => rfl
  | succ r => simp [body, Nat.lt_succ_iff.mp h]

theorem le_size_of_mem_operands {r i : RuleId} (h : i ∈ g.operands (g.body r)) : r ≤ g.rules.size := by
  by_contra hr
  rw [body_of_size_lt (Nat.not_le.mp hr)] at h
  cases h

theorem le_size_of_leftOf {r r' : RuleId} (h : g.LeftOf r' r) : r ≤ g.rules.size :=
  le_size_of_mem_operands h.mem_operands

theorem WellFormed.acc {root r : RuleId} (wf : g.WellFormed root) (hr : g.Reaches root r) :
    Acc g.LeftOf r := by
  -- the rules that left-call any are finitely many, and no chain of left calls meets one of them twice
  let Calling := { r : RuleId // g.Reaches root r ∧ r ≤ g.rules.size }
  have hfinite : Finite Calling :=
    ((Set.finite_le_nat g.rules.size).subset fun _ h => h.2).to_subtype
  have hwf : WellFounded fun x y : Calling => TransGen g.LeftOf x.1 y.1 := by
    have : IsTrans Calling fun x y => TransGen g.LeftOf x.1 y.1 := ⟨fun _ _ _ => .trans⟩
    have : Std.Irrefl fun x y : Calling => TransGen g.LeftOf x.1 y.1 := ⟨fun x => wf.acyclic x.1 x.2.1⟩
    exact Finite.wellFounded_of_trans_of_irrefl _
  have hcalling : ∀ x : Calling, Acc g.LeftOf x.1 := by
    intro x
    induction x using hwf.induction with
    | _ x ih =>
        refine ⟨_, fun r' hr' => ⟨_, fun r'' hr'' => ?_⟩⟩
        have hreach : g.Reaches root r' := x.2.1.tail hr'.mem_operands
        exact (ih ⟨r', hreach, le_size_of_leftOf hr''⟩ (.single hr')).inv hr''
  refine ⟨_, fun r' hr' => ?_⟩
  exact (hcalling ⟨r, hr, le_size_of_leftOf hr'⟩).inv hr'

end Grammar

/-! ## What does not move is nullable -/

variable {g : Grammar V} {text : Buffer}

theorem Derives.nullable {b p o} (h : Derives g text b p o) (ho : o = .accepted p) : g.Nullable b := by
  induction h with
  | literal =>
      simp only [Outcome.accepted.injEq, Nat.add_eq_left, List.length_eq_zero_iff] at ho
      exact ho ▸ .literal
  | predicate => simp at ho
  | sequence_nil => exact .sequence fun _ h => absurd h List.not_mem_nil
  | sequence_cons h ht ih iht =>
      subst ho
      cases Nat.le_antisymm h.start_le ht.start_le
      cases iht rfl with
      | sequence hrest => exact .sequence (List.forall_mem_cons.mpr ⟨ih rfl, hrest⟩)
  | choice_first ha _ ih => exact .choice List.mem_cons_self ha (ih ho)
  | choice_next _ _ _ _ iht =>
      cases iht ho with
      | choice ha hr h => exact .choice (List.mem_cons_of_mem _ ha) hr h
  | plus h ht ih =>
      cases ho
      cases Nat.le_antisymm h.start_le ht.start_le
      exact .plus (ih rfl)
  | star_more | star_stop => exact .star
  | option_some | option_none => exact .option
  | and => exact .and
  | not => exact .not
  | literal_reject | predicate_reject | sequence_reject | choice_nil | plus_reject | and_reject
  | not_reject => cases ho

/-- What is not nullable consumes something whenever it matches. -/
theorem Derives.lt_of_not_nullable {b p e} (h : Derives g text b p (.accepted e))
    (hb : ¬ g.Nullable b) : p < e := by
  apply Nat.lt_of_le_of_ne h.start_le
  rintro rfl
  exact hb (h.nullable rfl)

/-! ## Checking that a grammar is well formed -/

namespace Grammar

/-- Whether the body can match nothing, if no rule can but those in `nullable`. -/
def mayBeEmpty (g : Grammar V) (nullable : List RuleId) : Body → Bool
  | .literal cs => cs.isEmpty
  | .predicate _ _ => false
  | .sequence rules => rules.all fun r => r ∈ nullable
  | .choice alternatives => alternatives.any fun a => (g.alternativeTarget a).any fun r => r ∈ nullable
  | .plus item => item ∈ nullable
  | .star _ | .option _ | .and _ | .not _ => true

/-- The rules that can come first among those matched one after another. -/
def firsts (nullable : List RuleId) : List RuleId → List RuleId
  | [] => []
  | r :: rest => if r ∈ nullable then r :: firsts nullable rest else [r]

def leftOperands (g : Grammar V) (nullable : List RuleId) : Body → List RuleId
  | .sequence rules => firsts nullable rules
  | b => g.operands b

/-- Seen rule by rule, only rules in `nullable` can match nothing, none of them is repeated, and left
calls go down in rank. -/
structure Ranked (g : Grammar V) (nullable : List RuleId) (rank : RuleId → Nat) : Prop where
  closed : ∀ r ≤ g.rules.size, g.mayBeEmpty nullable (g.body r) = true → r ∈ nullable
  falls : ∀ r ≤ g.rules.size, ∀ r' ∈ g.leftOperands nullable (g.body r), rank r' < rank r
  consuming : ∀ r ≤ g.rules.size, ∀ i ∈ (g.body r).repeated?, i ∉ nullable

variable {nullable : List RuleId} {rank : RuleId → Nat}

theorem Ranked.mem_of_mayBeEmpty {r} (h : g.Ranked nullable rank)
    (hr : g.mayBeEmpty nullable (g.body r) = true) : r ∈ nullable := by
  by_cases hsize : r ≤ g.rules.size
  · exact h.closed r hsize hr
  · simp [body_of_size_lt (Nat.not_le.mp hsize), mayBeEmpty] at hr

theorem Ranked.mayBeEmpty_of_nullable {b} (h : g.Ranked nullable rank) (hb : g.Nullable b) :
    g.mayBeEmpty nullable b = true := by
  induction hb with
  | literal | star | option | and | not => rfl
  | sequence _ ih =>
      simp only [mayBeEmpty, List.all_eq_true, decide_eq_true_eq]
      exact fun r hr => h.mem_of_mayBeEmpty (ih r hr)
  | choice ha hr _ ih =>
      simp only [mayBeEmpty, List.any_eq_true]
      exact ⟨_, ha, by simpa [hr] using h.mem_of_mayBeEmpty ih⟩
  | plus _ ih => simpa [mayBeEmpty] using h.mem_of_mayBeEmpty ih

theorem Ranked.mem_nullable {r} (h : g.Ranked nullable rank) (hr : g.Nullable (g.body r)) :
    r ∈ nullable := h.mem_of_mayBeEmpty (h.mayBeEmpty_of_nullable hr)

theorem mem_firsts {earlier later : List RuleId} {r : RuleId} (h : ∀ r' ∈ earlier, r' ∈ nullable) :
    r ∈ firsts nullable (earlier ++ r :: later) := by
  induction earlier with
  | nil =>
      simp only [List.nil_append, firsts]
      split <;> simp
  | cons r' earlier ih =>
      obtain ⟨hr', hrest⟩ := List.forall_mem_cons.mp h
      simp only [List.cons_append, firsts, hr', if_true]
      exact List.mem_cons_of_mem _ (ih hrest)

theorem Ranked.lt_of_leftOf {r r'} (h : g.Ranked nullable rank) (hr : g.LeftOf r' r) :
    rank r' < rank r := by
  apply h.falls r (le_size_of_leftOf hr)
  have hmem := hr.mem_operands
  unfold LeftOf at hr
  generalize g.body r = b at hr hmem ⊢
  cases hr with
  | child hrules hnullable =>
      rw [hrules]
      exact mem_firsts fun r' hr' => h.mem_nullable (hnullable r' hr')
  | alternative => exact hmem
  | operand hb =>
      cases b with
      | sequence => cases hb
      | _ => exact hmem

theorem Ranked.wellFormed {root} (h : g.Ranked nullable rank) (complete : g.Complete root) :
    g.WellFormed root where
  complete := complete
  acyclic r _ hcycle := by
    have hlt : ∀ {r' r}, TransGen g.LeftOf r' r → rank r' < rank r := by
      intro r' r hr
      induction hr with
      | single hr => exact h.lt_of_leftOf hr
      | tail _ hr ih => exact Nat.lt_trans ih (h.lt_of_leftOf hr)
    exact Nat.lt_irrefl _ (hlt hcycle)
  consuming r i _ hi hnullable := by
    have hr : g.LeftOf i r := .operand (operand?_of_repeated? hi)
    exact h.consuming r (le_size_of_leftOf hr) i hi (h.mem_nullable hnullable)

end Grammar

end Packrat
