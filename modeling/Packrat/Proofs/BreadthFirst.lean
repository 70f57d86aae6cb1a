import Mathlib.Data.List.Nodup
import Mathlib.Logic.Relation
import Mathlib.Order.Lattice.Nat
import Packrat.Grammar.Listing

/-!
# Breadth-first order

A walk that takes the front of a queue and appends whatever is new there. What has been taken and what is
queued form a frontier (`Frontier`): no step leads from what has been taken to anything that is not queued,
and distances from the root never fall along it. Taking the front keeps it a frontier (`Frontier.step`),
and where nothing is queued everything within reach has been taken (`Frontier.mem_iff`).
-/

namespace Packrat

open Relation (ReflTransGen)

section

variable {α : Type} {next : α → List α} {root a b : α} {n : Nat}

/-! ## Distances -/

/-- The second is a next one of the first. -/
abbrev Leads (next : α → List α) (a b : α) : Prop := b ∈ next a

/-- So many steps from the root to another. -/
inductive Steps (next : α → List α) (root : α) : Nat → α → Prop
  | refl : Steps next root 0 root
  | tail {k u v} (h : Steps next root k u) (hv : Leads next u v) : Steps next root (k + 1) v

/-- The least number of steps from the root. -/
noncomputable def distance (next : α → List α) (root a : α) : Nat := sInf {n | Steps next root n a}

theorem exists_steps (h : ReflTransGen (Leads next) root a) : ∃ n, Steps next root n a := by
  induction h with
  | refl => exact ⟨0, .refl⟩
  | tail _ hb ih =>
      obtain ⟨n, hn⟩ := ih
      exact ⟨n + 1, hn.tail hb⟩

theorem Steps.distance_le (h : Steps next root n a) : distance next root a ≤ n := Nat.sInf_le h

theorem steps_distance (h : ReflTransGen (Leads next) root a) : Steps next root (distance next root a) a :=
  Nat.sInf_mem (exists_steps h)

theorem distance_le_succ (h : ReflTransGen (Leads next) root a) (hb : Leads next a b) :
    distance next root b ≤ distance next root a + 1 := ((steps_distance h).tail hb).distance_le

/-- A way out of a set leaves it by one of its steps. -/
theorem Steps.exists_leaving {s : List α} (h : Steps next root n a) (hroot : root ∈ s) (ha : a ∉ s) :
    ∃ k u v, Steps next root k u ∧ k < n ∧ u ∈ s ∧ Leads next u v ∧ v ∉ s := by
  induction h with
  | refl => exact absurd hroot ha
  | @tail n u v h hv ih =>
      by_cases hu : u ∈ s
      · exact ⟨n, u, v, h, Nat.lt_succ_self n, hu, hv, ha⟩
      · obtain ⟨k, u', v', hk, hlt, hrest⟩ := ih hu
        exact ⟨k, u', v', hk, Nat.lt_succ_of_lt hlt, hrest⟩

end

/-! ## What is new -/

namespace Grammar

variable {seen rules : List RuleId} {r : RuleId}

theorem mem_discover_fst : r ∈ (discover seen rules).1 ↔ r ∈ rules ∧ r ∉ seen := by
  induction rules generalizing seen with
  | nil => simp [discover]
  | cons r' rest ih =>
      unfold discover
      split
      · next hseen =>
          rw [ih, List.mem_cons]
          refine and_congr_left fun hr => ?_
          exact ⟨.inr, fun h => h.resolve_left fun he => hr (he ▸ hseen)⟩
      · next hseen =>
          rw [List.mem_cons, ih, List.mem_cons, List.mem_cons, not_or]
          by_cases hr : r = r'
          · simp [hr, hseen]
          · simp [hr]

theorem nodup_discover_fst : (discover seen rules).1.Nodup := by
  induction rules generalizing seen with
  | nil => exact List.nodup_nil
  | cons r rest ih =>
      unfold discover
      split
      · exact ih
      · refine List.nodup_cons.mpr ⟨fun hr => ?_, ih⟩
        exact (mem_discover_fst.mp hr).2 List.mem_cons_self

theorem mem_discover_snd : r ∈ (discover seen rules).2 ↔ r ∈ seen ∨ r ∈ rules := by
  induction rules generalizing seen with
  | nil => simp [discover]
  | cons r' rest ih =>
      unfold discover
      split
      · next hseen =>
          rw [ih, List.mem_cons]
          refine ⟨Or.imp_right .inr, ?_⟩
          rintro (h | rfl | h)
          · exact .inl h
          · exact .inl hseen
          · exact .inr h
      · rw [ih, List.mem_cons, List.mem_cons, or_assoc, or_left_comm]

end Grammar

/-! ## Frontiers -/

/-- What has been taken, what is queued and what has been seen on a walk from the root. -/
structure Frontier (next : RuleId → List RuleId) (root : RuleId) (taken queue seen : List RuleId) : Prop where
  mem_seen : ∀ r, r ∈ seen ↔ r ∈ taken ++ queue
  nodup : (taken ++ queue).Nodup
  root_mem : root ∈ taken ++ queue
  reached : ∀ r ∈ taken ++ queue, ReflTransGen (Leads next) root r
  closed : ∀ r ∈ taken, ∀ r' ∈ next r, r' ∈ taken ++ queue
  sorted : (taken ++ queue).Pairwise fun r r' => distance next root r ≤ distance next root r'
  near : ∀ r ∈ queue.head?, ∀ r' ∈ queue, distance next root r' ≤ distance next root r + 1

namespace Frontier

variable {next : RuleId → List RuleId} {root r : RuleId} {taken queue seen : List RuleId}

theorem start : Frontier next root [] [root] [root] where
  mem_seen _ := .rfl
  nodup := List.nodup_singleton root
  root_mem := List.mem_singleton_self root
  reached r hr := List.mem_singleton.mp hr ▸ .refl
  closed _ hr := absurd hr List.not_mem_nil
  sorted := List.pairwise_singleton ..
  near r hr r' hr' := by
    cases hr
    cases List.mem_singleton.mp hr'
    exact Nat.le_succ _

theorem le_of_mem_queue {r' : RuleId} (h : Frontier next root taken (r :: queue) seen)
    (hr' : r' ∈ r :: queue) : distance next root r ≤ distance next root r' := by
  rcases List.mem_cons.mp hr' with rfl | hr'
  · exact Nat.le_refl _
  · exact (List.pairwise_cons.mp (List.pairwise_append.mp h.sorted).2.1).1 r' hr'

/-- What is new at the front is one step further from the root than the front. -/
theorem distance_new {t : RuleId} (h : Frontier next root taken (r :: queue) seen) (ht : Leads next r t)
    (hnew : t ∉ taken ++ r :: queue) : distance next root t = distance next root r + 1 := by
  have hr : ReflTransGen (Leads next) root r :=
    h.reached r (List.mem_append_right _ List.mem_cons_self)
  refine Nat.le_antisymm (distance_le_succ hr ht) ?_
  -- a shortest way to the new rule leaves the frontier from the queue, and the front is nearest there
  obtain ⟨k, u, v, hk, hlt, hu, hv, hv'⟩ := (steps_distance (hr.tail ht)).exists_leaving h.root_mem hnew
  have hqueued : u ∈ r :: queue :=
    (List.mem_append.mp hu).resolve_left fun hdone => hv' (h.closed u hdone v hv)
  exact Nat.lt_of_le_of_lt (Nat.le_trans (h.le_of_mem_queue hqueued) hk.distance_le) hlt

variable {fresh seen' : List RuleId}

theorem sorted_append (h : Frontier next root taken (r :: queue) seen)
    (hfresh : ∀ t ∈ fresh, distance next root t = distance next root r + 1) :
    (taken ++ r :: queue ++ fresh).Pairwise fun r r' => distance next root r ≤ distance next root r' := by
  refine List.pairwise_append.mpr ⟨h.sorted, List.pairwise_of_forall_mem_list fun t ht t' ht' => ?_, ?_⟩
  · exact Nat.le_of_eq ((hfresh t ht).trans (hfresh t' ht').symm)
  · intro u hu t ht
    rw [hfresh t ht]
    rcases List.mem_append.mp hu with hu | hu
    · exact Nat.le_succ_of_le ((List.pairwise_append.mp h.sorted).2.2 u hu r List.mem_cons_self)
    · exact h.near r rfl u hu

theorem near_append (h : Frontier next root taken (r :: queue) seen)
    (hfresh : ∀ t ∈ fresh, distance next root t = distance next root r + 1) :
    ∀ u ∈ (queue ++ fresh).head?, ∀ t ∈ queue ++ fresh, distance next root t ≤ distance next root u + 1 := by
  have hrank : ∀ t ∈ queue ++ fresh, distance next root r ≤ distance next root t ∧
      distance next root t ≤ distance next root r + 1 := by
    intro t ht
    rcases List.mem_append.mp ht with ht | ht
    · have ht := List.mem_cons_of_mem r ht
      exact ⟨h.le_of_mem_queue ht, h.near r rfl t ht⟩
    · have heq := hfresh t ht
      exact ⟨heq ▸ Nat.le_succ _, Nat.le_of_eq heq⟩
  intro u hu t ht
  exact Nat.le_trans (hrank t ht).2 (Nat.succ_le_succ (hrank u (List.mem_of_mem_head? hu)).1)

/-- The front is taken and what is new there is queued. -/
theorem advance (h : Frontier next root taken (r :: queue) seen)
    (hfresh : ∀ t, t ∈ fresh ↔ t ∈ next r ∧ t ∉ taken ++ r :: queue) (hnodup : fresh.Nodup)
    (hseen : ∀ t, t ∈ seen' ↔ t ∈ taken ++ r :: queue ∨ t ∈ fresh) :
    Frontier next root (taken ++ [r]) (queue ++ fresh) seen' := by
  have hall : taken ++ [r] ++ (queue ++ fresh) = taken ++ r :: queue ++ fresh := by simp
  have hr : ReflTransGen (Leads next) root r :=
    h.reached r (List.mem_append_right _ List.mem_cons_self)
  have hdistance : ∀ t ∈ fresh, distance next root t = distance next root r + 1 := fun t ht =>
    h.distance_new ((hfresh t).mp ht).1 ((hfresh t).mp ht).2
  refine ⟨fun t => ?_, hall ▸ ?_, hall ▸ List.mem_append_left _ h.root_mem, hall ▸ fun t ht => ?_,
    hall ▸ fun u hu t ht => ?_, hall ▸ h.sorted_append hdistance, h.near_append hdistance⟩
  · rw [hall, hseen, List.mem_append (t := fresh)]
  · exact List.nodup_append'.mpr ⟨h.nodup, hnodup, fun t ht hf => ((hfresh t).mp hf).2 ht⟩
  · rcases List.mem_append.mp ht with ht | ht
    · exact h.reached t ht
    · exact hr.tail ((hfresh t).mp ht).1
  · rcases List.mem_append.mp hu with hu | hu
    · exact List.mem_append_left _ (h.closed u hu t ht)
    · cases List.mem_singleton.mp hu
      by_cases hold : t ∈ taken ++ r :: queue
      · exact List.mem_append_left _ hold
      · exact List.mem_append_right _ ((hfresh t).mpr ⟨ht, hold⟩)

theorem step (h : Frontier next root taken (r :: queue) seen) :
    Frontier next root (taken ++ [r]) (queue ++ (Grammar.discover seen (next r)).1)
      (Grammar.discover seen (next r)).2 := by
  have hfresh : ∀ t, t ∈ (Grammar.discover seen (next r)).1 ↔
      t ∈ next r ∧ t ∉ taken ++ r :: queue := fun t => by
    rw [Grammar.mem_discover_fst, h.mem_seen]
  refine h.advance hfresh Grammar.nodup_discover_fst fun t => ?_
  rw [Grammar.mem_discover_snd, h.mem_seen, hfresh]
  by_cases ht : t ∈ taken ++ r :: queue
  · exact iff_of_true (.inl ht) (.inl ht)
  · rw [and_iff_left ht]

/-- Where nothing is queued, everything within reach has been taken. -/
theorem mem_iff (h : Frontier next root taken [] seen) :
    r ∈ taken ↔ ReflTransGen (Leads next) root r := by
  obtain ⟨-, -, root_mem, reached, closed, -, -⟩ := h
  simp only [List.append_nil] at root_mem reached closed
  refine ⟨reached r, fun hr => ?_⟩
  induction hr with
  | refl => exact root_mem
  | tail _ hl ih => exact closed _ ih _ hl

/-- Nothing is taken or queued twice, so there is no more of it than there is within reach. -/
theorem length_le {n : Nat} (h : Frontier next root taken queue seen)
    (hn : ∀ r, ReflTransGen (Leads next) root r → r ≤ n) : taken.length + queue.length ≤ n + 1 := by
  have hsub : taken ++ queue ⊆ List.range (n + 1) := fun r hr =>
    List.mem_range.mpr (Nat.lt_succ_of_le (hn r (h.reached r hr)))
  have hle := (h.nodup.subperm hsub).length_le
  rwa [List.length_append, List.length_range] at hle

end Frontier

end Packrat
