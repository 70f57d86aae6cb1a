import Mathlib.Data.Finset.Card
import Mathlib.Data.List.Perm.Basic
import Packrat.Memo

/-!
# The books of a memo table

The counters and the journal of a table, while the outcomes of some keys are still being worked out.
A look-up that finds nothing opens the account of its key and recording an outcome closes it, so the
books stay balanced as long as nothing is recorded twice (`Balanced.record`).
-/

namespace Packrat

namespace Memo

/-! ## Answers -/

theorem lookup_fst {m : Memo} {k : Key} :
    (m.lookup k).1 = if m.strategy = .full then m.get? k else none := by
  unfold lookup
  cases h : m.strategy <;> simp

@[simp] theorem strategy_lookup {m : Memo} {k : Key} : (m.lookup k).2.strategy = m.strategy := by
  unfold lookup
  cases h : m.strategy <;> simp [log, h]

@[simp] theorem strategy_record {m : Memo} {k : Key} {o : Outcome} :
    (m.record k o).strategy = m.strategy := by
  unfold record
  split
  · rfl
  · split <;> rfl

theorem get?_record_none {m : Memo} {k key : Key} {o : Outcome} (h : m.strategy = .none) :
    (m.record k o).get? key = m.get? key := by
  simp [record, h]

theorem get?_empty {s : Strategy} {k : Key} : (empty s).get? k = none := by
  simp [empty, get?]

theorem get?_journaling {s : Strategy} {k : Key} : (journaling s).get? k = none := by
  simp [journaling, get?]

theorem get?_of_fresh {m : Memo} {k : Key} (h : m = .empty .full ∨ m = .journaling .full) :
    m.get? k = none := by
  rcases h with rfl | rfl
  · exact get?_empty
  · exact get?_journaling

theorem contains_eq_isSome_get? {m : Memo} {k : Key} : m.table.contains k = (m.get? k).isSome := by
  simp [get?, Std.TreeMap.isSome_getElem?_eq_contains]

/-! ## Known keys -/

/-- The outcome of the key is known. -/
def Knows (m : Memo) (k : Key) : Prop := (m.get? k).isSome

instance {m : Memo} {k : Key} : Decidable (m.Knows k) := inferInstanceAs (Decidable (_ = true))

/-- The keys whose outcomes are known. -/
def known (m : Memo) : Finset Key := m.table.keys.toFinset

@[simp] theorem mem_known {m : Memo} {k : Key} : k ∈ m.known ↔ m.Knows k := by
  rw [known, List.mem_toFinset, Std.TreeMap.mem_keys, Std.TreeMap.mem_iff_contains, contains_eq_isSome_get?,
    Knows]

theorem card_known {m : Memo} : m.known.card = m.size := by
  have hnodup : m.table.keys.Nodup := by
    apply m.table.distinct_keys.imp
    rintro k _ hk rfl
    exact hk Std.ReflCmp.compare_self
  rw [known, List.toFinset_card_of_nodup hnodup, Std.TreeMap.length_keys, size]

/-! ## The journal -/

namespace Call

/-- The key of a look-up that found nothing. -/
def missed? : Call → Option Key
  | .lookup k none => some k
  | _ => none

/-- The key of an outcome that was recorded. -/
def recorded? : Call → Option Key
  | .record k _ => some k
  | _ => none

end Call

/-- The keys that were looked up in vain. -/
def missed (calls : List Call) : List Key := calls.filterMap Call.missed?

/-- The keys that outcomes were recorded for. -/
def recorded (calls : List Call) : List Key := calls.filterMap Call.recorded?

@[simp] theorem missed_nil : missed [] = [] := rfl

@[simp] theorem recorded_nil : recorded [] = [] := rfl

@[simp] theorem missed_hit {k : Key} {o : Outcome} {calls : List Call} :
    missed (.lookup k (some o) :: calls) = missed calls := rfl

@[simp] theorem missed_miss {k : Key} {calls : List Call} :
    missed (.lookup k none :: calls) = k :: missed calls := rfl

@[simp] theorem missed_record {k : Key} {o : Outcome} {calls : List Call} :
    missed (.record k o :: calls) = missed calls := rfl

@[simp] theorem recorded_lookup {k : Key} {answer : Option Outcome} {calls : List Call} :
    recorded (.lookup k answer :: calls) = recorded calls := rfl

@[simp] theorem recorded_record {k : Key} {o : Outcome} {calls : List Call} :
    recorded (.record k o :: calls) = k :: recorded calls := rfl

/-! ## Balance -/

/-- The journal of a table agrees with its entries while the keys of `pending` are being evaluated:
no key was recorded twice, and what was looked up in vain is recorded or pending. -/
structure Settles (m : Memo) (pending : List Key) (calls : List Call) : Prop where
  once : (recorded calls).Nodup
  stored : ∀ k, k ∈ recorded calls ↔ (m.get? k).isSome
  missed : (missed calls).Perm (pending ++ recorded calls)

/-- The books of a table are in order while the keys of `pending` are being evaluated. -/
structure Balanced (m : Memo) (pending : List Key) : Prop where
  entries : m.stats.entries = m.size
  lookups : m.stats.lookups = m.stats.hits + m.stats.entries + pending.length
  journal : ∀ calls, m.journal = some calls → m.Settles pending calls

theorem Balanced.empty {s : Strategy} : (empty s).Balanced [] :=
  ⟨rfl, rfl, fun _ h => by cases h⟩

theorem Balanced.journaling {s : Strategy} : (journaling s).Balanced [] := by
  refine ⟨rfl, rfl, fun calls h => ?_⟩
  cases h
  exact ⟨.nil, by simp [get?_journaling], .refl _⟩

section Steps

variable {m : Memo} {k : Key} {pending : List Key}

theorem log_journal {call : Call} {calls : List Call} (h : (m.log call).journal = some calls) :
    ∃ before, m.journal = some before ∧ calls = call :: before := by
  obtain ⟨before, hb, rfl⟩ := Option.map_eq_some_iff.mp h
  exact ⟨before, hb, rfl⟩

theorem Balanced.hit {o : Outcome} (hb : m.Balanced pending) (h : (m.lookup k).1 = some o) :
    (m.lookup k).2.Balanced pending := by
  have hfull : m.strategy = .full := by
    by_contra hs
    simp [lookup_fst, hs] at h
  have hk : m.get? k = some o := by simpa [lookup_fst, hfull] using h
  simp only [lookup, hfull, hk, Option.isSome_some, if_true]
  refine ⟨hb.entries, ?_, fun calls hc => ?_⟩
  · have := hb.lookups
    simp only [log]
    omega
  · obtain ⟨before, hbefore, rfl⟩ := log_journal hc
    have hj := hb.journal before hbefore
    exact ⟨hj.once, hj.stored, hj.missed⟩

/-- A look-up in vain leaves its key pending. -/
theorem Balanced.miss (hb : m.Balanced pending) (hfull : m.strategy = .full) (h : m.get? k = none) :
    (m.lookup k).2.Balanced (k :: pending) := by
  simp only [lookup, hfull, h, Option.isSome_none, Bool.false_eq_true, if_false]
  refine ⟨hb.entries, ?_, fun calls hc => ?_⟩
  · have := hb.lookups
    simp only [log, List.length_cons]
    omega
  · obtain ⟨before, hbefore, rfl⟩ := log_journal hc
    have hj := hb.journal before hbefore
    exact ⟨hj.once, hj.stored, hj.missed.cons k⟩

/-- The first outcome of a pending key closes its account. -/
theorem Balanced.record {o : Outcome} (hb : m.Balanced (k :: pending)) (hfull : m.strategy = .full)
    (h : m.get? k = none) : (m.record k o).Balanced pending := by
  have hget : ∀ key, ((m.record k o).get? key) = if k = key then some o else m.get? key := by
    intro key
    simp [get?_record hfull, h]
  have hcon : m.table.contains k = false := by simp [contains_eq_isSome_get?, h]
  have heq : m.record k o = Memo.log (.record k o) { m with
      table := m.table.insert k o
      stats := { m.stats with entries := m.stats.entries + 1 } } := by
    simp [Memo.record, hfull, hcon]
  rw [heq] at hget ⊢
  refine ⟨?_, ?_, fun calls hc => ?_⟩
  · simp [log, size, Std.TreeMap.size_insert, hcon, hb.entries]
  · have := hb.lookups
    simp only [log, List.length_cons] at this ⊢
    omega
  · obtain ⟨before, hbefore, rfl⟩ := log_journal hc
    have hj := hb.journal before hbefore
    refine ⟨?_, ?_, ?_⟩
    · rw [recorded_record, List.nodup_cons]
      refine ⟨fun hmem => ?_, hj.once⟩
      -- a recorded key has an entry, and `k` has none yet
      have := (hj.stored k).mp hmem
      simp [h] at this
    · intro key
      rw [recorded_record, List.mem_cons, hj.stored key, hget]
      by_cases he : k = key
      · simp [he]
      · simp [he, Ne.symm he]
    · simpa using hj.missed.trans List.perm_middle.symm

end Steps

end Memo

end Packrat
