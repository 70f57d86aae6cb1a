import Packrat.Proofs.Ledger

/-!
# The first outcome stays

A table is asked for outcomes and told outcomes, in any order, and what it is told need not agree. It
answers with the first outcome that it was told for the key, and its counters say what was asked of it and
for how many keys it knows an outcome (`first_outcome_stays`).
-/

namespace Packrat

namespace Memo

/-! ## Requests -/

/-- What is asked of a table: to look a key up, or to remember an outcome. -/
inductive Request where
  | lookup (key : Key)
  | record (key : Key) (outcome : Outcome)
  deriving DecidableEq, Repr

/-- The outcome that the request gives for the key. -/
def Request.outcome? (k : Key) : Request → Option Outcome
  | .lookup _ => none
  | .record k' o => if k' = k then some o else none

/-- The first outcome that the requests give for the key. -/
def firstOutcome? (k : Key) (requests : List Request) : Option Outcome :=
  requests.findSome? (Request.outcome? k)

namespace Call

/-- The request that the call answers. -/
def request : Call → Request
  | .lookup k _ => .lookup k
  | .record k o => .record k o

def isLookup : Call → Bool
  | .lookup _ _ => true
  | .record _ _ => false

/-- Whether the call is a look-up that found an outcome. -/
def isHit : Call → Bool
  | .lookup _ answer => answer.isSome
  | .record _ _ => false

end Call

/-- Does what is asked; the call says what was answered. -/
def serve (m : Memo) : Request → Call × Memo
  | .lookup k =>
    let (answer, m') := m.lookup k
    (.lookup k answer, m')
  | .record k o => (.record k o, m.record k o)

/-- Serves the requests one after another; the calls are in the order of the requests. -/
def serveAll (m : Memo) : List Request → List Call × Memo
  | [] => ([], m)
  | q :: requests =>
    let (call, m') := m.serve q
    let (calls, m'') := m'.serveAll requests
    (call :: calls, m'')

variable {m m' m'' : Memo} {k : Key} {q : Request} {requests : List Request} {call : Call}
  {calls : List Call}

@[simp] theorem firstOutcome?_nil : firstOutcome? k [] = none := rfl

@[simp] theorem firstOutcome?_cons :
    firstOutcome? k (q :: requests) = (q.outcome? k).or (firstOutcome? k requests) := by
  rw [firstOutcome?, List.findSome?_cons]
  cases q.outcome? k <;> rfl

theorem isSome_outcome?_request : (call.request.outcome? k).isSome ↔ call.recorded? = some k := by
  cases call with
  | lookup k' answer => cases answer <;> simp [Call.request, Request.outcome?, Call.recorded?]
  | record k' o => by_cases hk : k' = k <;> simp [Call.request, Request.outcome?, Call.recorded?, hk]

theorem isSome_firstOutcome? :
    (firstOutcome? k (calls.map Call.request)).isSome ↔ k ∈ recorded calls := by
  simp [firstOutcome?, recorded, isSome_outcome?_request]

/-! ## Service -/

/-- The table `m` answers the requests, one after another, by the calls, and has then become `m'`. -/
structure Serves (m : Memo) (requests : List Request) (calls : List Call) (m' : Memo) : Prop where
  strategy : m'.strategy = m.strategy
  requested : calls.map Call.request = requests
  answers : ∀ (i : Nat) (k : Key), requests[i]? = some (.lookup k) →
    calls[i]? = some (.lookup k ((m.get? k).or (firstOutcome? k (requests.take i))))
  outcomes : ∀ k, m'.get? k = (m.get? k).or (firstOutcome? k requests)
  lookups : m'.stats.lookups = m.stats.lookups + calls.countP Call.isLookup
  hits : m'.stats.hits = m.stats.hits + calls.countP Call.isHit
  entries : m'.stats.entries + m.size = m.stats.entries + m'.size
  journal : m'.journal = m.journal.map (calls.reverse ++ ·)

namespace Serves

theorem nil : m.Serves [] [] m where
  strategy := rfl
  requested := rfl
  answers i k h := by cases h
  outcomes k := by simp
  lookups := rfl
  hits := rfl
  entries := rfl
  journal := by simp

theorem cons (h : m.Serves [q] [call] m') (h' : m'.Serves requests calls m'') :
    m.Serves (q :: requests) (call :: calls) m'' where
  strategy := h'.strategy.trans h.strategy
  requested := congrArg₂ List.cons (List.cons.inj h.requested).1 h'.requested
  answers i k hi := by
    cases i with
    | zero => exact h.answers 0 k hi
    | succ i =>
        have := h'.answers i k hi
        simpa [h.outcomes, Option.or_assoc] using this
  outcomes k := by simp [h'.outcomes, h.outcomes, Option.or_assoc]
  lookups := by
    rw [h'.lookups, h.lookups, Nat.add_assoc, ← List.countP_append, List.singleton_append]
  hits := by
    rw [h'.hits, h.hits, Nat.add_assoc, ← List.countP_append, List.singleton_append]
  entries := by
    have := h.entries
    have := h'.entries
    omega
  journal := by simp [h'.journal, h.journal, Function.comp_def]

theorem lookup (full : m.strategy = .full) :
    m.Serves [.lookup k] [.lookup k (m.get? k)] (m.lookup k).2 where
  strategy := strategy_lookup
  requested := rfl
  answers i k' h := by
    cases i with
    | zero =>
        cases h
        simp
    | succ i => cases h
  outcomes k' := by simp [Request.outcome?]
  lookups := by simp [Memo.lookup, full, log, Call.isLookup]
  hits := by
    simp only [Memo.lookup, full, log, List.countP_singleton, Call.isHit]
    cases m.get? k <;> rfl
  entries := by simp [Memo.lookup, full, log, size]
  journal := by simp [Memo.lookup, full, log]

theorem record {o : Outcome} (full : m.strategy = .full) :
    m.Serves [.record k o] [.record k o] (m.record k o) where
  strategy := strategy_record
  requested := rfl
  answers i k' h := by cases i <;> cases h
  outcomes k' := by
    rw [get?_record full]
    by_cases hk : k = k'
    · subst hk
      cases h : m.get? k <;> simp [Request.outcome?]
    · simp [Request.outcome?, hk]
  lookups := by
    simp only [Memo.record, full]
    split <;> rfl
  hits := by
    simp only [Memo.record, full]
    split <;> rfl
  entries := by
    simp only [Memo.record, full]
    split
    · rfl
    · next hk =>
        -- a key without an entry is new to the table
        simp only [log, size, Std.TreeMap.size_insert, hk, Bool.false_eq_true, if_false]
        omega
  journal := by
    simp only [Memo.record, full]
    split <;> rfl

theorem serve (full : m.strategy = .full) : m.Serves [q] [(m.serve q).1] (m.serve q).2 := by
  cases q with
  | lookup k =>
      have answered : (m.serve (.lookup k)).1 = .lookup k (m.get? k) := by
        simp [Memo.serve, lookup_fst, full]
      rw [answered]
      exact .lookup full
  | record k o => exact .record full

theorem serveAll (full : m.strategy = .full) :
    m.Serves requests (m.serveAll requests).1 (m.serveAll requests).2 := by
  induction requests generalizing m with
  | nil => exact .nil
  | cons q requests ih =>
      have hq : m.Serves [q] [(m.serve q).1] (m.serve q).2 := .serve full
      exact hq.cons (ih (hq.strategy.trans full))

end Serves

/-- A new table answers each look-up with the first outcome that it was told for the key before, if there
was one. It counts the look-ups, those that found an outcome, and the keys that it was told an outcome
for; its journal, if it keeps one, lists the calls. -/
theorem first_outcome_stays (fresh : m = .empty .full ∨ m = .journaling .full)
    (requests : List Request) :
    let calls := (m.serveAll requests).1
    let after := (m.serveAll requests).2
    calls.map Call.request = requests ∧
    (∀ (i : Nat) (k : Key), requests[i]? = some (.lookup k) →
      calls[i]? = some (.lookup k (firstOutcome? k (requests.take i)))) ∧
    after.stats? = some after.stats ∧
    after.stats.lookups = calls.countP Call.isLookup ∧
    after.stats.hits = calls.countP Call.isHit ∧
    after.stats.entries = after.size ∧
    after.size = (recorded calls).toFinset.card ∧
    after.journal = m.journal.map fun _ => calls.reverse := by
  intro calls after
  have full : m.strategy = .full := by rcases fresh with rfl | rfl <;> rfl
  have zero : m.stats = .zero := by rcases fresh with rfl | rfl <;> rfl
  have nothing : m.size = 0 := by rcases fresh with rfl | rfl <;> rfl
  have unknown : ∀ k, m.get? k = none := fun _ => get?_of_fresh fresh
  have h : m.Serves requests calls after := .serveAll full
  have told : after.known = (recorded calls).toFinset := by
    ext k
    rw [mem_known, Knows, h.outcomes, unknown, Option.none_or, ← h.requested, isSome_firstOutcome?,
      List.mem_toFinset]
  refine ⟨h.requested, fun i k hi => ?_, ?_, ?_, ?_, ?_, ?_, ?_⟩
  · simpa [unknown] using h.answers i k hi
  · simp [stats?, h.strategy, full]
  · simpa [zero, Stats.zero] using h.lookups
  · simpa [zero, Stats.zero] using h.hits
  · simpa [zero, Stats.zero, nothing] using h.entries
  · rw [← card_known, told]
  · rw [h.journal]
    rcases fresh with rfl | rfl <;> simp [empty, journaling]

/-- Three outcomes are recorded for one key, which is looked up before, in between and after; the same rule
is looked up at another position, and another rule at the same one. -/
theorem first_outcome_stays_conflicting :
    let a : Key := ⟨1, 0⟩
    let b : Key := ⟨2, 0⟩
    let requests : List Request := [.lookup a, .record a (.accepted 1), .record b .rejected,
      .record a .rejected, .lookup a, .record a (.accepted 5), .lookup b, .lookup ⟨1, 1⟩, .lookup a]
    let calls := ((empty .full).serveAll requests).1
    let after := ((empty .full).serveAll requests).2
    calls[0]? = some (.lookup a none) ∧ calls[4]? = some (.lookup a (some (.accepted 1))) ∧
      calls[6]? = some (.lookup b (some .rejected)) ∧ calls[7]? = some (.lookup ⟨1, 1⟩ none) ∧
      calls[8]? = some (.lookup a (some (.accepted 1))) ∧
      after.stats.lookups = 5 ∧ after.stats.hits = 3 ∧ after.stats.entries = 2 ∧ after.size = 2 := by
  intro a b requests calls after
  have stays := first_outcome_stays (.inl rfl) requests
  extract_lets at stays
  obtain ⟨-, answers, -, lookups, hits, entries, told, -⟩ := stays
  have keys : (recorded calls).toFinset = {a, b} := by decide
  have two : after.size = 2 := by
    rw [told, keys]
    rfl
  refine ⟨answers 0 a rfl, answers 4 a rfl, answers 6 b rfl, answers 7 ⟨1, 1⟩ rfl, answers 8 a rfl,
    lookups.trans ?_, hits.trans ?_, entries.trans two, two⟩
  all_goals decide

end Memo

end Packrat
