import Packrat.Config
import Std.Data.TreeMap

/-! Memo tables: what is known about a rule at a position. The first outcome recorded stays. -/

namespace Packrat

/-- Rules are numbered from one in the order in which they are made. -/
abbrev RuleId := Nat

inductive Outcome where
  | rejected
  | accepted (stop : Nat)
  deriving DecidableEq, Repr

namespace Memo

structure Key where
  rule : RuleId
  start : Nat
  deriving DecidableEq, Repr

namespace Key

def order : Key → Key → Ordering :=
  compareLex (compareOn Key.rule) (compareOn Key.start)

instance : Std.TransCmp order := inferInstanceAs (Std.TransCmp (compareLex _ _))

instance : Std.LawfulEqCmp order where
  compare_self := by simp [order, compareLex, compareOn]
  eq_of_compare {a b} h := by
    cases a; cases b
    simpa [order, compareLex, compareOn, Ordering.then_eq_eq, Nat.compare_eq_eq] using h

end Key

structure Stats where
  lookups : Nat
  hits : Nat
  entries : Nat
  deriving DecidableEq, Repr

namespace Stats

def zero : Stats := ⟨0, 0, 0⟩

def debug (s : Stats) : String :=
  let lookups := s.lookups
  let hits := s.hits
  let entries := s.entries
  s!"MemoStats \x7b lookups: {lookups}, hits: {hits}, entries: {entries} \x7d"

end Stats

/-- One use of a table. -/
inductive Call where
  | lookup (key : Key) (answer : Option Outcome)
  | record (key : Key) (outcome : Outcome)
  deriving DecidableEq, Repr

end Memo

/-- A memo table. Its journal, if it keeps one, lists the calls, the newest first. -/
structure Memo where
  strategy : Strategy
  table : Std.TreeMap Memo.Key Outcome Memo.Key.order
  stats : Memo.Stats
  journal : Option (List Memo.Call)

namespace Memo

def empty (strategy : Strategy) : Memo := ⟨strategy, ∅, .zero, none⟩

/-- An empty table that keeps a journal. -/
def journaling (strategy : Strategy) : Memo := ⟨strategy, ∅, .zero, some []⟩

def size (m : Memo) : Nat := m.table.size

def get? (m : Memo) (key : Key) : Option Outcome := m.table[key]?

/-- The counters, if the table remembers anything. -/
def stats? (m : Memo) : Option Stats :=
  match m.strategy with
  | .none => none
  | .full => some m.stats

def log (call : Call) (m : Memo) : Memo := { m with journal := m.journal.map (call :: ·) }

def lookup (m : Memo) (key : Key) : Option Outcome × Memo :=
  match m.strategy with
  | .none => (none, m.log (.lookup key none))
  | .full =>
    let answer := m.get? key
    let hits := if answer.isSome then m.stats.hits + 1 else m.stats.hits
    let m := { m with stats := ⟨m.stats.lookups + 1, hits, m.stats.entries⟩ }
    (answer, m.log (.lookup key answer))

/-- Remembers an outcome, unless one is known for the key. -/
def record (m : Memo) (key : Key) (outcome : Outcome) : Memo :=
  match m.strategy with
  | .none => m.log (.record key outcome)
  | .full =>
    if m.table.contains key then m.log (.record key outcome)
    else
      let m := { m with
        table := m.table.insert key outcome
        stats := { m.stats with entries := m.stats.entries + 1 } }
      m.log (.record key outcome)

/-- The calls since the journal was last cleared, the oldest first, and the table with an empty
journal; `none` if no journal is kept. -/
def takeJournal? (m : Memo) : Option (List Call × Memo) :=
  m.journal.map fun calls => (calls.reverse, { m with journal := some [] })

@[simp] theorem get?_log {m : Memo} {call : Call} {key : Key} : (m.log call).get? key = m.get? key :=
  rfl

@[simp] theorem get?_lookup {m : Memo} {k key : Key} : (m.lookup k).2.get? key = m.get? key := by
  unfold lookup; split <;> rfl

theorem get?_record {m : Memo} {k key : Key} {o : Outcome} (h : m.strategy = .full) :
    (m.record k o).get? key =
      if (m.get? k).isNone ∧ k = key then some o else m.get? key := by
  unfold record
  simp only [h]
  split
  · rename_i hc
    have : (m.get? k).isNone = false := by
      simp only [get?, Option.isNone_eq_false_iff]
      simpa [Std.TreeMap.isSome_getElem?_eq_contains] using hc
    simp [this]
  · rename_i hc
    have : (m.get? k).isNone = true := by
      simp only [get?, Option.isNone_iff_eq_none]
      simpa using hc
    simp only [this, true_and, get?_log]
    simp only [get?, Std.TreeMap.getElem?_insert]
    by_cases hk : k = key
    · simp [hk, Std.ReflCmp.compare_self]
    · have : Key.order k key ≠ .eq := fun he => hk (Std.LawfulEqCmp.eq_of_compare he)
      simp [this, hk]

end Memo

end Packrat
