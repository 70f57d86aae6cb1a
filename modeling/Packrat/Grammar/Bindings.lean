import Packrat.Grammar.Basic

/-!
What has been found for deferred alternatives so far. A slot is looked up once: the first time its
producer returns, the result is kept; a producer that fails leaves the slot as it was.
-/

namespace Packrat

/-- The state of a slot: what was found for it, and how often its producer has run. -/
structure Cell (α : Type) where
  resolved : Option α
  runs : Nat

structure Cells (α : Type) where
  map : Std.TreeMap Nat (Cell α)

namespace Cells

variable {α : Type}

def empty : Cells α := ⟨∅⟩

def get (cells : Cells α) (slot : Nat) : Cell α := (cells.map[slot]?).getD ⟨none, 0⟩

def set (cells : Cells α) (slot : Nat) (cell : Cell α) : Cells α := ⟨cells.map.insert slot cell⟩

def countRun (cells : Cells α) (slot : Nat) : Cells α :=
  cells.set slot ⟨(cells.get slot).resolved, (cells.get slot).runs + 1⟩

def settle (cells : Cells α) (slot : Nat) (a : α) : Cells α :=
  cells.set slot ⟨some a, (cells.get slot).runs⟩

@[simp] theorem get_empty {slot : Nat} : (empty : Cells α).get slot = ⟨none, 0⟩ := by
  simp [empty, get]

theorem get_set {cells : Cells α} {slot k : Nat} {cell : Cell α} :
    (cells.set slot cell).get k = if slot = k then cell else cells.get k := by
  simp only [get, set, Std.TreeMap.getElem?_insert, Nat.compare_eq_eq]
  split <;> rfl

end Cells

structure Bindings (V : Type) where
  rules : Cells RuleId
  parsers : Cells (Parser V)

namespace Bindings

def empty {V : Type} : Bindings V := ⟨.empty, .empty⟩

end Bindings

abbrev Resolution (V : Type) := EStateM Halt (Bindings V)

namespace Grammar

variable {V : Type} (g : Grammar V)

/-- What a forward declaration stands for; using it undefined is a fault. -/
def resolveForward {α : Type} (f : Forward α) : Resolution V α :=
  match f.definition with
  | some a => pure a
  | none => throw (.faulted (.undefinedForward f.name))

/-- The parser of a slot, looked up on first use. -/
def resolveParser (slot : Nat) : Resolution V (Parser V) := do
  match g.parserSource slot with
  | .ready p => return p
  | source =>
    match ((← get).parsers.get slot).resolved with
    | some p => return p
    | none =>
      modify fun b => { b with parsers := b.parsers.countRun slot }
      let p ← match source with
        | .ready p | .produced p => pure p
        | .forward f => resolveForward (g.parserForward f)
      modify fun b => { b with parsers := b.parsers.settle slot p }
      return p

/-- The rule of a slot, looked up on first use. -/
def resolveRule (slot : Nat) : Resolution V RuleId := do
  match ((← get).rules.get slot).resolved with
  | some r => return r
  | none =>
    modify fun b => { b with rules := b.rules.countRun slot }
    let r ← match g.ruleSource slot with
      | .rule r => pure r
      | .forward f => resolveForward (g.ruleForward f)
      | .parser k => Parser.rule <$> g.resolveParser k
    modify fun b => { b with rules := b.rules.settle slot r }
    return r

def resolveAlternative : Alternative → Resolution V RuleId
  | .ready r => pure r
  | .deferred slot => g.resolveRule slot

def children (r : RuleId) : Resolution V (List RuleId) :=
  match g.body r with
  | .literal _ | .predicate _ _ => pure []
  | .sequence rules => pure rules
  | .choice alternatives => alternatives.mapM g.resolveAlternative
  | .star item | .plus item | .option item | .and item | .not item => pure [item]

/-- The rule of an alternative, if it is there without running a producer. -/
def boundRule? (b : Bindings V) : Alternative → Option RuleId
  | .ready r => some r
  | .deferred slot => (b.rules.get slot).resolved

/-- The parser of a slot, if it is there without running a producer. -/
def boundParser? (b : Bindings V) (slot : Nat) : Option (Parser V) :=
  match g.parserSource slot with
  | .ready p => some p
  | _ => (b.parsers.get slot).resolved

def debugAlternative (b : Bindings V) (a : Alternative) : String :=
  match boundRule? b a with
  | some r => "Alt(" ++ g.debugRule r ++ ")"
  | none => "Alt(<unresolved>)"

/-- The runs of the slots of a table that carry the given label. -/
def runsUnder {α β : Type} (label : String) (slots : Array (Slot α)) (cells : Cells β) : Nat :=
  slots.toList.zipIdx.foldl
    (fun total (slot, k) => if slot.label = some label then total + (cells.get k).runs else total) 0

/-- How often producers with the given label have run. -/
def producerRuns (b : Bindings V) (label : String) : Nat :=
  runsUnder label g.ruleSlots b.rules + runsUnder label g.parserSlots b.parsers

end Grammar

end Packrat
