import Packrat.Grammar.Listing
import Packrat.Json.Basic
import Packrat.Json.Document
import Packrat.Text.Decimal

/-!
Stored values. A record is an object with exactly its fields, where others may stand beside them, or
an array of its fields in order; a plain word is a string, or an object with a null under that word.
-/

namespace Packrat

namespace Document

def natUpTo? (bound : Nat) : Document → Option Nat
  | number n => if n ≤ bound then some n else none
  | _ => none

def text? : Document → Option String
  | text s => some s
  | _ => none

/-- One of the words that are given with their meanings. -/
def word? {α : Type} (words : List (String × α)) : Document → Option α
  | text s => words.lookup s
  | object [(some s, null)] => words.lookup s
  | _ => none

/-- The values of the named fields, in the order of the names. -/
def record? (names : List String) : Document → Option (List Document)
  | array items => if items.length = names.length then some items else none
  | object fields =>
    if fields.all (·.1.isSome) then
      names.mapM fun name =>
        match fields.filter (·.1 == some name) with
        | [(_, value)] => some value
        | _ => none
    else none
  | _ => none

end Document

namespace Strategy

def all : List Strategy := [none, full]

def ofDocument? : Document → Option Strategy := Document.word? (all.map fun s => (s.name, s))

def toJson (s : Strategy) : Json := .string s.name

end Strategy

namespace Kind

def ofDocument? : Document → Option Kind := Document.word? (all.map fun k => (k.name, k))

def toJson (k : Kind) : Json := .string k.name

end Kind

namespace Config

def ofDocument? (d : Document) : Option Config := do
  match ← d.record? ["memoization", "memo_capacity"] with
  | [strategy, capacity] =>
    return ⟨← Strategy.ofDocument? strategy, ← capacity.natUpTo? Decimal.max64⟩
  | _ => none

def toJson (c : Config) : Json :=
  .object [("memoization", c.strategy.toJson), ("memo_capacity", .number c.capacity)]

def debug (c : Config) : String :=
  let strategy := c.strategy.name
  let capacity := c.capacity
  s!"ParseConfig \x7b memoization: {strategy}, memo_capacity: {capacity} \x7d"

end Config

namespace Line

def ofDocument? (d : Document) : Option Line := do
  match ← d.record? ["id", "name", "rhs"] with
  | [id, name, rhs] => return ⟨← id.natUpTo? Decimal.max32, ← name.text?, ← rhs.text?⟩
  | _ => none

def toJson (line : Line) : Json :=
  .object [("id", .number line.id), ("name", .string line.name), ("rhs", .string line.rhs)]

end Line

namespace Memo.Stats

def ofDocument? (d : Document) : Option Stats := do
  match ← d.record? ["lookups", "hits", "entries"] with
  | [lookups, hits, entries] =>
    return ⟨← lookups.natUpTo? Decimal.max64, ← hits.natUpTo? Decimal.max64,
      ← entries.natUpTo? Decimal.max64⟩
  | _ => none

def toJson (s : Stats) : Json :=
  .object [("lookups", .number s.lookups), ("hits", .number s.hits), ("entries", .number s.entries)]

end Memo.Stats

namespace LineColumn

def ofDocument? (d : Document) : Option LineColumn := do
  match ← d.record? ["line", "column"] with
  | [line, column] => return ⟨← line.natUpTo? Decimal.max64, ← column.natUpTo? Decimal.max64⟩
  | _ => none

def toJson (p : LineColumn) : Json :=
  .object [("line", .number p.line), ("column", .number p.column)]

end LineColumn

/-- A stored value in any of its written forms. -/
structure Stored where
  json : Json
  debug : String
  display : Option String

inductive StoredSort where
  | strategy
  | config
  | rule
  | kind
  | line
  | stats
  | lineColumn
  deriving DecidableEq, Repr

namespace StoredSort

/-- Reads a stored value of a sort. -/
def read? (sort : StoredSort) (source : String) : Option Stored := do
  let d ← Document.read? source
  match sort with
  | strategy => (Strategy.ofDocument? d).map fun s => ⟨s.toJson, s.name, none⟩
  | config => (Config.ofDocument? d).map fun c => ⟨c.toJson, c.debug, none⟩
  | rule => (d.natUpTo? Decimal.max32).map fun r => ⟨.number r, s!"RuleId({r})", none⟩
  | kind => (Kind.ofDocument? d).map fun k => ⟨k.toJson, k.name, none⟩
  | line => (Line.ofDocument? d).map fun l => ⟨l.toJson, l.debug, some l.display⟩
  | stats => (Memo.Stats.ofDocument? d).map fun s => ⟨s.toJson, s.debug, none⟩
  | lineColumn => (LineColumn.ofDocument? d).map fun p => ⟨p.toJson, p.debug, none⟩

end StoredSort

end Packrat
