import Packrat.Grammar.Bindings

/-! The state of a run over one text, and its elementary steps. -/

namespace Packrat

inductive Event where
  /-- The position has changed, or was set anew. -/
  | moved (position : Nat)
  /-- A rule was evaluated, not answered from a table; `stop` is the position it left. -/
  | evaluated (rule : RuleId) (kind : Kind) (start stop : Nat) (accepted : Bool)
  | finished (rule : RuleId) (inputLength : Nat) (strategy : Strategy) (accepted : Bool) (stop : Nat)
      (stats : Option Memo.Stats)

/-- The state of a run. `actions` holds the labels of the functions applied to values so far and
`trace` the events, if they are wanted; both have the newest first. -/
structure Run (V : Type) where
  position : Nat
  memo : Memo
  bindings : Bindings V
  actions : List String
  trace : Option (List Event)

namespace Run

variable {V : Type}

/-- A run about to begin at `position`. -/
def begin (position : Nat) (memo : Memo) (bindings : Bindings V) : Run V :=
  ⟨position, memo, bindings, [], none⟩

def traced (run : Run V) : Run V := { run with trace := some [] }

/-- The events so far, the oldest first. -/
def events (run : Run V) : List Event := (run.trace.getD []).reverse

def observe (event : Event) (run : Run V) : Run V := { run with trace := run.trace.map (event :: ·) }

def moveTo (position : Nat) (run : Run V) : Run V := { run with position }.observe (.moved position)

end Run

abbrev Engine (V : Type) := EStateM Halt (Run V)

namespace Engine

variable {V : Type} (text : Buffer)

def position : Engine V Nat := return (← get).position

/-- Reads the next character and moves past it; at the end of the text nothing moves. -/
def advance : Engine V (Option Char) := do
  let run ← get
  match text.char? run.position with
  | some c =>
    set (run.moveTo (run.position + 1))
    return some c
  | none => return none

/-- Like `advance`, where the end of the text is an error. -/
def next : Engine V Char := do
  match ← advance text with
  | some c => return c
  | none => throw (.failed (.cursor (.endOfInput (← position))))

/-- Goes back to a position seen before; one past the end is a fault. -/
def rewind (p : Nat) : Engine V Unit :=
  if p ≤ text.length then modify (Run.moveTo p)
  else throw (.faulted (.rewindPastEnd p text.length))

/-- Goes to a position; one past the end is an error. -/
def jump (p : Nat) : Engine V Unit :=
  if p ≤ text.length then modify (Run.moveTo p)
  else throw (.failed (.cursor (.outOfRange p text.length)))

def reject {α : Type} : Engine V α := throw (.failed .rejected)

def liftCursor {α : Type} : Except CursorError α → Engine V α
  | .ok a => pure a
  | .error e => throw (.failed (.cursor e))

def perform (label : String) : Engine V Unit :=
  modify fun run => { run with actions := label :: run.actions }

def report (event : Event) : Engine V Unit := modify (Run.observe event)

def consult (key : Memo.Key) : Engine V (Option Outcome) := do
  let run ← get
  let (answer, memo) := run.memo.lookup key
  set { run with memo }
  return answer

def remember (key : Memo.Key) (outcome : Outcome) : Engine V Unit :=
  modify fun run => { run with memo := run.memo.record key outcome }

/-- Looks up a deferred alternative; what is found stays with the run, also if the lookup fails. -/
def resolve {α : Type} (lookup : Resolution V α) : Engine V α := fun run =>
  match lookup run.bindings with
  | .ok a bindings => .ok a { run with bindings }
  | .error halt bindings => .error halt { run with bindings }

/-- Runs without the memo table, which afterwards is as it was. -/
def unmemoized {α : Type} (act : Engine V α) : Engine V α := fun run =>
  match act { run with memo := .empty .none } with
  | .ok a after => .ok a { after with memo := run.memo }
  | .error halt after => .error halt { after with memo := run.memo }

/-- Turns a rejection into `none`, wherever it left the position. -/
def attempt {α : Type} (act : Engine V α) : Engine V (Option α) := fun run =>
  match act run with
  | .ok a after => .ok (some a) after
  | .error (.failed .rejected) after => .ok none after
  | .error halt after => .error halt after

end Engine

end Packrat
