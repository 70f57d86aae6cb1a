import Packrat.Engine.Entry
import Packrat.Grammar.Assembly

/-!
Using a workspace: recognition and parsing of inputs, one after another. What a run finds for
deferred alternatives stays with the workspace, also if a fault stops the run.

Every use loads its input anew. The id 0 stands for the copy that it runs over, which is the only text
that the run sees. Two uses have two copies, also of one input, so what is said of the answers of several
uses here holds up to the identity of the copies that their spans belong to.
-/

namespace Packrat

abbrev Session (V : Type) := EStateM Halt (Workspace V)

namespace Workspace

variable {V : Type}

/-- Fuel for a run over a text of `length` characters: more than its depth or the rounds of any
repetition can come to, if it ends at all. -/
def fuel (w : Workspace V) (length : Nat) : Nat :=
  2 * (w.grammar.rules.size + w.grammar.parserSlots.size + 2) * (length + 2)

def after (w : Workspace V) (run : Run V) : Workspace V :=
  { w with bindings := run.bindings, actions := run.actions ++ w.actions }

def count (w : Workspace V) (label : String) : Nat :=
  w.actions.count label + w.grammar.producerRuns w.bindings label

end Workspace

namespace Session

variable {V α : Type}

def resolve (lookup : Grammar V → Resolution V α) : Session V α := fun w =>
  match lookup w.grammar w.bindings with
  | .ok a bindings => .ok a { w with bindings }
  | .error halt bindings => .error halt { w with bindings }

/-- Carries out an act of the engine and gives its answer with the state it left. -/
def observe (act : Grammar V → Engine V α) (start : Bindings V → Run V) :
    Session V (Except Halt α × Run V) := fun w =>
  match act w.grammar (start w.bindings) with
  | .ok a run => .ok (.ok a, run) (w.after run)
  | .error halt run => .ok (.error halt, run) (w.after run)

def run (act : Grammar V → Engine V α) (start : Bindings V → Run V) : Session V α := do
  match (← observe act start).1 with
  | .ok a => return a
  | .error halt => throw halt

/-- A run from the start of a text with a fresh memo table. -/
def fresh (config : Config) : Bindings V → Run V := Run.begin 0 (.empty config.strategy)

/-- Turns an error of a parse into an answer; faults still stop the session. -/
def capture (act : Session V α) : Session V (Except ParseError α) := fun w =>
  match act w with
  | .ok a after => .ok (.ok a) after
  | .error (.failed e) after => .ok (.error e) after
  | .error halt after => .error halt after

/-- Recognition of an input that is loaded for it. -/
def recognize (r : RuleId) (input : String) (config : Config) : Session V (Option Nat) := do
  let text := Buffer.load 0 input
  let fuel := (← get).fuel text.length
  run (fun g => Engine.recognize g text fuel r) (fresh config)

/-- A parse of an input that is loaded for it, so the span is one of this copy. -/
def parseSpan (p : Parser V) (input : String) (config : Config) : Session V (Spanned V) := do
  let text := Buffer.load 0 input
  let fuel := (← get).fuel text.length
  run (fun g => Engine.parseSpan g text fuel p) (fresh config)

def parse (p : Parser V) (input : String) (config : Config) : Session V V :=
  return (← parseSpan p input config).value

/-- Parses every input with a run of its own; the answers are in the order of the inputs. -/
def parseBatch (p : Parser V) (inputs : List String) (config : Config) :
    Session V (List (Except ParseError V)) :=
  inputs.mapM fun input => capture (parse p input config)

end Session

end Packrat
