import Packrat.Engine.Construction

/-! Recognizing and parsing from the start of a text. -/

namespace Packrat

namespace Engine

variable {V : Type} (g : Grammar V) (text : Buffer)

/-- Where the match of a rule ends, if there is one. -/
def recognize (fuel : Nat) (r : RuleId) : Engine V (Option Nat) := do
  if ← accept g text fuel r then return some (← position) else return none

def reportFinish (rule : RuleId) (accepted : Bool) : Engine V Unit := do
  let run ← get
  report (.finished rule text.length run.memo.strategy accepted run.position run.memo.stats?)

/-- Carries out an act and, unless a fault stops it, reports whether it succeeded. -/
def reporting {α : Type} (rule : RuleId) (act : Engine V α) : Engine V α := fun run =>
  match act run with
  | .ok a after => (do reportFinish text rule true; return a : Engine V α) after
  | .error (.failed e) after =>
    (do reportFinish text rule false; throw (.failed e) : Engine V α) after
  | .error halt after => .error halt after

/-- Parses and gives the span that was consumed with the value. -/
def parseSpan (fuel : Nat) (p : Parser V) : Engine V (Spanned V) := do
  let value ← reporting text p.rule (parseAt g text fuel p)
  let span ← liftCursor (Span.make text 0 (← position))
  return ⟨value, span⟩

end Engine

end Packrat
