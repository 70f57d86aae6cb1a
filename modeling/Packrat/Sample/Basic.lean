import Packrat.Grammar.Listing
import Packrat.Session

/-!
Sample grammars: a workspace with a root parser, names for the rules worth naming, and how the values
of the root are shown.
-/

namespace Packrat

structure Sample (V : Type) where
  name : String
  workspace : Workspace V
  root : Parser V
  names : Names
  render : V → String

inductive SampleError where
  | grammar (error : GrammarError)
  | halted (halt : Halt)
  deriving DecidableEq, Repr

namespace Sample

variable {V : Type}

/-- Assembles a sample from nothing. -/
def ofAssembly (name : String) (render : V → String) (assembly : Assembly V (Parser V × Names)) :
    Except SampleError (Sample V) :=
  match assembly .empty with
  | .ok (root, names) workspace => .ok ⟨name, workspace, root, names, render⟩
  | .error e _ => .error (.grammar e)

/-- The answer of an act on the sample's workspace, which itself stays as it is. -/
def use {α : Type} (s : Sample V) (act : Session V α) : Except SampleError α :=
  match act s.workspace with
  | .ok a _ => .ok a
  | .error halt _ => .error (.halted halt)

def lines (s : Sample V) : Except SampleError (List Line) :=
  s.use (Session.resolve fun g => g.lines s.names s.root.rule)

def listing (s : Sample V) : Except SampleError String :=
  s.use (Session.resolve fun g => g.listing s.names s.root.rule)

/-- Parses an input from its start; `none` is a rejection. -/
def parse (s : Sample V) (input : String) (config : Config) : Except SampleError (Option (Spanned V)) := do
  match ← s.use (Session.capture (Session.parseSpan s.root input config)) with
  | .ok x => return some x
  | .error .rejected => return none
  | .error e => throw (.halted (.failed e))

end Sample

end Packrat
