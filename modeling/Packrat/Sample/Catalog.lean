import Packrat.Report
import Packrat.Sample.IntList
import Packrat.Sample.Lambda

/-! The sample grammars by name. -/

namespace Packrat

inductive GrammarName where
  | intList
  | lambda
  deriving DecidableEq, Repr

namespace GrammarName

def name : GrammarName → String
  | intList => "int-list"
  | lambda => "lambda"

/-- Reads a grammar by name. Only the case of ASCII letters is ignored, which is all that can turn a
name into one of these. -/
def ofName (name : String) : Except String GrammarName :=
  match String.ofList (name.toList.map Char.toLower) with
  | "int-list" | "intlist" | "ints" => .ok intList
  | "lambda" | "lambda-calculus" => .ok lambda
  | _ => .error s!"Unknown grammar: {name}. Supported: int-list, lambda"

def renderLines (grammar : GrammarName) (format : Format) : Except SampleError String := do
  match grammar with
  | intList => (← IntList.sample).renderLines format
  | lambda => (← Lambda.sample).renderLines format

def report (grammar : GrammarName) (input : String) (config : Config) :
    Except SampleError Report := do
  match grammar with
  | intList => (← IntList.sample).report input config
  | lambda => (← Lambda.sample).report input config

end GrammarName

end Packrat
