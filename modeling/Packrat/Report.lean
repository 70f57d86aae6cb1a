import Packrat.Json.Stored
import Packrat.Sample.Basic

/-! Reports on sample grammars, as text or JSON. -/

namespace Packrat

inductive Format where
  | text
  | json
  deriving DecidableEq, Repr

namespace Format

def name : Format → String
  | text => "Text"
  | json => "Json"

/-- Reads a format by name. Only the case of ASCII letters is ignored, which is all that can turn a
name into one of these. -/
def ofName (name : String) : Except String Format :=
  match String.ofList (name.toList.map Char.toLower) with
  | "text" | "txt" => .ok text
  | "json" => .ok json
  | _ => .error s!"Unknown format: {name}. Supported: text, json"

end Format

structure Report where
  grammar : String
  input : String
  strategy : Strategy
  accepted : Bool
  value : Option String
  stop : Option Nat
  unconsumed : Nat
  stats : Option Memo.Stats
  deriving DecidableEq, Repr

namespace Report

def toJson (r : Report) : Json :=
  .object
    [("grammar", .string r.grammar), ("input", .string r.input),
     ("memoization", r.strategy.toJson), ("accepted", .bool r.accepted),
     ("value", .ofOption .string r.value), ("end", .ofOption .number r.stop),
     ("unconsumed", .number r.unconsumed), ("stats", .ofOption Memo.Stats.toJson r.stats)]

def toText (r : Report) : String :=
  let outcome := match r.value, r.stop with
    | some value, some stop =>
      let n := r.unconsumed
      let left := if n > 0 then s!" ({n} characters left)" else ""
      s!"accepted: {value}\nend: {stop}{left}\n"
    | _, _ => "rejected\n"
  let memo := match r.stats with
    | some ⟨lookups, hits, entries⟩ => s!"memo: {entries} entries, {hits} hits / {lookups} lookups\n"
    | none => ""
  outcome ++ memo

def render (r : Report) : Format → String
  | .text => r.toText
  | .json => r.toJson.pretty

end Report

namespace Sample

variable {V : Type}

def renderLines (s : Sample V) : Format → Except SampleError String
  | .text => s.listing
  | .json => return (Json.array ((← s.lines).map Line.toJson)).pretty

/-- Loads an input, parses it from its start and reports; a rejection is a result. The id stands for the
copy that is loaded here, as it does for any use of a workspace. -/
def report (s : Sample V) (input : String) (config : Config) : Except SampleError Report :=
  let text := Buffer.load 0 input
  let w := s.workspace
  let result (answer : Option (V × Nat)) (run : Run V) : Report :=
    { grammar := s.name
      input := input
      strategy := config.strategy
      accepted := answer.isSome
      value := answer.map fun (value, _) => s.render value
      stop := answer.map fun (_, stop) => stop
      unconsumed := text.length - (answer.map Prod.snd).getD 0
      stats := run.memo.stats? }
  match Engine.parseAt w.grammar text (w.fuel text.length) s.root (Session.fresh config w.bindings) with
  | .ok value run => .ok (result (some (value, run.position)) run)
  | .error (.failed .rejected) run => .ok (result none run)
  | .error halt _ => .error (.halted halt)

end Sample

end Packrat
