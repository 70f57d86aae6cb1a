import Packrat.Sample.Catalog

/-!
The command line: a command, then its options in any order, each at most once. An option's value is
the next argument or is written together with the option.
-/

namespace Packrat

inductive Command where
  | analyze (grammar : GrammarName) (format : Format)
  | parse (grammar : GrammarName) (input : String) (unmemoized : Bool) (format : Format)
  deriving DecidableEq, Repr

namespace CommandLine

inductive Flag where
  | grammar
  | input
  | format
  | unmemoized
  deriving DecidableEq, Repr

namespace Flag

def long : Flag → List Char
  | grammar => "grammar".toList
  | input => "input".toList
  | format => "format".toList
  | unmemoized => "no-memo".toList

def short? : Flag → Option Char
  | grammar => some 'g'
  | input => some 'i'
  | format => some 'f'
  | unmemoized => none

def takesValue : Flag → Bool
  | unmemoized => false
  | _ => true

end Flag

/-- The options of a command. -/
inductive Verb where
  | analyze
  | parse
  deriving DecidableEq, Repr

namespace Verb

def ofName? : String → Option Verb
  | "analyze" => some analyze
  | "parse" => some parse
  | _ => none

def flags : Verb → List Flag
  | analyze => [.grammar, .format]
  | parse => [.grammar, .input, .unmemoized, .format]

end Verb

/-- An option as written: which one, and the value written together with it. -/
structure Written where
  flag : Flag
  attached : Option String

/-- Reads `--name` or `--name=value`. -/
def long? (verb : Verb) (cs : List Char) : Option Written := do
  let (name, rest) := cs.span (· ≠ '=')
  let flag ← verb.flags.find? (·.long = name)
  return ⟨flag, match rest with | [] => none | _ :: value => some (String.ofList value)⟩

/-- Reads a letter with the value that follows it, perhaps after an equals sign. -/
def short? (verb : Verb) (c : Char) (rest : List Char) : Option Written := do
  let flag ← verb.flags.find? (·.short? = some c)
  return ⟨flag, match rest with
    | [] => none
    | '=' :: value => some (String.ofList value)
    | value => some (String.ofList value)⟩

/-- An argument can be the value of the option before it. A single dash can. -/
def isValue (argument : String) : Bool :=
  match argument.toList with
  | ['-'] => true
  | '-' :: _ => false
  | _ => true

/-- The options of a command with their values, in the order written; `none` if the arguments cannot
be read. Nothing may stand after a closing `--`. -/
def options? (verb : Verb) : List String → Option (List (Flag × String))
  | [] => some []
  | argument :: rest =>
    let written := match argument.toList with
      | '-' :: '-' :: cs => long? verb cs
      | '-' :: c :: cs => short? verb c cs
      | _ => none
    if argument = "--" then if rest.isEmpty then some [] else none
    else
      match written with
      | none => none
      | some ⟨flag, attached⟩ =>
        match flag.takesValue, attached, rest with
        | false, none, rest => (options? verb rest).map ((flag, "") :: ·)
        | false, some _, _ => none
        | true, some value, rest => (options? verb rest).map ((flag, value) :: ·)
        | true, none, value :: rest =>
          if isValue value then (options? verb rest).map ((flag, value) :: ·) else none
        | true, none, [] => none

/-- The command that the arguments after the program's name give; `none` if they are misused. -/
def parse? : List String → Option Command
  | [] => none
  | name :: arguments => do
    let verb ← Verb.ofName? name
    let options ← options? verb arguments
    if (options.map Prod.fst).Nodup then
      let grammar ← (GrammarName.ofName (← options.lookup .grammar)).toOption
      let format ← (Format.ofName ((options.lookup .format).getD "text")).toOption
      match verb with
      | .analyze => return .analyze grammar format
      | .parse =>
        return .parse grammar (← options.lookup .input) (options.lookup .unmemoized).isSome format
    else none

/-- What a run of the program comes to. -/
structure Result where
  status : Nat
  output : String

/-- Misuse gives status 2; a rejected input or an error gives status 1. -/
def run (arguments : List String) : Result :=
  match parse? arguments with
  | none => ⟨2, ""⟩
  | some (.analyze grammar format) =>
    match grammar.renderLines format with
    | .ok text => ⟨0, text⟩
    | .error _ => ⟨1, ""⟩
  | some (.parse grammar input unmemoized format) =>
    match grammar.report input (if unmemoized then .unmemoized else .memoized) with
    | .ok report => ⟨if report.accepted then 0 else 1, report.render format⟩
    | .error _ => ⟨1, ""⟩

end CommandLine

end Packrat
