import Packrat.Grammar.Parser

/-! Grammars: the tables of rules, of deferred alternatives and of forward declarations. -/

namespace Packrat

/-- A name that is declared before it is defined. -/
structure Forward (α : Type) where
  name : String
  definition : Option α

namespace Forward

/-- The name of a forward declaration of a rule that is given none. -/
def unnamed : String := "pegrat::grammar::rule::Rule"

def declare {α : Type} (name : String) : Forward α := ⟨name, none⟩

def isDefined {α : Type} (f : Forward α) : Bool := f.definition.isSome

def debug {α : Type} (f : Forward α) : String :=
  let defined := f.isDefined
  "Forward \x7b name: " ++ Quoted.quote f.name ++ s!", defined: {defined} \x7d"

end Forward

/-- Where the rule of a deferred alternative comes from. -/
inductive RuleSource where
  | rule (rule : RuleId)
  | forward (forward : Nat)
  /-- The rule of the parser found for a parser slot. -/
  | parser (slot : Nat)

/-- Where the parser of an alternative comes from. Only a `ready` one is there from the start. -/
inductive ParserSource (V : Type) where
  | ready (parser : Parser V)
  | produced (parser : Parser V)
  | forward (forward : Nat)

/-- An entry of a table of alternatives. Runs of its producer are counted under the label. -/
structure Slot (α : Type) where
  source : α
  label : Option String

structure Grammar (V : Type) where
  rules : Array Body
  ruleSlots : Array (Slot RuleSource)
  parserSlots : Array (Slot (ParserSource V))
  ruleForwards : Array (Forward RuleId)
  parserForwards : Array (Forward (Parser V))

namespace Grammar

variable {V : Type}

def empty : Grammar V := ⟨#[], #[], #[], #[], #[]⟩

/-- The body of a rule. A number that names no rule has a body that never matches. -/
def body (g : Grammar V) : RuleId → Body
  | 0 => .choice []
  | r + 1 => (g.rules[r]?).getD (.choice [])

def kind (g : Grammar V) (r : RuleId) : Kind := (g.body r).kind

/-- The source of a rule slot. A number that names no slot stands for no rule. -/
def ruleSource (g : Grammar V) (slot : Nat) : RuleSource :=
  match g.ruleSlots[slot]? with
  | some s => s.source
  | none => .rule 0

/-- The source of a parser slot. A number that names no slot stands for a parser that never
matches. -/
def parserSource (g : Grammar V) (slot : Nat) : ParserSource V :=
  match g.parserSlots[slot]? with
  | some s => s.source
  | none => .ready (.choice 0 [])

def ruleForward (g : Grammar V) (forward : Nat) : Forward RuleId :=
  (g.ruleForwards[forward]?).getD (.declare "")

def parserForward (g : Grammar V) (forward : Nat) : Forward (Parser V) :=
  (g.parserForwards[forward]?).getD (.declare "")

/-- The parser that a slot stands for, once the forward declaration it names is defined. -/
def parserTarget (g : Grammar V) (slot : Nat) : Option (Parser V) :=
  match g.parserSource slot with
  | .ready p => some p
  | .produced p => some p
  | .forward f => (g.parserForward f).definition

def ruleTarget (g : Grammar V) (slot : Nat) : Option RuleId :=
  match g.ruleSource slot with
  | .rule r => some r
  | .forward f => (g.ruleForward f).definition
  | .parser k => (g.parserTarget k).map Parser.rule

def alternativeTarget (g : Grammar V) : Alternative → Option RuleId
  | .ready r => some r
  | .deferred slot => g.ruleTarget slot

def debugRule (g : Grammar V) (r : RuleId) : String :=
  let kind := (g.kind r).name
  s!"Rule \x7b id: RuleId({r}), kind: {kind} \x7d"

def debugSilent (g : Grammar V) (p : Parser V) : String :=
  "Parser \x7b rule: " ++ g.debugRule p.rule ++ ", value: \"()\" \x7d"

end Grammar

end Packrat
