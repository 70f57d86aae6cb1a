import Packrat.Grammar.Bindings

/-!
Assembling grammars. Each combinator makes its rules in a fixed order, so their numbers are part of
what it means. Sequences are flat: a sequence that becomes part of another one is replaced by its
children.
-/

namespace Packrat

/-- A grammar in the making and in use: what has been found for its deferred alternatives so far, and
the labels of the functions applied to values, the newest first. -/
structure Workspace (V : Type) where
  grammar : Grammar V
  bindings : Bindings V
  actions : List String

namespace Workspace

def empty {V : Type} : Workspace V := ⟨.empty, .empty, []⟩

end Workspace

abbrev Assembly (V : Type) := EStateM GrammarError (Workspace V)

namespace Assembly

variable {V : Type}

def modifyGrammar (f : Grammar V → Grammar V) : Assembly V Unit :=
  modify fun w => { w with grammar := f w.grammar }

/-! ## Rules -/

def node (body : Body) : Assembly V RuleId := do
  modifyGrammar fun g => { g with rules := g.rules.push body }
  return (← get).grammar.rules.size

def literal (text : String) : Assembly V RuleId := node (.literal text.toList)

def predicate (description : String) (test : Char → Bool) : Assembly V RuleId :=
  node (.predicate description test)

/-- The rules that `rules` match one after another, none of them a sequence. -/
def flatten (g : Grammar V) (rules : List RuleId) : List RuleId :=
  rules.flatMap fun r => (g.body r).parts r

def sequence (rules : List RuleId) : Assembly V RuleId := do
  match flatten (← get).grammar rules with
  | [] => throw .emptySequence
  | children => node (.sequence children)

def andThen (first second : RuleId) : Assembly V RuleId := do
  node (.sequence (flatten (← get).grammar [first, second]))

def choice (alternatives : List Alternative) : Assembly V RuleId :=
  match alternatives with
  | [] => throw .emptyChoice
  | alternatives => node (.choice alternatives)

def star (item : RuleId) : Assembly V RuleId := node (.star item)

def plus (item : RuleId) : Assembly V RuleId := node (.plus item)

def option (item : RuleId) : Assembly V RuleId := node (.option item)

def and (item : RuleId) : Assembly V RuleId := node (.and item)

def not (item : RuleId) : Assembly V RuleId := node (.not item)

/-! ## Deferred alternatives and forward declarations -/

def ruleSlot (slot : Slot RuleSource) : Assembly V Alternative := do
  let number := (← get).grammar.ruleSlots.size
  modifyGrammar fun g => { g with ruleSlots := g.ruleSlots.push slot }
  return .deferred number

def parserSlot (slot : Slot (ParserSource V)) : Assembly V Nat := do
  let number := (← get).grammar.parserSlots.size
  modifyGrammar fun g => { g with parserSlots := g.parserSlots.push slot }
  return number

/-- An alternative that is there from the start. -/
def readyParser (p : Parser V) : Assembly V Nat := parserSlot ⟨.ready p, none⟩

def declareRule (name : String) : Assembly V Nat := do
  let number := (← get).grammar.ruleForwards.size
  modifyGrammar fun g => { g with ruleForwards := g.ruleForwards.push (.declare name) }
  return number

def declareParser (name : String) : Assembly V Nat := do
  let number := (← get).grammar.parserForwards.size
  modifyGrammar fun g => { g with parserForwards := g.parserForwards.push (.declare name) }
  return number

/-- Defines a forward declaration; a second definition is refused. -/
def defineRule (forward : Nat) (r : RuleId) : Assembly V Unit := do
  let f := (← get).grammar.ruleForward forward
  if f.isDefined then throw (.alreadyDefined f.name)
  modifyGrammar fun g =>
    { g with ruleForwards := g.ruleForwards.setIfInBounds forward { f with definition := some r } }

/-- Defines a forward declaration; a second definition is refused. -/
def defineParser (forward : Nat) (p : Parser V) : Assembly V Unit := do
  let f := (← get).grammar.parserForward forward
  if f.isDefined then throw (.alreadyDefined f.name)
  modifyGrammar fun g =>
    { g with parserForwards := g.parserForwards.setIfInBounds forward { f with definition := some p } }

/-! ## Parsers -/

/-- Matches what a rule matches; the value is fixed. -/
def ofRule (r : RuleId) (value : V) : Parser V := .silent r value

def literalParser (text : String) (value : V) : Assembly V (Parser V) :=
  return .silent (← literal text) value

def andParser (item : RuleId) (value : V) : Assembly V (Parser V) :=
  return .silent (← and item) value

def notParser (item : RuleId) (value : V) : Assembly V (Parser V) :=
  return .silent (← not item) value

def character (description : String) (test : Char → Bool) (embed : Char → V) :
    Assembly V (Parser V) :=
  return .character (← predicate description test) embed

/-- The longest run of characters that satisfy the test, at least one. -/
def characters (description : String) (test : Char → Bool) (embed : List Char → V) :
    Assembly V (Parser V) := do
  let one ← predicate description test
  return .characters (← plus one) embed

def pair (first second : Parser V) (label : String) (combine : V → V → V) :
    Assembly V (Parser V) :=
  return .pair (← andThen first.rule second.rule) first second label combine

def keepFirst (first second : Parser V) : Assembly V (Parser V) :=
  pair first second "left" fun value _ => value

def keepSecond (first second : Parser V) : Assembly V (Parser V) :=
  pair first second "right" fun _ value => value

def closedBy (first : Parser V) (text : String) (value : V) : Assembly V (Parser V) := do
  keepFirst first (← literalParser text value)

/-- Ordered choice among the parsers of slots. An alternative whose parser is known already enters
the rule as it is; the others are found when the rule first needs them. -/
def choose (slots : List Nat) : Assembly V (Parser V) := do
  let alternatives ← slots.mapM fun slot => do
    let w ← get
    match w.grammar.boundParser? w.bindings slot with
    | some p => return Alternative.ready p.rule
    | none => ruleSlot ⟨.parser slot, none⟩
  return .choice (← choice alternatives) slots

def starParser (item : Parser V) (collect : List V → V) : Assembly V (Parser V) :=
  return .star (← star item.rule) item collect

def plusParser (item : Parser V) (collect : List V → V) : Assembly V (Parser V) :=
  return .plus (← plus item.rule) item collect

def optionParser (item : Parser V) (embed : Option V → V) : Assembly V (Parser V) :=
  return .option (← option item.rule) item embed

/-- Stands for whatever a forward declaration is defined to be. -/
def deferredParser (forward : Nat) : Assembly V (Parser V) := do
  let slot ← parserSlot ⟨.forward forward, none⟩
  let alternative ← ruleSlot ⟨.parser slot, none⟩
  return .deferred (← choice [alternative]) slot

end Assembly

end Packrat
