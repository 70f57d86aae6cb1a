import Packrat.Memo

/-! Rules: the nodes of a grammar that decide what matches, without building values. -/

namespace Packrat

inductive Kind where
  | literal
  | predicate
  | sequence
  | choice
  | star
  | plus
  | option
  | and
  | not
  deriving DecidableEq, Repr

namespace Kind

def all : List Kind :=
  [literal, predicate, sequence, choice, star, plus, option, and, not]

def name : Kind → String
  | literal => "Literal"
  | predicate => "Predicate"
  | sequence => "Sequence"
  | choice => "Choice"
  | star => "Star"
  | plus => "Plus"
  | option => "Option"
  | and => "And"
  | not => "Not"

/-- Rules that match characters directly. -/
def isTerminal : Kind → Bool
  | literal | predicate => true
  | _ => false

/-- Rules that wrap exactly one other rule. -/
def isUnary : Kind → Bool
  | star | plus | option | and | not => true
  | _ => false

end Kind

/-- An alternative of an ordered choice: a rule, or a numbered slot that a rule is found for on
first use. -/
inductive Alternative where
  | ready (rule : RuleId)
  | deferred (slot : Nat)
  deriving DecidableEq, Repr

/-- What a rule does. Other rules are named by their numbers, so a grammar may be cyclic. -/
inductive Body where
  | literal (text : List Char)
  | predicate (description : String) (test : Char → Bool)
  | sequence (children : List RuleId)
  | choice (alternatives : List Alternative)
  | star (item : RuleId)
  | plus (item : RuleId)
  | option (item : RuleId)
  | and (item : RuleId)
  | not (item : RuleId)

namespace Body

def kind : Body → Kind
  | literal _ => .literal
  | predicate _ _ => .predicate
  | sequence _ => .sequence
  | choice _ => .choice
  | star _ => .star
  | plus _ => .plus
  | option _ => .option
  | and _ => .and
  | not _ => .not

/-- Notation of a terminal: the quoted literal, or the description of the predicate. -/
def description? : Body → Option String
  | literal text => some ("\"" ++ String.ofList text ++ "\"")
  | predicate description _ => some description
  | _ => none

def operand? : Body → Option RuleId
  | star item | plus item | option item | and item | not item => some item
  | _ => none

/-- The rules that matching goes through one after another: a sequence stands for its children. -/
def parts (rule : RuleId) : Body → List RuleId
  | sequence children => children
  | _ => [rule]

theorem isSome_operand?_eq_isUnary (b : Body) : b.operand?.isSome = b.kind.isUnary := by
  cases b <;> rfl

theorem isSome_description?_eq_isTerminal (b : Body) : b.description?.isSome = b.kind.isTerminal := by
  cases b <;> rfl

end Body

end Packrat
