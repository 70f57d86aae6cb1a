import Packrat.Grammar.Rule
import Packrat.Text.Span

/-! Parsers: a rule paired with the steps that build a value over a span the rule has accepted. -/

namespace Packrat

/-- A parser with values in `V`. Functions on values carry a label, under which a run lists each use
of them. The alternatives of a choice are numbered slots of the grammar. -/
inductive Parser (V : Type) where
  /-- The value is fixed; only the rule matters. -/
  | silent (rule : RuleId) (value : V)
  | character (rule : RuleId) (embed : Char → V)
  /-- The whole text that the rule matches. -/
  | characters (rule : RuleId) (embed : List Char → V)
  | pair (rule : RuleId) (first second : Parser V) (label : String) (combine : V → V → V)
  | choice (rule : RuleId) (slots : List Nat)
  | star (rule : RuleId) (item : Parser V) (collect : List V → V)
  | plus (rule : RuleId) (item : Parser V) (collect : List V → V)
  | option (rule : RuleId) (item : Parser V) (embed : Option V → V)
  | map (inner : Parser V) (label : String) (transform : V → V)
  | spanned (inner : Parser V) (embed : V → Span → V)
  /-- Stands for the parser found for a slot. -/
  | deferred (rule : RuleId) (slot : Nat)

namespace Parser

variable {V : Type}

/-- The rule that decides whether the parser matches. -/
def rule : Parser V → RuleId
  | silent r _ | character r _ | characters r _ => r
  | pair r .. | choice r _ | deferred r _ => r
  | star r .. | plus r .. | option r .. => r
  | map inner .. => inner.rule
  | spanned inner _ => inner.rule

end Parser

end Packrat
