import Packrat.Sample.Basic
import Packrat.Sample.Term

/-!
The untyped lambda calculus. An expression is an application or a single operand; an operand is a
letter, an abstraction, or an expression in parentheses.
-/

namespace Packrat.Lambda

/-- What the parts of a term are worth. -/
inductive Piece where
  | unit
  | letter (name : Char)
  | letters (names : List Char)
  | term (term : Term)
  | terms (terms : List Term)

namespace Piece

def toTerms : Piece → List Term
  | term t => [t]
  | terms ts => ts
  | _ => []

def toLetters : Piece → List Char
  | letter c => [c]
  | letters cs => cs
  | _ => []

def term? : Piece → Option Term
  | term t => some t
  | _ => none

/-- The written form of a term; other pieces have none. -/
def render (piece : Piece) : String := (piece.term?.map Term.display).getD ""

def variableOf : Piece → Piece
  | letter c => term (.var c)
  | piece => piece

def collectTerms (items : List Piece) : Piece := terms (items.flatMap toTerms)

def collectLetters (items : List Piece) : Piece := letters (items.flatMap toLetters)

def apply (head tail : Piece) : Piece := term (.app (head.toTerms ++ tail.toTerms))

def lambdaOf (params : Piece) : Piece → Piece
  | term body => term (.abs params.toLetters body)
  | piece => piece

end Piece

def isLetter (c : Char) : Bool := 'a' ≤ c && c ≤ 'z'

open Assembly in
/-- Makes the parser of expressions. -/
def assembly : Assembly Piece (Parser Piece × Names) := do
  let appForward ← declareParser "app"
  let rhsForward ← declareParser "rhs"
  let absForward ← declareParser "abs"
  let exp ← choose [← parserSlot ⟨.forward appForward, none⟩, ← parserSlot ⟨.forward rhsForward, none⟩]
  let id ← character "[a-z]" isLetter .letter
  let paren ← closedBy (← keepSecond (← literalParser "(" .unit) exp) ")" .unit
  let rhs ← choose [← readyParser (.map id "var" Piece.variableOf),
    ← parserSlot ⟨.forward absForward, none⟩, ← readyParser paren]
  let operands ← plusParser rhs Piece.collectTerms
  let app ← pair rhs operands "app" Piece.apply
  let lambda ← literalParser "λ" .unit
  let params ← closedBy (← keepSecond lambda (← plusParser id Piece.collectLetters)) "." .unit
  let abs ← pair params exp "abs" Piece.lambdaOf
  defineParser appForward app
  defineParser rhsForward rhs
  defineParser absForward abs
  let names := Names.empty.set exp.rule "exp" |>.set rhs.rule "rhs" |>.set app.rule "app"
    |>.set abs.rule "abs" |>.set id.rule "id" |>.set paren.rule "paren"
  return (exp, names)

def workspace : Workspace Piece :=
  match assembly .empty with
  | .ok _ w | .error _ w => w

def root : Parser Piece :=
  match assembly .empty with
  | .ok (exp, _) _ => exp
  | .error _ _ => .choice 0 []

def sample : Except SampleError (Sample Piece) := Sample.ofAssembly "lambda" Piece.render assembly

/-- Parses an expression from the start of an input: its term and where it ends. -/
def parseTerm (input : String) (config : Config) : Except SampleError (Option (Term × Nat)) := do
  let parsed ← (← sample).parse input config
  return parsed.bind fun x => x.value.term?.map fun t => (t, x.span.stop)

end Packrat.Lambda
