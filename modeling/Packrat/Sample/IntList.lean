import Packrat.Sample.Basic
import Packrat.Text.Decimal

/-! Lists of numbers such as `[1, 22, 333]`. -/

namespace Packrat.IntList

/-- What the parts of a list are worth. A numeral that is too large still matches. -/
inductive Piece where
  | unit
  | number (value : Except Decimal.Error Nat)
  | numbers (values : List (Except Decimal.Error Nat))

namespace Piece

def values : Piece → List (Except Decimal.Error Nat)
  | number value => [value]
  | numbers values => values
  | _ => []

def ofDigits (digits : List Char) : Piece := number (Decimal.read Decimal.max64 digits)

def collect (items : List Piece) : Piece := numbers (items.flatMap values)

def join (first rest : Piece) : Piece := numbers (first.values ++ rest.values)

/-- The list in brackets, or what is wrong with its first bad number. -/
def render (piece : Piece) : String :=
  match piece.values.mapM id with
  | .ok ns => "[" ++ ", ".intercalate (ns.map toString) ++ "]"
  | .error e => "invalid integer: " ++ e.message

end Piece

open Assembly in
/-- A list is a bracket, a number, further numbers each after a comma and a blank, a bracket. -/
def assembly : Assembly Piece (Parser Piece × Names) := do
  let int ← characters "[0-9]" Decimal.isDigit Piece.ofDigits
  let separated ← keepSecond (← literalParser ", " .unit) int
  let rest ← starParser separated Piece.collect
  let items ← pair int rest "items" Piece.join
  let list ← closedBy (← keepSecond (← literalParser "[" .unit) items) "]" .unit
  let names := Names.empty.set list.rule "intList" |>.set separated.rule "separated"
  return (list, names)

def workspace : Workspace Piece :=
  match assembly .empty with
  | .ok _ w | .error _ w => w

def root : Parser Piece :=
  match assembly .empty with
  | .ok (list, _) _ => list
  | .error _ _ => .choice 0 []

def sample : Except SampleError (Sample Piece) := Sample.ofAssembly "int-list" Piece.render assembly

/-- Parses a list from the start of an input: how its value is shown, and its span. -/
def parseList (input : String) (config : Config) : Except SampleError (Option (Spanned String)) := do
  let s ← sample
  return (← s.parse input config).map (Spanned.map s.render)

end Packrat.IntList
