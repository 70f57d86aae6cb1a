import Packrat.Text.Decimal
import Packrat.Text.Span

/-! Values of parsers that are put together at run time, and the functions on them. -/

namespace Packrat

inductive Value where
  | unit
  | char (c : Char)
  | text (chars : List Char)
  | number (n : Nat)
  | invalid (message : String)
  | list (items : List Value)
  | option (item : Option Value)
  | pair (first second : Value)
  | tagged (tag : String) (value : Value)
  | spanned (value : Value) (span : Span)

namespace Value

mutual

def chars : Value → List Char
  | unit | number _ | invalid _ => []
  | char c => [c]
  | text cs => cs
  | list items => charsOfList items
  | option none => []
  | option (some item) => item.chars
  | pair first second => first.chars ++ second.chars
  | tagged _ value => value.chars
  | spanned value _ => value.chars

def charsOfList : List Value → List Char
  | [] => []
  | v :: rest => v.chars ++ charsOfList rest

end

/-- Puts a value before a list; any other second value makes a list of two. -/
def cons (v : Value) : Value → Value
  | list items => list (v :: items)
  | w => list [v, w]

/-- Puts a value after a list; any other first value makes a list of two. -/
def append : Value → Value → Value
  | list items, w => list (items ++ [w])
  | v, w => list [v, w]

/-- The length of a list or a text; other values stay as they are. -/
def length : Value → Value
  | list items => number items.length
  | text cs => number cs.length
  | v => v

/-- Reads a text as a number of 32 bits; other values stay as they are. -/
def readNumber : Value → Value
  | text cs =>
    match Decimal.read Decimal.max32 cs with
    | .ok n => number n
    | .error e => invalid e.message
  | v => v

end Value

inductive Combiner where
  | pair
  | left
  | right
  | cons
  | append
  deriving DecidableEq, Repr

namespace Combiner

def name : Combiner → String
  | pair => "pair"
  | left => "left"
  | right => "right"
  | cons => "cons"
  | append => "append"

def all : List Combiner := [pair, left, right, cons, append]

def apply : Combiner → Value → Value → Value
  | pair, a, b => .pair a b
  | left, a, _ => a
  | right, _, b => b
  | cons, a, b => a.cons b
  | append, a, b => a.append b

end Combiner

inductive Transform where
  | tag (tag : String)
  /-- Leaves the value alone; uses are counted under the name. -/
  | count (counter : String)
  | text
  | length
  | readNumber
  | unit
  deriving DecidableEq, Repr

namespace Transform

def apply : Transform → Value → Value
  | tag t, v => .tagged t v
  | count _, v => v
  | text, v => .text v.chars
  | length, v => v.length
  | readNumber, v => v.readNumber
  | unit, _ => .unit

/-- The label of uses that are counted under a name. -/
def counterLabel (counter : String) : String := "count " ++ counter

def label : Transform → String
  | tag _ => "tag"
  | count counter => counterLabel counter
  | text => "text"
  | length => "length"
  | readNumber => "number"
  | unit => "unit"

end Transform

end Packrat
