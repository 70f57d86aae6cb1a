import Packrat.Text.Buffer

/-! Lines and columns. A line feed, a carriage return, and the two together each end one line. -/

namespace Packrat

/-- A place in a text, both numbers counted from zero. -/
structure LineColumn where
  line : Nat
  column : Nat
  deriving DecidableEq, Repr

/-- The positions just after the line breaks of `chars`, where the first of `chars` has position
`position`. -/
def lineBreaks (position : Nat) : List Char → List Nat
  | [] => []
  | '\r' :: '\n' :: rest => (position + 2) :: lineBreaks (position + 2) rest
  | c :: rest =>
    if c = '\n' ∨ c = '\r' then (position + 1) :: lineBreaks (position + 1) rest
    else lineBreaks (position + 1) rest

namespace Buffer

/-- Where the lines of the text start, in order. -/
def lineStarts (b : Buffer) : List Nat := 0 :: lineBreaks 0 b.chars.toList

def lineCount (b : Buffer) : Nat := b.lineStarts.length

def lineStart? (b : Buffer) (line : Nat) : Option Nat := b.lineStarts[line]?

/-- The line starts up to an offset, the first line's apart. -/
def startsUpTo (b : Buffer) (offset : Nat) : List Nat :=
  (lineBreaks 0 b.chars.toList).takeWhile (· ≤ offset)

/-- The place of an offset that lies in the text; a line break belongs to the line that it ends. -/
def place (b : Buffer) (offset : Nat) : LineColumn :=
  let starts := b.startsUpTo offset
  ⟨starts.length, offset - starts.getLastD 0⟩

def lineColumn (b : Buffer) (offset : Nat) : Except Fault LineColumn :=
  if offset ≤ b.length then .ok (b.place offset) else .error (.offsetPastEnd offset b.length)

/-- The number of the line of an offset, counted from one. -/
def lineNumber (b : Buffer) (offset : Nat) : Nat := (b.place offset).line + 1

end Buffer

namespace LineColumn

def debug (p : LineColumn) : String :=
  let line := p.line
  let column := p.column
  s!"LineCol \x7b line: {line}, column: {column} \x7d"

end LineColumn

end Packrat
