import Packrat.Text.Lines

/-! A reading position in a text. -/

namespace Packrat

structure Cursor where
  buffer : Buffer
  position : Nat
  deriving DecidableEq, Repr

namespace Cursor

def ofBuffer (b : Buffer) : Cursor := ⟨b, 0⟩

def hasNext (c : Cursor) : Bool := c.position < c.buffer.length

def peek? (c : Cursor) : Option Char := c.buffer.char? c.position

def next (c : Cursor) : Except CursorError (Char × Cursor) :=
  match c.peek? with
  | some ch => .ok (ch, { c with position := c.position + 1 })
  | none => .error (.endOfInput c.position)

def jump (c : Cursor) (position : Nat) : Except CursorError Cursor :=
  if position ≤ c.buffer.length then .ok { c with position }
  else .error (.outOfRange position c.buffer.length)

def lineNumber (c : Cursor) : Nat := c.buffer.lineNumber c.position

/-- The characters in `start ..< stop`, wherever the cursor stands. -/
def substring (c : Cursor) (start stop : Nat) : Except CursorError (List Char) :=
  c.buffer.substring start stop

end Cursor

end Packrat
