import Packrat.Text.Lines

/-! Spans of a text, and values that carry the span they were built from. -/

namespace Packrat

/-- The span `start ..< stop` of a text. -/
structure Span where
  buffer : Buffer
  start : Nat
  stop : Nat
  deriving DecidableEq, Repr

namespace Span

def make (buffer : Buffer) (start stop : Nat) : Except CursorError Span :=
  if start ≤ stop ∧ stop ≤ buffer.length then .ok ⟨buffer, start, stop⟩
  else .error (.outOfRange (if stop < start then start else stop) buffer.length)

def length (s : Span) : Nat := s.stop - s.start

def isEmpty (s : Span) : Bool := s.start == s.stop

def chars (s : Span) : List Char := (s.buffer.slice? s.start s.stop).getD []

def text (s : Span) : String := String.ofList s.chars

def lineNumber (s : Span) : Nat := s.buffer.lineNumber s.start

def sameSource (a b : Span) : Bool := a.buffer = b.buffer

/-- Joins a span with the one that follows it at once. -/
def concat? (a b : Span) : Option Span :=
  if a.sameSource b ∧ a.stop = b.start then some { a with stop := b.stop } else none

def display (s : Span) : String :=
  let start := s.start
  let stop := s.stop
  s!"{start}..{stop}"

def debug (s : Span) : String :=
  let start := s.start
  let stop := s.stop
  s!"Location \x7b start: {start}, end: {stop} \x7d"

end Span

/-- A value with the span it was built from. -/
structure Spanned (α : Type) where
  value : α
  span : Span

namespace Spanned

def map {α β : Type} (f : α → β) (x : Spanned α) : Spanned β := ⟨f x.value, x.span⟩

def debug {α : Type} (display : α → String) (x : Spanned α) : String :=
  "Located \x7b value: " ++ display x.value ++ ", location: " ++ x.span.debug ++ " \x7d"

end Spanned

end Packrat
