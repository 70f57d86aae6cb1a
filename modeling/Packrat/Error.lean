import Packrat.Text.Quoted

/-! What can go wrong: moving in a text, assembling a grammar, parsing, and misuse of the engine. -/

namespace Packrat

inductive CursorError where
  | endOfInput (position : Nat)
  | outOfRange (position length : Nat)
  deriving DecidableEq, Repr

inductive GrammarError where
  | emptyChoice
  | emptySequence
  | alreadyDefined (name : String)
  deriving DecidableEq, Repr

inductive ParseError where
  /-- The grammar does not match; no other cause is kept. -/
  | rejected
  | cursor (cause : CursorError)
  deriving DecidableEq, Repr

/-- Misuse that no caller may recover from: the run stops where it stands. -/
inductive Fault where
  | undefinedForward (name : String)
  | rewindPastEnd (position length : Nat)
  | offsetPastEnd (offset length : Nat)
  deriving DecidableEq, Repr

/-- Why a run stopped before giving its answer. -/
inductive Halt where
  | failed (error : ParseError)
  | faulted (fault : Fault)
  /-- The run needed more fuel than it was given. -/
  | exhausted
  deriving DecidableEq, Repr

namespace CursorError

def message : CursorError → String
  | endOfInput p => s!"unexpected end of input at position {p}"
  | outOfRange p n => s!"position {p} is out of range for input of length {n}"

def code : CursorError → String
  | endOfInput _ => "pegrat::cursor::end_of_input"
  | outOfRange _ _ => "pegrat::cursor::out_of_range"

def debug : CursorError → String
  | endOfInput p => s!"EndOfInput \x7b position: {p} \x7d"
  | outOfRange p n => s!"OutOfRange \x7b position: {p}, length: {n} \x7d"

end CursorError

namespace GrammarError

def message : GrammarError → String
  | emptyChoice => "an ordered choice needs at least one alternative"
  | emptySequence => "a sequence needs at least one element"
  | alreadyDefined name => s!"forward declaration `{name}` was already defined"

def code : GrammarError → String
  | emptyChoice => "pegrat::grammar::empty_choice"
  | emptySequence => "pegrat::grammar::empty_sequence"
  | alreadyDefined _ => "pegrat::grammar::already_defined"

def debug : GrammarError → String
  | emptyChoice => "EmptyChoice"
  | emptySequence => "EmptySequence"
  | alreadyDefined name => "AlreadyDefined \x7b what: " ++ Quoted.quote name ++ " \x7d"

end GrammarError

namespace ParseError

def isRejection : ParseError → Bool
  | rejected => true
  | cursor _ => false

def message : ParseError → String
  | rejected => "input was rejected by the grammar"
  | cursor cause => cause.message

def code : ParseError → String
  | rejected => "pegrat::rejected"
  | cursor cause => cause.code

def debug : ParseError → String
  | rejected => "Rejected"
  | cursor cause => "Cursor(" ++ cause.debug ++ ")"

def help? : ParseError → Option String
  | rejected => some "the root rule does not match at the start of the input"
  | cursor _ => none

end ParseError

namespace Fault

def message : Fault → String
  | undefinedForward name => s!"forward declaration `{name}` was used before it was defined"
  | rewindPastEnd p n => s!"rewind to {p} past end {n}"
  | offsetPastEnd p n => s!"Offset {p} exceeds text length {n}"

end Fault

end Packrat
