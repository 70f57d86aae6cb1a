/-! How top-level parses are run. -/

namespace Packrat

/-- What a memo table remembers. -/
inductive Strategy where
  | none
  | full
  deriving DecidableEq, Repr

namespace Strategy

def name : Strategy → String
  | none => "None"
  | full => "Full"

end Strategy

/-- How a top-level parse is run. The capacity is a hint that changes no answer. -/
structure Config where
  strategy : Strategy
  capacity : Nat
  deriving DecidableEq, Repr

namespace Config

/-- What a parse is run with if no configuration is named. -/
def memoized : Config := ⟨.full, 0⟩

def unmemoized : Config := ⟨.none, 0⟩

end Config

end Packrat
