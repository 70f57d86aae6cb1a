import Packrat.Grammar.Bindings

/-!
Listings: a grammar in its usual notation, one line for each rule that needs one. Sequences, choices
and named rules have lines; terminals and unary rules are written where they are used. Lines come
breadth first from the root, each rule once.
-/

namespace Packrat

/-- Display names of rules. The last name given to a rule counts. -/
structure Names where
  map : Std.TreeMap RuleId String

namespace Names

def empty : Names := ⟨∅⟩

def set (names : Names) (r : RuleId) (name : String) : Names := ⟨names.map.insert r name⟩

def get? (names : Names) (r : RuleId) : Option String := names.map[r]?

def contains (names : Names) (r : RuleId) : Bool := (names.get? r).isSome

/-- The name of a rule, or its number if it has none. -/
def display (names : Names) (r : RuleId) : String := (names.get? r).getD (toString r)

end Names

/-- A part of the right-hand side of a line. -/
inductive Piece where
  | text (text : String)
  | reference (rule : RuleId)
  deriving DecidableEq, Repr

namespace Piece

def render (names : Names) : Piece → String
  | text t => t
  | reference r => "<" ++ names.display r ++ ">"

end Piece

structure Line where
  id : RuleId
  name : String
  rhs : String
  deriving DecidableEq, Repr

namespace Line

def display (line : Line) : String := "<" ++ line.name ++ "> ::= " ++ line.rhs

def debug (line : Line) : String :=
  let id := line.id
  s!"GrammarLine \x7b id: RuleId({id}), name: " ++ Quoted.quote line.name ++ ", rhs: " ++
    Quoted.quote line.rhs ++ " \x7d"

end Line

namespace Grammar

variable {V : Type} (g : Grammar V) (names : Names)

/-- How a rule is written inside another: by its name, or else as `inline` says. -/
def referTo (inline : RuleId → Option (List Piece)) (r : RuleId) : Option (List Piece) :=
  if names.contains r then some [.reference r] else inline r

/-- How a rule itself is written where it is used, whatever its name. -/
def inline : Nat → RuleId → Option (List Piece)
  | 0, _ => none
  | fuel + 1, r =>
    let operand := referTo names (inline fuel)
    match g.body r with
    | .literal text => some [.text ("\"" ++ String.ofList text ++ "\"")]
    | .predicate description _ => some [.text description]
    | .sequence _ | .choice _ => some [.reference r]
    | .star item => (operand item).map (· ++ [.text "*"])
    | .plus item => (operand item).map (· ++ [.text "+"])
    | .option item => (operand item).map (· ++ [.text "?"])
    | .and item => (operand item).map (.text "&" :: ·)
    | .not item => (operand item).map (.text "!" :: ·)

/-- Passes through unary rules without a name to the rule they are about. -/
def subject : Nat → RuleId → Option RuleId
  | 0, _ => none
  | fuel + 1, r =>
    match (g.body r).operand? with
    | some item => if names.contains r then some r else subject fuel item
    | none => some r

def isListed (r : RuleId) : Bool :=
  names.contains r || g.kind r = .sequence || g.kind r = .choice

/-- Fuel for one rule: a unary rule is made after the rule it wraps. -/
def depth : Nat := g.rules.size + 1

def orExhausted {α : Type} : Option α → Resolution V α
  | some a => pure a
  | none => throw .exhausted

def rhs (r : RuleId) : Resolution V (List Piece) := do
  let listed (divider : String) : Resolution V (List Piece) := do
    let parts ← (← g.children r).mapM fun child =>
      orExhausted (referTo names (g.inline names g.depth) child)
    return (parts.intersperse [.text divider]).flatten
  match g.kind r with
  | .sequence => listed " "
  | .choice => listed "/"
  | _ => orExhausted (g.inline names g.depth r)

def line (r : RuleId) : Resolution V Line := do
  let pieces ← g.rhs names r
  return ⟨r, names.display r, String.join (pieces.map (Piece.render names))⟩

/-- The rules that a rule's children are about and that have lines, in order. -/
def targets (r : RuleId) : Resolution V (List RuleId) := do
  let reached ← (← g.children r).mapM fun child => orExhausted (g.subject names g.depth child)
  return reached.filter (g.isListed names)

/-- Those of `rules` that are not in `seen`, each once, and `seen` with them. -/
def discover (seen : List RuleId) : List RuleId → List RuleId × List RuleId
  | [] => ([], seen)
  | r :: rest =>
    if r ∈ seen then discover seen rest
    else
      let (fresh, seen) := discover (r :: seen) rest
      (r :: fresh, seen)

/-- The lines of the rules in `queue` and of those found from them; `seen` holds every rule that was
ever in the queue. -/
def walk : Nat → List RuleId → List RuleId → Resolution V (List Line)
  | _, [], _ => return []
  | 0, _ :: _, _ => throw .exhausted
  | fuel + 1, r :: queue, seen => do
    let line ← g.line names r
    let (fresh, seen) := discover seen (← g.targets names r)
    return line :: (← walk fuel (queue ++ fresh) seen)

/-- The lines of all rules reached from `root`, the root first. -/
def lines (root : RuleId) : Resolution V (List Line) :=
  walk g names (g.rules.size + 1) [root] [root]

/-- The whole listing, each line ended by a line feed. -/
def listing (root : RuleId) : Resolution V String :=
  return String.join ((← g.lines names root).map fun line => line.display ++ "\n")

/-- The line of one rule, as text. -/
def describe (r : RuleId) : Resolution V String := return (← g.line names r).display

end Grammar

end Packrat
