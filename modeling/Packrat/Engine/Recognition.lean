import Packrat.Engine.Run

/-!
Recognition: does a rule match at the position, and where does the match end? After a rejection the
position is wherever the rule gave up, so whoever goes on after one returns to a position of its own.
-/

namespace Packrat

namespace Engine

variable {V : Type} (g : Grammar V) (text : Buffer)

/-- Matches the characters one by one. -/
def matchChars : List Char → Engine V Bool
  | [] => return true
  | c :: rest => do
    match ← advance text with
    | some d => if d = c then matchChars rest else return false
    | none => return false

def matchChar (test : Char → Bool) : Engine V Bool := do
  match ← advance text with
  | some c => return test c
  | none => return false

/-- Matches rules one after another, up to the first that rejects. -/
def matchAll (accept : RuleId → Engine V Bool) : List RuleId → Engine V Bool
  | [] => return true
  | r :: rest => do
    if ← accept r then matchAll accept rest else return false

/-- Tries alternatives from `start` in order; the first that matches wins. -/
def matchFirst (accept : RuleId → Engine V Bool) (start : Nat) : List Alternative → Engine V Bool
  | [] => return false
  | a :: rest => do
    let r ← resolve (g.resolveAlternative a)
    if ← accept r then return true
    rewind text start
    matchFirst accept start rest

/-- Matches as often as possible and ends after the last match. -/
def matchMany (item : Engine V Bool) : Nat → Engine V Unit
  | 0 => throw .exhausted
  | limit + 1 => do
    let start ← position
    if ← item then matchMany item limit else rewind text start

/-- Matches without consuming anything, and without leaving anything in the memo table. -/
def lookahead (item : Engine V Bool) : Engine V Bool := do
  let start ← position
  let matched ← unmemoized item
  rewind text start
  return matched

/-- One level of a rule, given how its children are accepted. No repetition goes beyond `limit`
rounds. -/
def evaluate (accept : RuleId → Engine V Bool) (limit : Nat) : Body → Engine V Bool
  | .literal chars => matchChars text chars
  | .predicate _ test => matchChar text test
  | .sequence rules => matchAll accept rules
  | .choice alternatives => do matchFirst g text accept (← position) alternatives
  | .star item => do
    matchMany text (accept item) limit
    return true
  | .plus item => do
    if ← accept item then
      matchMany text (accept item) limit
      return true
    else return false
  | .option item => do
    let start ← position
    if ← accept item then return true
    rewind text start
    return true
  | .and item => lookahead text (accept item)
  | .not item => return !(← lookahead text (accept item))

/-- Whether a rule matches at the position. What the memo table knows is taken from there; anything
else is evaluated and then recorded. -/
def accept : Nat → RuleId → Engine V Bool
  | 0, _ => throw .exhausted
  | fuel + 1, r => do
    let start ← position
    match ← consult ⟨r, start⟩ with
    | some (.accepted stop) =>
      rewind text stop
      return true
    | some .rejected => return false
    | none =>
      let accepted ← evaluate g text (accept fuel) fuel (g.body r)
      let stop ← position
      remember ⟨r, start⟩ (if accepted then .accepted stop else .rejected)
      report (.evaluated r (g.kind r) start stop accepted)
      return accepted

end Engine

end Packrat
