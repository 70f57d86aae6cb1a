import Packrat.Engine.Recognition

/-!
Construction: a parser first lets its rule decide and then builds the value over the span that the
rule accepted. Building walks the parts of the parser in the same way, so nothing is built for an
alternative that does not match.
-/

namespace Packrat

namespace Engine

variable {V : Type}

/-- Lets the rule decide, goes back, builds, and ends where the rule ended. -/
def twoPass (text : Buffer) (accept : RuleId → Engine V Bool) (rule : RuleId) (build : Engine V V) :
    Engine V V := do
  let start ← position
  if ← accept rule then
    let stop ← position
    rewind text start
    let value ← build
    jump text stop
    return value
  else
    rewind text start
    reject

/-- The value of the first alternative that matches. -/
def firstOf (parse : Nat → Engine V V) : List Nat → Engine V V
  | [] => reject
  | slot :: rest => do
    match ← attempt (parse slot) with
    | some value => return value
    | none => firstOf parse rest

/-- Values of an item as long as it matches, in order. -/
def gather (item : Engine V V) : Nat → Engine V (List V)
  | 0 => throw .exhausted
  | limit + 1 => do
    match ← attempt item with
    | some value => return value :: (← gather item limit)
    | none => return []

end Engine

namespace Parser

open Engine

variable {V : Type} (text : Buffer)

/-- Builds the value from the start of a span that the parser's rule has accepted. Rules are
accepted by `accept`, slots are parsed by `parse`, and no repetition goes beyond `limit` rounds. -/
def build (accept : RuleId → Engine V Bool) (parse : Nat → Engine V V) (limit : Nat) :
    Parser V → Engine V V
  | silent r value => do
    if ← accept r then return value else reject
  | character _ embed => return embed (← next text)
  | characters r embed => do
    let start ← position
    if ← accept r then
      let stop ← position
      return embed (← liftCursor (text.substring start stop))
    else reject
  | pair _ first second label combine => do
    let a ← twoPass text accept first.rule (build accept parse limit first)
    let b ← twoPass text accept second.rule (build accept parse limit second)
    perform label
    return combine a b
  | choice _ slots => firstOf parse slots
  | star _ item collect =>
    return collect (← gather (twoPass text accept item.rule (build accept parse limit item)) limit)
  | plus _ item collect => do
    let first ← twoPass text accept item.rule (build accept parse limit item)
    let rest ← gather (twoPass text accept item.rule (build accept parse limit item)) limit
    return collect (first :: rest)
  | option _ item embed =>
    return embed (← attempt (twoPass text accept item.rule (build accept parse limit item)))
  | map inner label transform => do
    let value ← build accept parse limit inner
    perform label
    return transform value
  | spanned inner embed => do
    let start ← position
    let value ← build accept parse limit inner
    return embed value (← liftCursor (Span.make text start (← position)))
  | deferred _ slot => parse slot

end Parser

namespace Engine

variable {V : Type} (g : Grammar V) (text : Buffer)

/-- Parses with the parser of a slot. Rules are accepted with `limit` fuel. -/
def parseSlot (limit : Nat) : Nat → Nat → Engine V V
  | 0, _ => throw .exhausted
  | fuel + 1, slot => do
    let p ← resolve (g.resolveParser slot)
    twoPass text (accept g text limit) p.rule
      (p.build text (accept g text limit) (parseSlot limit fuel) limit)

def construct (fuel : Nat) (p : Parser V) : Engine V V :=
  p.build text (accept g text fuel) (parseSlot g text fuel fuel) fuel

/-- Parses at the position. After a match the position is its end, after a rejection where it
was. -/
def parseAt (fuel : Nat) (p : Parser V) : Engine V V :=
  twoPass text (accept g text fuel) p.rule (construct g text fuel p)

end Engine

end Packrat
