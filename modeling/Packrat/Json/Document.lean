import Packrat.Text.Decimal

/-!
Reading JSON text. Whatever has the form of JSON is read; values that no reader of a stored value can
use are kept as `unreadable`, since they may stand where nobody looks.
-/

namespace Packrat

inductive Document where
  | null
  | bool (b : Bool)
  /-- An integer without a sign, fraction or exponent. -/
  | number (n : Nat)
  | text (s : String)
  /-- Any other number, or a text with half a surrogate pair. -/
  | unreadable
  | array (items : List Document)
  /-- The fields as written, repeated ones included. -/
  | object (fields : List (Option String × Document))

namespace Document

def isBlank (c : Char) : Bool := c = ' ' || c = '\n' || c = '\t' || c = '\r'

def skipBlanks (cs : List Char) : List Char := cs.dropWhile isBlank

def hexDigit? (c : Char) : Option Nat :=
  if Decimal.isDigit c then some (Decimal.worth c)
  else if 'a' ≤ c ∧ c ≤ 'f' then some (c.toNat - 'a'.toNat + 10)
  else if 'A' ≤ c ∧ c ≤ 'F' then some (c.toNat - 'A'.toNat + 10)
  else none

def hex4? : List Char → Option (Nat × List Char)
  | a :: b :: c :: d :: rest => do
    let a ← hexDigit? a
    let b ← hexDigit? b
    let c ← hexDigit? c
    let d ← hexDigit? d
    return (((a * 16 + b) * 16 + c) * 16 + d, rest)
  | _ => none

/-- The character that an escape of one letter stands for. -/
def simpleEscape? : Char → Option Char
  | '"' => some '"'
  | '\\' => some '\\'
  | '/' => some '/'
  | 'b' => some '\x08'
  | 'f' => some '\x0c'
  | 'n' => some '\n'
  | 'r' => some '\r'
  | 't' => some '\t'
  | _ => none

/-- The code units of a string up to its closing quote, and what follows. Escapes of four digits are
units of their own. -/
def units? : Nat → List Char → Option (List Nat × List Char)
  | 0, _ => none
  | _, [] => none
  | _, '"' :: rest => some ([], rest)
  | fuel + 1, '\\' :: 'u' :: rest => do
    let (unit, rest) ← hex4? rest
    let (units, rest) ← units? fuel rest
    return (unit :: units, rest)
  | fuel + 1, '\\' :: c :: rest => do
    let c ← simpleEscape? c
    let (units, rest) ← units? fuel rest
    return (c.toNat :: units, rest)
  | fuel + 1, c :: rest =>
    if c.toNat < 32 then none
    else do
      let (units, rest) ← units? fuel rest
      return (c.toNat :: units, rest)

def isHigh (unit : Nat) : Bool := 0xD800 ≤ unit && unit < 0xDC00

def isLow (unit : Nat) : Bool := 0xDC00 ≤ unit && unit < 0xE000

/-- Joins surrogate pairs; `none` if a half stands alone. -/
def joinUnits? : List Nat → Option (List Char)
  | [] => some []
  | [unit] => if isHigh unit || isLow unit then none else some [Char.ofNat unit]
  | unit :: second :: rest =>
    if isHigh unit then
      if isLow second then do
        let cs ← joinUnits? rest
        return Char.ofNat (0x10000 + (unit - 0xD800) * 0x400 + (second - 0xDC00)) :: cs
      else none
    else if isLow unit then none
    else do
      let cs ← joinUnits? (second :: rest)
      return Char.ofNat unit :: cs

/-- Reads a string after its opening quote. The text is `none` if a surrogate stands alone. -/
def string? (cs : List Char) : Option (Option String × List Char) := do
  let (units, rest) ← units? (cs.length + 1) cs
  return ((joinUnits? units).map String.ofList, rest)

def digits? (cs : List Char) : Option (List Char × List Char) :=
  match cs.span Decimal.isDigit with
  | ([], _) => none
  | found => some found

/-- Reads a number without its sign: its integer part, unless a fraction or an exponent follows. -/
def unsigned? (cs : List Char) : Option (Option Nat × List Char) := do
  let (whole, rest) ← digits? cs
  if whole.length > 1 && whole.head? = some '0' then none
  let value := whole.foldl (fun n c => n * 10 + Decimal.worth c) 0
  let (plain, rest) ← match rest with
    | '.' :: rest => do
      let (_, rest) ← digits? rest
      pure (false, rest)
    | rest => pure (true, rest)
  let exponent? (rest : List Char) : Option (List Char) := do
    let rest := match rest with
      | '+' :: rest | '-' :: rest => rest
      | rest => rest
    let (_, rest) ← digits? rest
    return rest
  match rest with
  | 'e' :: rest | 'E' :: rest => return (none, ← exponent? rest)
  | rest => return (if plain then some value else none, rest)

def number? : List Char → Option (Document × List Char)
  | '-' :: rest => do
    let (_, rest) ← unsigned? rest
    return (unreadable, rest)
  | cs => do
    let (value, rest) ← unsigned? cs
    return (match value with | some n => number n | none => unreadable, rest)

mutual

/-- Reads a value that starts after blanks. -/
def value? : Nat → List Char → Option (Document × List Char)
  | 0, _ => none
  | fuel + 1, cs =>
    match skipBlanks cs with
    | 'n' :: 'u' :: 'l' :: 'l' :: rest => some (null, rest)
    | 't' :: 'r' :: 'u' :: 'e' :: rest => some (bool true, rest)
    | 'f' :: 'a' :: 'l' :: 's' :: 'e' :: rest => some (bool false, rest)
    | '"' :: rest => do
      let (s, rest) ← string? rest
      return (match s with | some s => text s | none => unreadable, rest)
    | '[' :: rest =>
      match skipBlanks rest with
      | ']' :: rest => some (array [], rest)
      | rest => do
        let (items, rest) ← items? fuel rest
        return (array items, rest)
    | '\x7b' :: rest =>
      match skipBlanks rest with
      | '\x7d' :: rest => some (object [], rest)
      | rest => do
        let (fields, rest) ← fields? fuel rest
        return (object fields, rest)
    | cs => number? cs

def items? : Nat → List Char → Option (List Document × List Char)
  | 0, _ => none
  | fuel + 1, cs => do
    let (item, rest) ← value? fuel cs
    match skipBlanks rest with
    | ',' :: rest => do
      let (items, rest) ← items? fuel rest
      return (item :: items, rest)
    | ']' :: rest => return ([item], rest)
    | _ => none

def fields? : Nat → List Char → Option (List (Option String × Document) × List Char)
  | 0, _ => none
  | fuel + 1, cs =>
    match skipBlanks cs with
    | '"' :: rest => do
      let (name, rest) ← string? rest
      match skipBlanks rest with
      | ':' :: rest => do
        let (value, rest) ← value? fuel rest
        match skipBlanks rest with
        | ',' :: rest => do
          let (fields, rest) ← fields? fuel rest
          return ((name, value) :: fields, rest)
        | '\x7d' :: rest => return ([(name, value)], rest)
        | _ => none
      | _ => none
    | _ => none

end

/-- Reads a whole text as one value, with blanks around it. -/
def read? (source : String) : Option Document := do
  let cs := source.toList
  let (document, rest) ← value? (2 * cs.length + 2) cs
  if (skipBlanks rest).isEmpty then some document else none

end Document

end Packrat
