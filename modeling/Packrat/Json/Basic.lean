/-! Structured values as JSON text, in one line or indented. -/

namespace Packrat

inductive Json where
  | null
  | bool (b : Bool)
  | number (n : Nat)
  | string (s : String)
  | array (items : List Json)
  | object (fields : List (String × Json))

namespace Json

def ofOption {α : Type} (toJson : α → Json) : Option α → Json
  | some a => toJson a
  | none => null

def fourDigits (n : Nat) : List Char :=
  ['0', '0', (n / 16).digitChar, (n % 16).digitChar]

def escape (c : Char) : List Char :=
  match c with
  | '"' => ['\\', '"']
  | '\\' => ['\\', '\\']
  | '\x08' => ['\\', 'b']
  | '\t' => ['\\', 't']
  | '\n' => ['\\', 'n']
  | '\x0c' => ['\\', 'f']
  | '\r' => ['\\', 'r']
  | c => if c.toNat < 32 then '\\' :: 'u' :: fourDigits c.toNat else [c]

def quote (s : String) : String := "\"" ++ String.ofList (s.toList.flatMap escape) ++ "\""

/-- The text of a value that is neither an array nor an object. -/
def scalar : Json → String
  | bool b => toString b
  | number n => toString n
  | string s => quote s
  | _ => "null"

mutual

/-- The value in one line without blanks. -/
def compact : Json → String
  | array items => "[" ++ ",".intercalate (compactItems items) ++ "]"
  | object fields => "\x7b" ++ ",".intercalate (compactFields fields) ++ "\x7d"
  | value => value.scalar

def compactItems : List Json → List String
  | [] => []
  | item :: rest => item.compact :: compactItems rest

def compactFields : List (String × Json) → List String
  | [] => []
  | (name, value) :: rest => (quote name ++ ":" ++ value.compact) :: compactFields rest

end

/-- Parts on lines of their own between two brackets, indented one step more than `margin`. -/
def block (margin : Nat) (opening closing : String) : List String → String
  | [] => opening ++ closing
  | parts =>
    let line (indent : Nat) := "\n" ++ String.ofList (List.replicate indent ' ')
    opening ++ line (margin + 2) ++ (("," ++ line (margin + 2)).intercalate parts) ++ line margin ++
      closing

mutual

/-- The value over several lines, two blanks to a level. -/
def indented (margin : Nat) : Json → String
  | array items => block margin "[" "]" (indentedItems (margin + 2) items)
  | object fields => block margin "\x7b" "\x7d" (indentedFields (margin + 2) fields)
  | value => value.scalar

def indentedItems (margin : Nat) : List Json → List String
  | [] => []
  | item :: rest => item.indented margin :: indentedItems margin rest

def indentedFields (margin : Nat) : List (String × Json) → List String
  | [] => []
  | (name, value) :: rest =>
    (quote name ++ ": " ++ value.indented margin) :: indentedFields margin rest

end

def pretty (value : Json) : String := value.indented 0

end Json

end Packrat
