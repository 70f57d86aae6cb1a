/-! Terms of the untyped lambda calculus, with their written forms. -/

namespace Packrat

inductive Term where
  | var (name : Char)
  | abs (params : List Char) (body : Term)
  | app (terms : List Term)

namespace Term

mutual

/-- The term with every application and abstraction in parentheses. -/
def chars : Term → List Char
  | var name => [name]
  | abs params body => '(' :: 'λ' :: params ++ '.' :: body.chars ++ [')']
  | app terms => '(' :: charsOfList terms ++ [')']

def charsOfList : List Term → List Char
  | [] => []
  | [t] => t.chars
  | t :: rest => t.chars ++ ' ' :: charsOfList rest

end

def display (t : Term) : String := String.ofList t.chars

def quoteLetter (c : Char) : String := String.ofList ['\'', c, '\'']

mutual

def debug : Term → String
  | var name => "Var(" ++ quoteLetter name ++ ")"
  | abs params body =>
    "Abs([" ++ ", ".intercalate (params.map quoteLetter) ++ "], " ++ body.debug ++ ")"
  | app terms => "App([" ++ ", ".intercalate (debugOfList terms) ++ "])"

def debugOfList : List Term → List String
  | [] => []
  | t :: rest => t.debug :: debugOfList rest

end

end Term

end Packrat
