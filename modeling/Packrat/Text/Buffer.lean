import Packrat.Error

/-! Loaded texts, addressed by character position. -/

namespace Packrat

/-- A loaded text. Texts loaded separately carry different `id`s, even if their characters agree, and
their spans cannot be joined. -/
structure Buffer where
  id : Nat
  chars : Array Char
  deriving DecidableEq, Repr

namespace Buffer

def load (id : Nat) (text : String) : Buffer := ⟨id, text.toList.toArray⟩

def length (b : Buffer) : Nat := b.chars.size

def isEmpty (b : Buffer) : Bool := b.chars.isEmpty

def char? (b : Buffer) (position : Nat) : Option Char := b.chars[position]?

/-- The characters in `start ..< stop`, if that range lies inside the text. -/
def slice? (b : Buffer) (start stop : Nat) : Option (List Char) :=
  if start ≤ stop ∧ stop ≤ b.length then some ((b.chars.toList.drop start).take (stop - start))
  else none

/-- The characters in `start ..< stop`, where a range outside the text is an error. -/
def substring (b : Buffer) (start stop : Nat) : Except CursorError (List Char) :=
  match b.slice? start stop with
  | some chars => .ok chars
  | none => .error (.outOfRange (max start stop) b.length)

theorem char?_eq_none_iff {b : Buffer} {p : Nat} : b.char? p = none ↔ b.length ≤ p := by
  simp [char?, length]

theorem char?_eq_some_iff {b : Buffer} {p : Nat} {c : Char} :
    b.char? p = some c ↔ ∃ h : p < b.length, b.chars[p] = c := by
  simp [char?, length, Array.getElem?_eq_some_iff]

theorem slice?_isSome_iff {b : Buffer} {p q : Nat} :
    (b.slice? p q).isSome ↔ p ≤ q ∧ q ≤ b.length := by
  unfold slice?
  split <;> simp_all

theorem length_of_slice? {b : Buffer} {p q : Nat} {cs : List Char} (h : b.slice? p q = some cs) :
    p + cs.length = q := by
  unfold slice? at h
  split at h
  · rename_i hb
    cases h
    simp only [length] at hb
    simp only [List.length_take, List.length_drop, Array.length_toList]
    omega
  · cases h

end Buffer

end Packrat
