import DiceNotation.Chance

/-!
# Scripted chance

A source that replays a fixed list of die faces over and over. A face makes a die that has it
show it; a die with fewer sides counts on from one again. Fractions read the face as hundredths.
-/

namespace DiceNotation

/-- A list of faces and how many of them have been used. -/
structure Script where
  faces : Array Nat
  used : Nat
deriving DecidableEq

namespace Script

/-- A script from its beginning. -/
def ofFaces (faces : List Nat) : Script := ⟨faces.toArray, 0⟩

/-- The next face, counted from zero. Without faces every face is the first; a face of zero
counts as the first as well. -/
def next : StateM Script Nat := fun s ↦
  match s.faces[s.used % s.faces.size]? with
  | none => (0, s)
  | some face => (face - 1, { s with used := s.used + 1 })

instance : Chance Script where
  below bound := do
    let face ← next
    return face % bound
  fraction := do
    let face ← next
    return .ofNat (face % 100) / 100

end Script

end DiceNotation
