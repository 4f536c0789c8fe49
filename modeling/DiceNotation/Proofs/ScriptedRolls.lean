import DiceNotation.Proofs.RepeatedRolls
import DiceNotation.Proofs.WrittenValues

/-!
# Rolling with a script

A script starts again when its faces have been used up, so which face comes after so many others is
a matter of remainders (`Script.face`), and drawing moves the place in the script on by one face for
each draw (`Script.advance`). A script without faces has no place to be moved; it goes on to show
the first face of every die.

Several dice show the faces that the operands, which are evaluated before the first of them is
rolled, have left, each counted on from one again if the die does not have it.
-/

namespace DiceNotation

-- A power of naturals is the one whose laws the core library states, whatever is imported.
attribute [local instance (high)] instPowNat

namespace Script

/-! ## Faces

The place in the script is one of its faces, if there are any. A draw reads the next face, a zero as
a one, and a choice counts it on from the first one again if it is out of range. -/

/-- The face that is drawn after so many others. -/
def face (s : Script) (i : Nat) : Nat := (s.faces[(s.used + i) % s.faces.size]?).getD 1

/-- The script after so many draws. -/
def advance (s : Script) (n : Nat) : Script :=
  if s.faces = #[] then s else { s with used := s.used + n }

variable (s : Script) (m n i : Nat)

theorem faces_advance : (s.advance n).faces = s.faces := by
  unfold advance
  split
  · rfl
  · rfl

theorem advance_zero : s.advance 0 = s := by
  unfold advance
  split
  · rfl
  · rfl

theorem advance_advance : (s.advance m).advance n = s.advance (m + n) := by
  by_cases h : s.faces = #[]
  · rw [advance, faces_advance, if_pos h, advance, advance, if_pos h, if_pos h]
  · rw [advance, faces_advance, if_neg h, advance, advance, if_neg h, if_neg h, Nat.add_assoc]

theorem getElem?_place_eq_none_iff : s.faces[s.used % s.faces.size]? = none ↔ s.faces = #[] := by
  rw [Array.getElem?_eq_none_iff, ← Array.size_eq_zero_iff]
  rcases Nat.eq_zero_or_pos s.faces.size with h | h
  · rw [h]
    exact iff_of_true (Nat.zero_le _) rfl
  · exact iff_of_false (Nat.not_le_of_lt (Nat.mod_lt _ h)) (Nat.ne_of_gt h)

theorem run_next : next.run s = (max (s.face 0) 1 - 1, s.advance 1) := by
  have hface : s.face 0 = (s.faces[s.used % s.faces.size]?).getD 1 := rfl
  rcases hplace : s.faces[s.used % s.faces.size]? with _ | face
  · have hfaces := s.getElem?_place_eq_none_iff.mp hplace
    simp only [next, StateT.run, hplace, hface, advance, if_pos hfaces]
    rfl
  · have hfaces : s.faces ≠ #[] := fun h ↦ by
      rw [s.getElem?_place_eq_none_iff.mpr h] at hplace
      cases hplace
    simp only [next, StateT.run, hplace, hface, advance, if_neg hfaces, Option.getD_some]
    congr 1
    omega

theorem run_below (bound : Nat) :
    (Chance.below bound : StateM Script Nat).run s
      = ((max (s.face 0) 1 - 1) % bound, s.advance 1) := by
  change (next >>= fun face ↦ pure (face % bound) : StateM Script Nat).run s = _
  rw [StateT.run_bind, run_next]
  rfl

/-! ## Dice -/

/-- What a die shows for a face: the face itself, or if the die has fewer sides, the one that is
reached when the sides are counted over and over. A face of zero is read as a one. -/
def shown (sides face : Nat) : Nat := (max face 1 - 1) % sides + 1

/-- The die that comes of a face. -/
def die (sides face : Nat) : Number := ⟨.ofNat (shown sides face), .ofNat sides⟩

variable {sides : Nat}

end Script

/-! ## The operation -/

namespace Dice

variable {ρ : Type} [Chance ρ] {limit sides n : Nat} {count size : Play ρ Value}
  {t t₁ t₂ : Table ρ} {v w : Value}

end Dice

namespace Expression

variable {rules : Rules} {depth : Nat} {frames : List (List Expression)} {left right : Expression}
  {t t₁ t₂ : Table Script} {v w : Value} {sides n : Nat}

end Expression

end DiceNotation
