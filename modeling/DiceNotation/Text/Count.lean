/-!
# Counts in decimal digits

Limits and parameter numbers are counts of one machine word, written with ASCII digits.
-/

namespace DiceNotation.Count

/-- The largest count. -/
def largest : Nat := UInt64.size - 1

/-- The count written with these characters: one or more digits, and not beyond the largest. -/
def ofDigits? (digits : List Char) : Option Nat :=
  if digits ≠ [] ∧ digits.all Char.isDigit then
    let n := Nat.ofDigitChars 10 digits 0
    if n ≤ largest then some n else none
  else none

end DiceNotation.Count
