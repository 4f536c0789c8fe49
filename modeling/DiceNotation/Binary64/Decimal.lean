import DiceNotation.Binary64.Arithmetic

/-!
# Decimal text of double precision numbers

Reading takes the digits before and after the point as one numerator over a power of ten and
rounds once. Writing looks for the coarsest decimal grid with a point that reads back as the same
number: on each grid only the two neighbours of the number can, and of two that do the nearer one
is taken, the upper one of two that are equally near. A unit is a multiple of `10⁻¹⁰⁷⁴`, so on
the finest grid the number itself is a point and the search always ends.

`readPoint_shortest` says that what is written reads back, for every finite number.
The text never has an exponent, nor a point without a digit other than zero behind it.
-/

namespace DiceNotation

-- A power of naturals is the one whose laws the core library states, whatever is imported.
attribute [local instance (high)] instPowNat

namespace Binary64

/-! ## Reading -/

/-- The number written with these decimal digits before and after the point. -/
def ofDecimal (whole fraction : List Char) : Binary64 :=
  ofQuotient false (one * Nat.ofDigitChars 10 (whole ++ fraction) 0) (10 ^ fraction.length)

/-! ## The shortest decimal

A decimal is a coefficient and the grid of which it counts points: the points of grid `k` are the
multiples of `10 ^ (k - 1074)`, and so of `2 ^ k * 5 ^ (k - 1074)` units. -/

/-- The distance between the points of a grid is this many units … -/
def stepUnits (k : Nat) : Nat := 2 ^ k * 5 ^ (k - unitExponent)

/-- … divided by this, which is one for the grids of whole numbers. -/
def stepParts (k : Nat) : Nat := 5 ^ (unitExponent - k)

theorem stepParts_pos (k : Nat) : 0 < stepParts k := Nat.pow_pos (by decide)

/-- The count of units that point `c` of grid `k` rounds to. -/
def readPoint (k c : Nat) : Nat := roundUnits (c * stepUnits k) (stepParts k)

/-- Of `lower` and its successor, one that is accepted: the successor if both are and it is
preferred. -/
def acceptedOf (accepted : Nat → Bool) (lower : Nat) (preferUpper : Bool) : Option Nat :=
  if accepted lower && !(preferUpper && accepted (lower + 1)) then some lower
  else if accepted (lower + 1) then some (lower + 1)
  else none

/-- The neighbour of `n` units on grid `k` that reads back as `n`, if there is one. -/
def neighbour? (n k : Nat) : Option Nat :=
  let exact := stepParts k * n
  let step := stepUnits k
  acceptedOf (fun c ↦ readPoint k c == n) (exact / step) (step ≤ 2 * (exact % step))

/-- The coarsest grid, of `k` and the finer ones, on which `n` units have a neighbour that reads
back, with that neighbour. -/
def shortestFrom (n : Nat) : Nat → Nat × Nat
  | 0 => (0, stepParts 0 * n)
  | k + 1 =>
    match neighbour? n (k + 1) with
    | some c => (k + 1, c)
    | none => shortestFrom n k

/-- A grid that is too coarse for `n` units to have a neighbour there that reads back: its
smallest point is above `2 ^ (n.log2 + 1)` units, as `1233 / 4096` is just short of the
logarithm of two. -/
def coarseGrid (n : Nat) : Nat := unitExponent * 2863 / 4096 + n.log2 * 1233 / 4096 + 3

/-- The shortest decimal that reads back as `n` units: its grid and its coefficient. A whole
number of at most 53 bits has no shorter decimal than its own digits. -/
def shortest (n : Nat) : Nat × Nat :=
  if n % one = 0 ∧ n / one < 2 ^ (fractionBits + 1) then (unitExponent, n / one)
  else shortestFrom n (coarseGrid n)

theorem accepted_of_acceptedOf {accepted : Nat → Bool} {lower c : Nat} {preferUpper : Bool}
    (h : acceptedOf accepted lower preferUpper = some c) : accepted c = true := by
  unfold acceptedOf at h
  split at h
  · next hl =>
    cases h
    exact (Bool.and_eq_true_iff.1 hl).1
  · split at h
    · next hu => cases h; exact hu
    · exact absurd h (by simp)

theorem readPoint_of_neighbour? {n k c : Nat} (h : neighbour? n k = some c) :
    readPoint k c = n :=
  eq_of_beq (@accepted_of_acceptedOf (fun c ↦ readPoint k c == n) _ _ _ h)

theorem readPoint_shortestFrom {n : Nat} (hn : Representable n) (k : Nat) :
    readPoint (shortestFrom n k).1 (shortestFrom n k).2 = n := by
  induction k with
  | zero =>
    have hs : stepUnits 0 = 1 := by simp [stepUnits]
    rw [shortestFrom, readPoint, hs, Nat.mul_one]
    exact roundUnits_mul_left (stepParts_pos 0) hn
  | succ k ih =>
    rw [shortestFrom]
    split
    · next c hc => exact readPoint_of_neighbour? hc
    · exact ih

/-- What is written reads back. -/
theorem readPoint_shortest {n : Nat} (hn : Representable n) :
    readPoint (shortest n).1 (shortest n).2 = n := by
  unfold shortest
  split
  · next h =>
    have hu : stepUnits unitExponent = one := by
      unfold stepUnits one
      rw [Nat.sub_self, Nat.pow_zero, Nat.mul_one]
    have hp : stepParts unitExponent = 1 := by rw [stepParts, Nat.sub_self, Nat.pow_zero]
    have he : n / one * one = 1 * n := by
      rw [Nat.one_mul, Nat.div_mul_cancel (Nat.dvd_of_mod_eq_zero h.1)]
    rw [readPoint, hu, hp, he]
    exact roundUnits_mul_left Nat.one_pos hn
  · exact readPoint_shortestFrom hn _

/-! ## Writing -/

/-- The digits of `n`, filled up with zeros on the left to `width` of them. -/
def paddedDigits (width n : Nat) : List Char :=
  List.replicate (width - (Nat.toDigits 10 n).length) '0' ++ Nat.toDigits 10 n

/-- The digits without the zeros at their end. -/
def trimZeros (digits : List Char) : List Char :=
  (digits.reverse.dropWhile (· == '0')).reverse

/-- The text of a decimal with `places` places: a point is written only before digits. -/
def pointText (places coefficient : Nat) : List Char :=
  let fraction := trimZeros (paddedDigits places (coefficient % 10 ^ places))
  Nat.toDigits 10 (coefficient / 10 ^ places)
    ++ if fraction.isEmpty then [] else '.' :: fraction

/-- The text of `n` units. -/
def magnitudeText (n : Nat) : List Char :=
  let (k, c) := shortest n
  if k < unitExponent then pointText (unitExponent - k) c
  else Nat.toDigits 10 (c * 10 ^ (k - unitExponent))

/-- The text of a number. Both zeros are written without a sign. -/
def text : Binary64 → String
  | .nan => "NaN"
  | .infinite negative => if negative then "-inf" else "inf"
  | .finite negative n _ =>
    String.ofList (if negative ∧ n ≠ 0 then '-' :: magnitudeText n else magnitudeText n)

end Binary64

end DiceNotation
