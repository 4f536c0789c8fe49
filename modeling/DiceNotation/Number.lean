import DiceNotation.Binary64.Decimal

/-!
# Numbers of the notation

A number carries its potential: the largest value it could have taken. A constant is its own
potential, a die has its number of sides. Sums add potentials as well; negation keeps the
potential, and products and quotients are constants again.

The potential is bookkeeping only: numbers are equal when their values are.
-/

namespace DiceNotation

/-- A value together with the largest value it could have taken. -/
structure Number where
  value : Binary64
  potential : Binary64
deriving DecidableEq

namespace Number

/-- A constant. -/
def const (x : Binary64) : Number := ⟨x, x⟩

/-- The constant nearest to a natural number. -/
def ofNat (n : Nat) : Number := const (.ofNat n)

/-- The number zero, the sum of nothing. -/
def zero : Number := const .zero

instance : BEq Number := ⟨fun x y ↦ x.value == y.value⟩

instance : Neg Number := ⟨fun x ↦ ⟨-x.value, x.potential⟩⟩

instance : Add Number := ⟨fun x y ↦ ⟨x.value + y.value, x.potential + y.potential⟩⟩

instance : Mul Number := ⟨fun x y ↦ const (x.value * y.value)⟩

instance : Div Number := ⟨fun x y ↦ const (x.value / y.value)⟩

/-- The sum from left to right. -/
def sum (xs : List Number) : Number := xs.foldl (· + ·) zero

/-- The text of the value. -/
def text (x : Number) : String := x.value.text

/-- The source text of the number, which for a negative one is a negation in parentheses. -/
def code (x : Number) : String :=
  if x.value.isNegative then "(-" ++ (-x.value).text ++ ")" else x.value.text

theorem neg_neg (x : Number) : - -x = x := by
  show (⟨- -x.value, x.potential⟩ : Number) = x
  rw [Binary64.neg_neg]

end Number

end DiceNotation
