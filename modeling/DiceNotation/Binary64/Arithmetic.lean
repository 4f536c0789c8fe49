import DiceNotation.Binary64.Basic

/-!
# Arithmetic and order of double precision numbers

Each operation computes its exact result in units, as a sign and a quotient of naturals, and
rounds once. Comparison goes through `rank?`, the place of a number on the line of integers: the
two zeros share a place, an infinite number stands beyond all finite ones, and no number has
none, so every comparison with it fails.

The power function is the only one without an exact definition here; it is taken from the
machine, to and from which numbers travel as their 64 bits.
-/

namespace DiceNotation

-- A power of naturals is the one whose laws the core library states, whatever is imported.
attribute [local instance (high)] instPowNat

namespace Binary64

/-! ## Order

Comparison goes by the place of a number on the line of integers. Where a number has no place, a
comparison with it fails, whichever it is. -/

/-- The place of a number on the line, in units. -/
def rank? : Binary64 → Option Int
  | .nan => none
  | .infinite negative => some (if negative then -(overflow : Int) else overflow)
  | .finite negative n _ => some (if negative then -(n : Int) else n)

/-- Compares two numbers, of which one may be no number at all. -/
def order? (x y : Binary64) : Option Ordering :=
  match x.rank?, y.rank? with
  | some a, some b => some (compare a b)
  | _, _ => none

/-- Whether `x` is less than `y`. -/
def lt (x y : Binary64) : Bool :=
  match x.rank?, y.rank? with
  | some a, some b => a < b
  | _, _ => false

/-- Whether `x` is at most `y`. -/
def le (x y : Binary64) : Bool :=
  match x.rank?, y.rank? with
  | some a, some b => a ≤ b
  | _, _ => false

/-- Numbers are equal if they have the same place on the line. -/
instance : BEq Binary64 where
  beq x y :=
    match x.rank?, y.rank? with
    | some a, some b => a == b
    | _, _ => false

/-- Whether the number is below zero. -/
def isNegative (x : Binary64) : Bool := x.lt 0

/-! ## Operations -/

/-- The number of opposite sign. -/
def neg : Binary64 → Binary64
  | .nan => .nan
  | .infinite negative => .infinite (!negative)
  | .finite negative n h => .finite (!negative) n h

instance : Neg Binary64 := ⟨neg⟩

/-- The number without its sign. -/
def abs : Binary64 → Binary64
  | .nan => .nan
  | .infinite _ => .infinite false
  | .finite _ n h => .finite false n h

/-- The number nearest to an integer count of units; `zeroSign` is the sign of an exact zero. -/
def ofUnits (zeroSign : Bool) (s : Int) : Binary64 :=
  ofQuotient (if s = 0 then zeroSign else s < 0) s.natAbs 1

/-- The rounded sum. A sum that cancels is positive zero, unless both terms are negative zeros. -/
def add : Binary64 → Binary64 → Binary64
  | .nan, _ => .nan
  | _, .nan => .nan
  | .infinite s, .infinite t => if s = t then .infinite s else .nan
  | .infinite s, .finite .. => .infinite s
  | .finite .., .infinite t => .infinite t
  | .finite s m _, .finite t n _ =>
    ofUnits (s && t) ((if s then -(m : Int) else m) + (if t then -(n : Int) else n))

instance : Add Binary64 := ⟨add⟩

instance : Sub Binary64 := ⟨fun x y ↦ x + -y⟩

/-- The rounded product. -/
def mul : Binary64 → Binary64 → Binary64
  | .nan, _ => .nan
  | _, .nan => .nan
  | .infinite s, .infinite t => .infinite (s ^^ t)
  | .infinite s, .finite t n _ => if n = 0 then .nan else .infinite (s ^^ t)
  | .finite s m _, .infinite t => if m = 0 then .nan else .infinite (s ^^ t)
  | .finite s m _, .finite t n _ => ofQuotient (s ^^ t) (m * n) one

instance : Mul Binary64 := ⟨mul⟩

/-- The rounded quotient. A quotient by zero is infinite, that of zero by zero no number. -/
def div : Binary64 → Binary64 → Binary64
  | .nan, _ => .nan
  | _, .nan => .nan
  | .infinite _, .infinite _ => .nan
  | .infinite s, .finite t _ _ => .infinite (s ^^ t)
  | .finite s _ _, .infinite t => .finite (s ^^ t) 0 representable_zero
  | .finite s m _, .finite t n _ =>
    if n = 0 then if m = 0 then .nan else .infinite (s ^^ t)
    else ofQuotient (s ^^ t) (one * m) n

instance : Div Binary64 := ⟨div⟩

/-- What remains of `x` after as many whole `y` as fit towards zero, with the sign of `x`. -/
def rem : Binary64 → Binary64 → Binary64
  | .nan, _ => .nan
  | _, .nan => .nan
  | .infinite _, _ => .nan
  | .finite s m h, .infinite _ => .finite s m h
  | .finite s m _, .finite _ n _ => if n = 0 then .nan else ofQuotient s (m % n) 1

instance : Mod Binary64 := ⟨rem⟩

/-- The largest whole number that is at most `x`. -/
def floor : Binary64 → Binary64
  | .nan => .nan
  | .infinite s => .infinite s
  | .finite false n _ => ofQuotient false (one * (n / one)) 1
  | .finite true n _ => ofQuotient true (one * ((n + (one - 1)) / one)) 1

/-- The greater of two numbers, the first if they compare neither way. -/
def max (x y : Binary64) : Binary64 := if x.lt y then y else x

/-- The whole part as a natural number: none below zero and at most `cap`. -/
def toNat (cap : Nat) : Binary64 → Nat
  | .nan => 0
  | .infinite negative => if negative then 0 else cap
  | .finite negative n _ => if negative then 0 else min (n / one) cap

/-! ## Bits -/

/-- The number of bits of a fraction, which has the lowest place. -/
abbrev fractionBits : Nat := 52

/-- The exponent of infinity and of what is no number, eleven bits that are all set. -/
abbrev lastExponent : Nat := 2047

/-- The value of the bit of the sign, which has the highest place. -/
abbrev signBit : Nat := 0x8000000000000000

/-- The 63 low bits of a finite number: a biased exponent and a fraction, which together count
the representable numbers below it. -/
def magnitudeBits (n : Nat) : Nat := spacing n * 2 ^ fractionBits + n / 2 ^ spacing n

/-- The 64 bits of a number: sign, exponent, fraction. -/
def toBits : Binary64 → UInt64
  | .nan => .ofNat (lastExponent * 2 ^ fractionBits + 2 ^ (fractionBits - 1))
  | .infinite negative =>
    .ofNat ((if negative then signBit else 0) + lastExponent * 2 ^ fractionBits)
  | .finite negative n _ => .ofNat ((if negative then signBit else 0) + magnitudeBits n)

/-- The number of which these are the bits. -/
def ofBits (bits : UInt64) : Binary64 :=
  let b := bits.toNat
  let negative : Bool := signBit ≤ b
  let exponent := b / 2 ^ fractionBits % (lastExponent + 1)
  let fraction := b % 2 ^ fractionBits
  if exponent = lastExponent then
    if fraction = 0 then .infinite negative else .nan
  else if exponent = 0 then ofQuotient negative fraction 1
  else ofQuotient negative ((2 ^ fractionBits + fraction) * 2 ^ (exponent - 1)) 1

/-- The distance from one to the next larger number. -/
def epsilon : Binary64 := 1 / .ofNat (2 ^ fractionBits)

/-- Raises `x` to the power `y`. -/
def pow (x y : Binary64) : Binary64 :=
  ofBits (Float.pow (.ofBits x.toBits) (.ofBits y.toBits)).toBits

/-! ## Small laws -/

@[simp] theorem neg_nan : -nan = nan := rfl

@[simp] theorem neg_infinite (s : Bool) : -infinite s = infinite (!s) := rfl

@[simp] theorem neg_finite (s : Bool) (n : Nat) (h : Representable n) :
    -finite s n h = finite (!s) n h := rfl

theorem neg_neg (x : Binary64) : - -x = x := by
  cases x <;> simp

theorem rank?_neg (x : Binary64) : (-x).rank? = x.rank?.map (- ·) := by
  cases x with
  | nan => rfl
  | infinite s => cases s <;> simp [rank?]
  | finite s n h => cases s <;> simp [rank?]

theorem isFinite_neg (x : Binary64) : (-x).isFinite = x.isFinite := by
  cases x <;> rfl

end Binary64

end DiceNotation
