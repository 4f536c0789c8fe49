/-!
# Double precision numbers, counted in units

Every finite double precision number is a whole number of *units*, the unit being the smallest
positive one, `2⁻¹⁰⁷⁴`. A finite number is therefore stored here as a sign and a count of units,
with the proof that the count has at most 53 significant bits and stays below `2¹⁰²⁴`. Order,
negation, remainder and whole parts are then plain arithmetic on natural numbers, and an
operation that is not exact computes the exact rational result and rounds it once.

The only rounding is `roundUnits`: to the nearest representable count, a tie going to the even
significand. `representable_roundUnits` says that its result is representable as soon as it is in
range, and `roundUnits_mul_left` that a count that is already representable rounds to itself.
-/

namespace DiceNotation

-- A power of naturals is the one whose laws the core library states, whatever is imported.
attribute [local instance (high)] instPowNat

namespace Binary64

/-- The unit is two to the power of minus this. -/
def unitExponent : Nat := 1074

/-- The number one in units. -/
@[irreducible] def one : Nat := 2 ^ unitExponent

/-- The first magnitude, in units, that is out of range: `2¹⁰²⁴`. -/
@[irreducible] def overflow : Nat := 2 ^ (1024 + unitExponent)

/-- The binary logarithm of the distance between representable counts around `n`. -/
def spacing (n : Nat) : Nat := n.log2 - 52

/-- A count of units is representable if it is in range and has at most 53 significant bits. -/
def Representable (n : Nat) : Prop := n < overflow ∧ 2 ^ spacing n ∣ n

instance (n : Nat) : Decidable (Representable n) :=
  inferInstanceAs (Decidable (n < overflow ∧ 2 ^ spacing n ∣ n))

/-- The whole number nearest to `num / den`, the even one of two that are equally near. -/
def roundHalfEven (num den : Nat) : Nat :=
  if 2 * (num % den) < den then num / den
  else if den < 2 * (num % den) then num / den + 1
  else num / den + num / den % 2

/-- Rounds `num / den` units to 53 significant bits, whatever the range. -/
@[irreducible] def roundUnits (num den : Nat) : Nat :=
  roundHalfEven num (den * 2 ^ spacing (num / den)) * 2 ^ spacing (num / den)

end Binary64

open Binary64 in
/-- A double precision number. -/
inductive Binary64 where
  /-- The result of an operation that has none. -/
  | nan
  /-- A number too large to represent. -/
  | infinite (negative : Bool)
  /-- A number of units with a sign, which zero has as well. -/
  | finite (negative : Bool) (units : Nat) (representable : Representable units)
deriving DecidableEq

namespace Binary64

/-! ## Rounding

A quotient `q` of logarithm `l` is cut to multiples of `2 ^ (l - 52)`, so its significand is below
`2⁵³` before rounding and at most `2⁵³` after it. Only in the last case does the spacing grow, and
then the result is a power of two. -/

theorem lt_two_pow_spacing_add (n : Nat) : n < 2 ^ (spacing n + 53) :=
  Nat.lt_of_lt_of_le Nat.lt_log2_self (Nat.pow_le_pow_right (by decide) (by simp [spacing]; omega))

theorem spacing_le_of_lt {n k : Nat} (h : n < 2 ^ (k + 53)) : spacing n ≤ k := by
  by_cases hn : n = 0
  · subst hn; simp [spacing]
  · have := (Nat.log2_lt hn).2 h
    simp only [spacing]; omega

theorem roundHalfEven_le (num den : Nat) : roundHalfEven num den ≤ num / den + 1 := by
  unfold roundHalfEven
  split
  · omega
  · split <;> omega

theorem roundHalfEven_of_dvd {num den : Nat} (hd : 0 < den) (h : den ∣ num) :
    roundHalfEven num den = num / den := by
  simp [roundHalfEven, Nat.mod_eq_zero_of_dvd h, hd]

theorem roundUnits_le (num den : Nat) :
    roundUnits num den ≤ 2 ^ (spacing (num / den) + 53) := by
  unfold roundUnits
  rw [Nat.pow_add, Nat.mul_comm (2 ^ _)]
  refine Nat.mul_le_mul_right _ (Nat.le_trans (roundHalfEven_le _ _) ?_)
  have h := lt_two_pow_spacing_add (num / den)
  rw [← Nat.div_div_eq_div_mul]
  rw [Nat.pow_add, Nat.mul_comm] at h
  exact Nat.div_lt_of_lt_mul (by rw [Nat.mul_comm]; exact h)

theorem two_pow_spacing_dvd_roundUnits (num den : Nat) :
    2 ^ spacing (roundUnits num den) ∣ roundUnits num den := by
  generalize hk : spacing (num / den) = k
  have hle : roundUnits num den ≤ 2 ^ (k + 53) := hk ▸ roundUnits_le num den
  have hdvd : 2 ^ k ∣ roundUnits num den := by
    unfold roundUnits
    rw [hk]
    exact Nat.dvd_mul_left _ _
  rcases Nat.lt_or_eq_of_le hle with hlt | heq
  · exact Nat.dvd_trans (Nat.pow_dvd_pow 2 (spacing_le_of_lt hlt)) hdvd
  · rw [heq]
    refine Nat.pow_dvd_pow 2 ?_
    simp [spacing, Nat.log2_two_pow]

/-- Rounding gives a representable count, unless it leaves the range. -/
theorem representable_roundUnits {num den : Nat} (h : roundUnits num den < overflow) :
    Representable (roundUnits num den) :=
  ⟨h, two_pow_spacing_dvd_roundUnits num den⟩

/-- A representable count rounds to itself, over any denominator. -/
theorem roundUnits_mul_left {n den : Nat} (hd : 0 < den) (h : Representable n) :
    roundUnits (den * n) den = n := by
  have hn : den * n / den = n := Nat.mul_div_cancel_left n hd
  unfold roundUnits
  rw [hn, roundHalfEven_of_dvd]
  · rw [Nat.mul_div_mul_left _ _ hd, Nat.div_mul_cancel h.2]
  · exact Nat.mul_pos hd (Nat.two_pow_pos _)
  · exact Nat.mul_dvd_mul_left den h.2

theorem overflow_pos : 0 < overflow := by
  unfold overflow
  exact Nat.two_pow_pos _

theorem one_pos : 0 < one := by
  unfold one
  exact Nat.two_pow_pos _

theorem representable_zero : Representable 0 := ⟨overflow_pos, Nat.dvd_zero _⟩

/-! ## Numbers from exact results -/

/-- The number nearest to `num / den` units, with the given sign. -/
def ofQuotient (negative : Bool) (num den : Nat) : Binary64 :=
  if h : roundUnits num den < overflow then
    .finite negative (roundUnits num den) (representable_roundUnits h)
  else
    .infinite negative

/-- A representable count is built as it stands. -/
theorem ofQuotient_of_representable {n : Nat} (negative : Bool) (h : Representable n) :
    ofQuotient negative n 1 = .finite negative n h := by
  have hr : roundUnits n 1 = n := by
    have hm : roundUnits (1 * n) 1 = n := roundUnits_mul_left Nat.one_pos h
    rwa [Nat.one_mul] at hm
  simp [ofQuotient, hr, h.1]

/-- The number zero. -/
def zero : Binary64 := .finite false 0 representable_zero

instance : Inhabited Binary64 := ⟨zero⟩

/-- The number nearest to the natural number `n`. -/
def ofNat (n : Nat) : Binary64 := ofQuotient false (one * n) 1

instance (n : Nat) : OfNat Binary64 n := ⟨ofNat n⟩

/-! ## Classes of numbers -/

/-- Whether the number is neither infinite nor absent. -/
def isFinite : Binary64 → Bool
  | .finite .. => true
  | _ => false

/-- Whether there is no number. -/
def isNaN : Binary64 → Bool
  | .nan => true
  | _ => false

/-- Whether the number is finite and whole. -/
def isWhole : Binary64 → Bool
  | .finite _ n _ => n % one == 0
  | _ => false

end Binary64

end DiceNotation
