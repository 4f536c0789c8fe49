import DiceNotation.Proofs.Numeral
import DiceNotation.Proofs.WholeNumbers

/-!
# Results that rounding keeps

An operation computes its exact result and rounds it once, so a result that is represented comes out
as it is. Whole parts and fractions are of this kind: cutting a number at the ones leaves no more
bits than it had. A product is if it is short enough.

Sums and products of natural numbers need not be, but what they are rounded to is a natural number
again or out of range, and rounding does not lead below a natural number that is represented. So
lower bounds add up as they do without rounding (`Binary64.IsAtLeast`).
-/

namespace DiceNotation

-- A power of naturals is the one whose laws the core library states, whatever is imported.
attribute [local instance (high)] instPowNat

namespace Binary64

/-! ## Parts of representable counts -/

/-- A lower count on the grid of a representable one is representable. -/
theorem Representable.of_dvd {m n : Nat} (hn : Representable n) (hle : m ≤ n)
    (hdvd : 2 ^ spacing n ∣ m) : Representable m := by
  have hspacing : spacing m ≤ spacing n :=
    spacing_le_of_lt (Nat.lt_of_le_of_lt hle (lt_two_pow_spacing_add n))
  exact ⟨Nat.lt_of_le_of_lt hle hn.1, Nat.dvd_trans (Nat.pow_dvd_pow 2 hspacing) hdvd⟩

theorem two_pow_dvd_one {k : Nat} (h : k ≤ unitExponent) : 2 ^ k ∣ one := by
  unfold one
  exact Nat.pow_dvd_pow 2 h

theorem one_dvd_two_pow {k : Nat} (h : unitExponent ≤ k) : one ∣ 2 ^ k := by
  unfold one
  exact Nat.pow_dvd_pow 2 h

theorem two_pow_spacing_dvd_mod_one {n : Nat} (h : Representable n) :
    2 ^ spacing n ∣ n % one := by
  rcases Nat.le_total (spacing n) unitExponent with hle | hge
  · exact (Nat.dvd_mod_iff (two_pow_dvd_one hle)).mpr h.2
  -- A number as large as this is whole.
  · rw [Nat.mod_eq_zero_of_dvd (Nat.dvd_trans (one_dvd_two_pow hge) h.2)]
    exact Nat.dvd_zero _

theorem representable_mod_one {n : Nat} (h : Representable n) : Representable (n % one) :=
  h.of_dvd (Nat.mod_le n one) (two_pow_spacing_dvd_mod_one h)

theorem representable_mul_div_one {n : Nat} (h : Representable n) :
    Representable (one * (n / one)) := by
  have hsum := Nat.div_add_mod n one
  refine h.of_dvd (Nat.mul_div_le n one) ?_
  exact (Nat.dvd_add_iff_left (two_pow_spacing_dvd_mod_one h)).mpr (by rw [hsum]; exact h.2)

theorem representable_one : Representable one := by
  rw [← Nat.mul_one one]
  exact representable_one_mul (by decide)

theorem representable_two_pow_mul {k n : Nat} (hk : k ≤ 2045) (hn : n < 2 ^ (53 : Nat)) :
    Representable (2 ^ k * n) := by
  have hlt : 2 ^ k * n < 2 ^ (k + 53) := by
    rw [Nat.pow_add]
    exact Nat.mul_lt_mul_of_pos_left hn (Nat.two_pow_pos k)
  refine ⟨?_, Nat.dvd_mul_right_of_dvd (Nat.pow_dvd_pow 2 (spacing_le_of_lt hlt)) n⟩
  have hexponent : k + 53 ≤ 1024 + unitExponent := by
    unfold unitExponent
    omega
  unfold overflow
  exact Nat.lt_of_lt_of_le hlt (Nat.pow_le_pow_right (by decide) hexponent)

/-! ## Exact results

The whole part of a number that is not negative is a natural number, and what it leaves is exact. A
sum, a difference, a product and a quotient are exact if they are represented. -/

theorem rank?_finite {n : Nat} (h : Representable n) : (finite false n h).rank? = some (n : Int) :=
  rfl

theorem rank?_finite_negative {n : Nat} (h : Representable n) :
    (finite true n h).rank? = some (-(n : Int)) := rfl

theorem rank?_infinite : (infinite false).rank? = some (overflow : Int) := rfl

theorem rank?_infinite_negative : (infinite true).rank? = some (-(overflow : Int)) := rfl

theorem floor_finite {n : Nat} (h : Representable n) :
    (finite false n h).floor = finite false (one * (n / one)) (representable_mul_div_one h) :=
  ofQuotient_of_representable false (representable_mul_div_one h)

theorem one_eq_finite : (1 : Binary64) = finite false one representable_one := by
  change ofQuotient false (one * 1) 1 = _
  rw [Nat.mul_one]
  exact ofQuotient_of_representable false representable_one

theorem ofNat_eq_finite {n : Nat} (h : n ≤ 2 ^ (53 : Nat)) :
    ofNat n = finite false (one * n) (representable_one_mul h) :=
  ofQuotient_of_representable false (representable_one_mul h)

theorem isNat_floor {n : Nat} (h : Representable n) : (finite false n h).floor.IsNat (n / one) := by
  rw [floor_finite h]
  exact ⟨rfl, fun hnegative ↦ Bool.noConfusion hnegative⟩

theorem ofUnits_natCast {n : Nat} (h : Representable n) :
    ofUnits false (n : Int) = finite false n h := by
  have hsign : (if (n : Int) = 0 then false else decide ((n : Int) < 0)) = false := by
    split
    · rfl
    · exact decide_eq_false (Int.not_lt.mpr (Int.natCast_nonneg n))
  rw [ofUnits, hsign, Int.natAbs_natCast]
  exact ofQuotient_of_representable false h

/-- What the whole part leaves. -/
theorem sub_floor_finite {n : Nat} (h : Representable n) :
    finite false n h - (finite false n h).floor
      = finite false (n % one) (representable_mod_one h) := by
  have hunits : (n : Int) + -((one * (n / one) : Nat) : Int) = ((n % one : Nat) : Int) := by
    have := Nat.div_add_mod n one
    omega
  rw [floor_finite h, ← ofUnits_natCast (representable_mod_one h), ← hunits]
  rfl

theorem add_finite {m n : Nat} (hm : Representable m) (hn : Representable n)
    (h : Representable (m + n)) :
    finite false m hm + finite false n hn = finite false (m + n) h := by
  rw [← ofUnits_natCast h, Int.natCast_add]
  rfl

theorem mul_finite {s t : Bool} {m n k : Nat} (hm : Representable m) (hn : Representable n)
    (hk : Representable k) (h : m * n = one * k) :
    finite s m hm * finite t n hn = finite (s ^^ t) k hk := by
  change ofQuotient (s ^^ t) (m * n) one = _
  rw [h]
  exact ofQuotient_eq_finite (roundUnits_mul_left one_pos hk) hk _

theorem div_finite {s t : Bool} {m n k : Nat} (hm : Representable m) (hn : Representable n)
    (hk : Representable k) (hpos : 0 < n) (h : one * m = n * k) :
    finite s m hm / finite t n hn = finite (s ^^ t) k hk := by
  change (if n = 0 then _ else ofQuotient (s ^^ t) (one * m) n) = _
  rw [if_neg (Nat.ne_of_gt hpos), h]
  exact ofQuotient_eq_finite (roundUnits_mul_left hpos hk) hk _

theorem abs_sub_finite {m n : Nat} (hm : Representable m) (hn : Representable n) (hle : m ≤ n)
    (h : Representable (n - m)) :
    (finite false m hm - finite false n hn).abs = finite false (n - m) h := by
  have hunits : ((m : Int) + -(n : Int)).natAbs = n - m := by omega
  change (ofUnits false ((m : Int) + -(n : Int))).abs = _
  rw [ofUnits, hunits, ofQuotient_of_representable _ h]
  rfl

theorem ofNat_add_ofNat {m n : Nat} (h : m + n ≤ 2 ^ (53 : Nat)) :
    ofNat m + ofNat n = ofNat (m + n) := by
  have hunits := representable_one_mul h
  rw [Nat.mul_add] at hunits
  rw [ofNat_eq_finite (by omega), ofNat_eq_finite (by omega), ofNat_eq_finite h,
    add_finite _ _ hunits]
  simp only [Nat.mul_add]

theorem ofNat_mul_ofNat {m n : Nat} (hm : m ≤ 2 ^ (53 : Nat)) (hn : n ≤ 2 ^ (53 : Nat))
    (h : m * n ≤ 2 ^ (53 : Nat)) : ofNat m * ofNat n = ofNat (m * n) := by
  rw [ofNat_eq_finite hm, ofNat_eq_finite hn, ofNat_eq_finite h]
  refine mul_finite _ _ (representable_one_mul h) ?_
  ac_rfl

/-! ## Numbers from one on

A number from one on has no bits below the 52nd behind the point. From one up to two it is a
significand of 53 bits, the first of which is set. -/

theorem le_spacing_of_one_le {n : Nat} (h : one ≤ n) : unitExponent - 52 ≤ spacing n := by
  have hpower : 2 ^ unitExponent ≤ n := by
    unfold one at h
    exact h
  have hlog := (Nat.le_log2 (Nat.ne_of_gt (Nat.lt_of_lt_of_le one_pos h))).mpr hpower
  exact Nat.sub_le_sub_right hlog 52

/-- The inverse of a fraction is in range and at least one. The fraction is not too small for that,
as it has been cut off from a number that is at least one. -/
theorem inverse_fraction {n : Nat} (h : Representable n) (hn : one ≤ n) (hfraction : n % one ≠ 0) :
    ∃ m hm, 1 / (finite false n h - (finite false n h).floor) = finite false m hm ∧ one ≤ m := by
  have hlt : n % one < one := Nat.mod_lt n one_pos
  have hgrid : 2 ^ (unitExponent - 52) ≤ n % one := by
    refine Nat.le_of_dvd (Nat.pos_of_ne_zero hfraction) ?_
    exact Nat.dvd_trans (Nat.pow_dvd_pow 2 (le_spacing_of_one_le hn))
      (two_pow_spacing_dvd_mod_one h)
  have hquotient : one * one / (n % one) < 2 ^ (unitExponent + 53) := by
    refine Nat.div_lt_of_lt_mul ?_
    calc one * one = 2 ^ (unitExponent + unitExponent) := by
          unfold one
          rw [← Nat.pow_add]
      _ < 2 ^ (unitExponent - 52 + (unitExponent + 53)) :=
          Nat.pow_lt_pow_right (by decide) (by decide)
      _ = 2 ^ (unitExponent - 52) * 2 ^ (unitExponent + 53) := Nat.pow_add _ _ _
      _ ≤ n % one * 2 ^ (unitExponent + 53) := Nat.mul_le_mul_right _ hgrid
  have hrange : roundUnits (one * one) (n % one) < overflow := by
    refine Nat.lt_of_le_of_lt (roundUnits_le _ _) ?_
    unfold overflow
    have := spacing_le_of_lt hquotient
    exact Nat.pow_lt_pow_right (by decide) (by omega)
  refine ⟨_, representable_roundUnits hrange, ?_, le_roundUnits representable_one ?_⟩
  · rw [sub_floor_finite h, one_eq_finite]
    change (if n % one = 0 then _ else ofQuotient (false ^^ false) (one * one) (n % one)) = _
    rw [if_neg hfraction]
    exact dif_pos hrange
  · rw [Nat.le_div_iff_mul_le (Nat.pos_of_ne_zero hfraction)]
    exact Nat.mul_le_mul_left one (Nat.le_of_lt hlt)

theorem exists_significand {n : Nat} (h : Representable n) (hone : one ≤ n) (htwo : n < one * 2) :
    ∃ v, n = 2 ^ (unitExponent - 52) * v ∧ 2 ^ (52 : Nat) ≤ v ∧ v < 2 ^ (53 : Nat) := by
  obtain ⟨v, hv⟩ := Nat.dvd_trans (Nat.pow_dvd_pow 2 (le_spacing_of_one_le hone)) h.2
  have hpos : 0 < 2 ^ (unitExponent - 52) := Nat.two_pow_pos (unitExponent - 52)
  have hpower : one = 2 ^ (unitExponent - 52) * 2 ^ (52 : Nat) := one_eq_mul (by decide)
  rw [hv, hpower] at hone htwo
  rw [Nat.mul_assoc] at htwo
  have hhigh : v < 2 ^ (52 : Nat) * 2 := Nat.lt_of_mul_lt_mul_left htwo
  exact ⟨v, hv, Nat.le_of_mul_le_mul_left hone hpos, hhigh⟩

/-! ## Lower bounds

A whole number of ones is rounded to a whole number of ones, and rounding does not lead below one
that is represented. So lower bounds add up, and multiply, as long as no infinite number is
multiplied by zero. -/

/-- A number that is a natural number from some bound on, or out of range. -/
def IsAtLeast (x : Binary64) (n : Nat) : Prop :=
  x = .infinite false ∨ ∃ m, n ≤ m ∧ x.IsNat m

theorem IsNat.isAtLeast {x : Binary64} {n : Nat} (h : x.IsNat n) : x.IsAtLeast n :=
  Or.inr ⟨n, Nat.le_refl n, h⟩

theorem one_dvd_roundUnits (n : Nat) : one ∣ roundUnits (one * n) 1 := by
  rcases Nat.le_total (spacing (one * n)) unitExponent with hle | hge
  · have hdvd : 2 ^ spacing (one * n) ∣ one * n := Nat.dvd_mul_right_of_dvd (two_pow_dvd_one hle) n
    unfold roundUnits
    rw [Nat.div_one, Nat.one_mul, roundHalfEven_of_dvd (Nat.two_pow_pos _) hdvd,
      Nat.div_mul_cancel hdvd]
    exact Nat.dvd_mul_right one n
  · unfold roundUnits
    rw [Nat.div_one]
    exact Nat.dvd_mul_left_of_dvd (one_dvd_two_pow hge) _

/-- Rounding does not lead below a natural number that is represented. -/
theorem isAtLeast_ofQuotient {negative : Bool} {k n : Nat} (hnk : n ≤ k) (hn : n ≤ 2 ^ (53 : Nat))
    (hsign : negative = true → k = 0) : (ofQuotient negative (one * k) 1).IsAtLeast n := by
  have hpositive : negative = true → roundUnits (one * k) 1 = 0 := by
    intro hnegative
    have hzero : roundUnits (1 * 0) 1 = 0 := roundUnits_mul_left Nat.one_pos representable_zero
    rw [hsign hnegative]
    exact hzero
  unfold ofQuotient
  split
  · next hfinite =>
    obtain ⟨j, hj⟩ := one_dvd_roundUnits k
    have hle : one * n ≤ one * j := by
      rw [← hj]
      refine le_roundUnits (representable_one_mul hn) ?_
      rw [Nat.div_one]
      exact Nat.mul_le_mul_left one hnk
    refine Or.inr ⟨j, Nat.le_of_mul_le_mul_left hle one_pos, hj, fun hnegative ↦ ?_⟩
    rw [hpositive hnegative] at hj
    exact (Nat.mul_eq_zero.mp hj.symm).resolve_left (Nat.ne_of_gt one_pos)
  · next hinfinite =>
    rcases negative with _ | _
    · exact Or.inl rfl
    · rw [hpositive rfl] at hinfinite
      exact absurd overflow_pos hinfinite

namespace IsAtLeast

variable {x y : Binary64} {m n : Nat}

theorem mono (h : x.IsAtLeast n) (hmn : m ≤ n) : x.IsAtLeast m := by
  obtain rfl | ⟨k, hk, hx⟩ := h
  · exact Or.inl rfl
  · exact Or.inr ⟨k, Nat.le_trans hmn hk, hx⟩

theorem add (hx : x.IsAtLeast m) (hy : y.IsAtLeast n) (h : m + n ≤ 2 ^ (53 : Nat)) :
    (x + y).IsAtLeast (m + n) := by
  obtain rfl | ⟨j, hj, hx⟩ := hx
  · obtain rfl | ⟨k, hk, hy⟩ := hy
    · exact Or.inl rfl
    · obtain ⟨t, hunits, rfl, -⟩ := hy.exists_eq_finite
      exact Or.inl rfl
  · obtain ⟨s, hunits, rfl, hs⟩ := hx.exists_eq_finite
    obtain rfl | ⟨k, hk, hy⟩ := hy
    · exact Or.inl rfl
    · obtain ⟨t, hunits', rfl, ht⟩ := hy.exists_eq_finite
      have hterm {negative : Bool} {i : Nat} (h : negative = true → i = 0) :
          (if negative then -((one * i : Nat) : Int) else ((one * i : Nat) : Int))
            = ((one * i : Nat) : Int) := by
        rcases negative with _ | _
        · rfl
        · rw [h rfl]
          rfl
      change IsAtLeast (ofUnits (s && t) ((if s then _ else _) + (if t then _ else _))) (m + n)
      rw [hterm hs, hterm ht, ← Int.natCast_add, ← Nat.mul_add, ofUnits, Int.natAbs_natCast]
      refine isAtLeast_ofQuotient (by omega) h fun hnegative ↦ ?_
      split at hnegative
      · next hzero =>
        exact (Nat.mul_eq_zero.mp (Int.natCast_eq_zero.mp hzero)).resolve_left
          (Nat.ne_of_gt one_pos)
      · exact absurd (of_decide_eq_true hnegative) (Int.not_lt.mpr (Int.natCast_nonneg _))

theorem mul {j : Nat} (hx : x.IsNat j) (hmj : m ≤ j) (hm : 1 ≤ m) (hy : y.IsAtLeast n)
    (h : m * n ≤ 2 ^ (53 : Nat)) : (x * y).IsAtLeast (m * n) := by
  obtain ⟨s, hunits, rfl, hs⟩ := hx.exists_eq_finite
  obtain rfl : s = false := Bool.eq_false_iff.mpr fun hnegative ↦ by
    have := hs hnegative
    omega
  obtain rfl | ⟨k, hk, hy⟩ := hy
  · refine Or.inl ?_
    change (if one * j = 0 then nan else infinite (false ^^ false)) = _
    rw [if_neg (Nat.ne_of_gt (Nat.mul_pos one_pos (Nat.le_trans hm hmj)))]
    rfl
  · obtain ⟨t, hunits', rfl, ht⟩ := hy.exists_eq_finite
    have hround : roundUnits (one * j * (one * k)) one = roundUnits (one * (j * k)) 1 := by
      rw [← roundUnits_mul_mul_left one_pos (one * (j * k)) 1, Nat.mul_one]
      congr 1
      ac_rfl
    have hproduct : ofQuotient (false ^^ t) (one * j * (one * k)) one
        = ofQuotient t (one * (j * k)) 1 := by
      rw [Bool.false_xor]
      unfold ofQuotient
      simp only [hround]
    change IsAtLeast (ofQuotient (false ^^ t) (one * j * (one * k)) one) (m * n)
    rw [hproduct]
    refine isAtLeast_ofQuotient (Nat.mul_le_mul hmj hk) h fun hnegative ↦ ?_
    rw [ht hnegative, Nat.mul_zero]

theorem floor_mul {k : Nat} (hk : Representable k) (hone : one ≤ k) (hy : y.IsAtLeast n)
    (h : n ≤ 2 ^ (53 : Nat)) : ((finite false k hk).floor * y).IsAtLeast n := by
  have hproduct := mul (isNat_floor hk) (Nat.div_pos hone Binary64.one_pos) (Nat.le_refl 1) hy
    (by rwa [Nat.one_mul])
  rwa [Nat.one_mul] at hproduct

end IsAtLeast

end Binary64

end DiceNotation
