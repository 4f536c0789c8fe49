import DiceNotation.Proofs.Limits

/-!
# Natural numbers in double precision

A number is a natural number (`Binary64.IsNat`) if its units make up so many ones. Order, equality,
remainder and whole part of such numbers are those of naturals, even for the zero with a negative
sign. The natural numbers up to `2⁵³` are all represented.

Greater ones are rounded, but rounding never goes past a number that is represented: it keeps the
order between naturals of which the lower one is exact.
-/

namespace DiceNotation

-- A power of naturals is the one whose laws the core library states, whatever is imported.
attribute [local instance (high)] instPowNat

namespace Binary64

/-- The number is this natural number. If it is zero it may have either sign. -/
def IsNat (x : Binary64) (n : Nat) : Prop :=
  match x with
  | .finite negative units _ => units = one * n ∧ (negative = true → n = 0)
  | _ => False

theorem isNat_ofNat {n : Nat} (h : n ≤ 2 ^ (53 : Nat)) : (ofNat n).IsNat n := by
  rw [ofNat, ofQuotient_of_representable false (representable_one_mul h)]
  exact ⟨rfl, fun hnegative ↦ Bool.noConfusion hnegative⟩

/-! ## Rounding -/

/-- Rounding does not go below a number that is represented. -/
theorem le_roundUnits {m num den : Nat} (hm : Representable m) (h : m ≤ num / den) :
    m ≤ roundUnits num den := by
  have hfloor (den : Nat) : num / den ≤ roundHalfEven num den := by
    unfold roundHalfEven
    split
    · exact Nat.le_refl _
    · split <;> omega
  unfold roundUnits
  refine Nat.le_trans ?_ (Nat.mul_le_mul_right _ (hfloor _))
  rw [← Nat.div_div_eq_div_mul]
  generalize num / den = n at h
  by_cases hspacing : spacing n ≤ spacing m
  -- The distance between numbers around `n` divides `m`, which is therefore not cut.
  · obtain ⟨q, hq⟩ := Nat.dvd_trans (Nat.pow_dvd_pow 2 hspacing) hm.2
    have hcut : q ≤ n / 2 ^ spacing n :=
      (Nat.le_div_iff_mul_le (Nat.two_pow_pos _)).mpr (by rwa [Nat.mul_comm, ← hq])
    calc m = q * 2 ^ spacing n := by rw [hq, Nat.mul_comm]
      _ ≤ n / 2 ^ spacing n * 2 ^ spacing n := Nat.mul_le_mul_right _ hcut
  -- Otherwise there is a power of two between the two, which is not cut either.
  · have hexponent : spacing m + 53 ≤ spacing n + 52 := by omega
    have hlog : spacing n + 52 = n.log2 := by
      simp only [spacing] at hspacing ⊢
      omega
    have hn : n ≠ 0 := by
      rintro rfl
      simp [spacing] at hspacing
    have hcut : 2 ^ (52 : Nat) ≤ n / 2 ^ spacing n := by
      rw [Nat.le_div_iff_mul_le (Nat.two_pow_pos _), ← Nat.pow_add, Nat.add_comm, hlog]
      exact Nat.log2_self_le hn
    calc m ≤ 2 ^ (spacing m + 53) := Nat.le_of_lt (lt_two_pow_spacing_add m)
      _ ≤ 2 ^ (52 + spacing n) := Nat.pow_le_pow_right (by decide) (by omega)
      _ = 2 ^ (52 : Nat) * 2 ^ spacing n := Nat.pow_add _ _ _
      _ ≤ n / 2 ^ spacing n * 2 ^ spacing n := Nat.mul_le_mul_right _ hcut

/-! ## Places on the line

A natural number is a count of ones, with a negative sign only if it is zero. It has no fraction. -/

variable {x y : Binary64}

theorem lt_eq_of_rank? {a b : Int} (hx : x.rank? = some a) (hy : y.rank? = some b) :
    x.lt y = decide (a < b) := by
  rw [lt, hx, hy]

theorem le_eq_of_rank? {a b : Int} (hx : x.rank? = some a) (hy : y.rank? = some b) :
    x.le y = decide (a ≤ b) := by
  rw [le, hx, hy]

theorem beq_eq_of_rank? {a b : Int} (hx : x.rank? = some a) (hy : y.rank? = some b) :
    (x == y) = decide (a = b) := by
  unfold BEq.beq instBEq
  simp only [hx, hy]
  rfl

namespace IsNat

variable {m n : Nat}

theorem exists_eq_finite (h : x.IsNat n) :
    ∃ negative hunits, x = .finite negative (one * n) hunits ∧ (negative = true → n = 0) := by
  rcases x with _ | _ | ⟨negative, units, hunits⟩
  · exact h.elim
  · exact h.elim
  · obtain ⟨rfl, hnegative⟩ := h
    exact ⟨negative, hunits, rfl, hnegative⟩

theorem rank?_eq (h : x.IsNat n) : x.rank? = some ((one * n : Nat) : Int) := by
  obtain ⟨_ | _, hunits, rfl, hnegative⟩ := h.exists_eq_finite
  · rfl
  · obtain rfl := hnegative rfl
    rfl

theorem isNaN_eq (h : x.IsNat n) : x.isNaN = false := by
  obtain ⟨_, _, rfl, -⟩ := h.exists_eq_finite
  rfl

theorem isFinite_eq (h : x.IsNat n) : x.isFinite = true := by
  obtain ⟨_, _, rfl, -⟩ := h.exists_eq_finite
  rfl

theorem isWhole_eq (h : x.IsNat n) : x.isWhole = true := by
  obtain ⟨_, _, rfl, -⟩ := h.exists_eq_finite
  rw [isWhole, Nat.mul_mod_right, beq_self_eq_true]

theorem toNat_eq_min (h : x.IsNat n) (cap : Nat) : x.toNat cap = min n cap := by
  obtain ⟨_ | _, _, rfl, hnegative⟩ := h.exists_eq_finite
  · rw [toNat, if_neg Bool.false_ne_true, Nat.mul_div_cancel_left n one_pos]
  · rw [toNat, if_pos rfl, hnegative rfl, Nat.zero_min]

theorem toNat_eq (h : x.IsNat n) {cap : Nat} (hcap : n ≤ cap) : x.toNat cap = n := by
  rw [h.toNat_eq_min, Nat.min_eq_left hcap]

theorem floor (h : x.IsNat n) : x.floor.IsNat n := by
  obtain ⟨_ | _, hunits, rfl, hnegative⟩ := h.exists_eq_finite
  · rw [Binary64.floor, Nat.mul_div_cancel_left n one_pos, ofQuotient_of_representable false hunits]
    exact ⟨rfl, hnegative⟩
  · obtain rfl := hnegative rfl
    have hzero : (one * 0 + (one - 1)) / one = 0 := by
      rw [Nat.mul_zero, Nat.zero_add]
      exact Nat.div_eq_of_lt (Nat.sub_lt one_pos Nat.one_pos)
    rw [Binary64.floor, hzero, ofQuotient_of_representable true hunits]
    exact ⟨rfl, fun _ ↦ rfl⟩

/-! ## Order

A natural number is not below zero, even if its sign is negative, and not above any greater one,
even if that one has to be rounded. -/

theorem lt_eq (hx : x.IsNat m) (hy : y.IsNat n) : x.lt y = decide (m < n) := by
  rw [lt_eq_of_rank? hx.rank?_eq hy.rank?_eq, decide_eq_decide, Int.ofNat_lt]
  exact Nat.mul_lt_mul_left one_pos

theorem le_eq (hx : x.IsNat m) (hy : y.IsNat n) : x.le y = decide (m ≤ n) := by
  rw [le_eq_of_rank? hx.rank?_eq hy.rank?_eq, decide_eq_decide, Int.ofNat_le]
  exact Nat.mul_le_mul_left_iff one_pos

theorem beq_eq (hx : x.IsNat m) (hy : y.IsNat n) : (x == y) = decide (m = n) := by
  rw [beq_eq_of_rank? hx.rank?_eq hy.rank?_eq, decide_eq_decide, Int.natCast_inj]
  exact Nat.mul_right_inj (Nat.ne_of_gt one_pos)

theorem isNegative_eq (h : x.IsNat n) : x.isNegative = false := by
  have hzero : (0 : Binary64).IsNat 0 := isNat_ofNat (Nat.zero_le _)
  rw [isNegative, h.lt_eq hzero]
  exact decide_eq_false (Nat.not_lt_zero n)

theorem ofNat_lt_eq_false (h : x.IsNat m) (hmn : m ≤ n) : (ofNat n).lt x = false := by
  obtain ⟨r, hr, hle⟩ : ∃ r : Nat, (ofNat n).rank? = some (r : Int) ∧ one * m ≤ r := by
    obtain ⟨_, hunits, -, -⟩ := h.exists_eq_finite
    rw [ofNat, ofQuotient]
    split
    · refine ⟨_, rfl, le_roundUnits hunits ?_⟩
      rw [Nat.div_one]
      exact Nat.mul_le_mul_left one hmn
    · exact ⟨_, rfl, Nat.le_of_lt hunits.1⟩
  rw [lt_eq_of_rank? hr h.rank?_eq]
  exact decide_eq_false (Int.not_lt.mpr (Int.ofNat_le.mpr hle))

/-! ## Remainders -/

theorem mod (hx : x.IsNat m) (hy : y.IsNat n) (hm : m ≤ 2 ^ (53 : Nat)) (hn : 0 < n) :
    (x % y).IsNat (m % n) := by
  obtain ⟨negative, hunits, rfl, hnegative⟩ := hx.exists_eq_finite
  obtain ⟨negative', hunits', rfl, -⟩ := hy.exists_eq_finite
  have hmod : m % n ≤ 2 ^ (53 : Nat) := Nat.le_trans (Nat.mod_le m n) hm
  have heq : finite negative (one * m) hunits % finite negative' (one * n) hunits'
      = finite negative (one * (m % n)) (representable_one_mul hmod) := by
    have hne : one * n ≠ 0 := Nat.ne_of_gt (Nat.mul_pos one_pos hn)
    change rem _ _ = _
    simp only [rem, if_neg hne, Nat.mul_mod_mul_left]
    exact ofQuotient_of_representable negative (representable_one_mul hmod)
  rw [heq]
  refine ⟨rfl, fun h ↦ ?_⟩
  rw [hnegative h, Nat.zero_mod]

theorem mod_zero (hx : x.IsNat m) (hy : y.IsNat 0) : x % y = nan := by
  obtain ⟨_, _, rfl, -⟩ := hx.exists_eq_finite
  obtain ⟨_, _, rfl, -⟩ := hy.exists_eq_finite
  change rem _ _ = _
  rw [rem, if_pos (Nat.mul_zero one)]

end IsNat

end Binary64

end DiceNotation
