import DiceNotation.Proofs.Cutoffs
import DiceNotation.Proofs.Rounding

/-!
# Cutoffs with a fraction

A die may be rolled until it meets a number that is not whole. If the relation is one of order, such
a number divides the faces as soon as it is between the ends. If it is one of divisibility, the
rolls are compared with another number: the numerator of the first rational approximation that
equals the cutoff within a tolerance.

## How large the numerators are

A numerator is the one before it, multiplied by a whole part of at least one, plus the one before
that, so numerators never become smaller, and rounding does not change this. The first one is the
whole part of the cutoff and the second one is at least two. So the numerator that is found is at
least two, and divides the faces if it is not beyond the last one, unless it is the first one and
this is one.

That happens for a single number, the next one above one (`Dice.Cutoff.aboveOne`), which the
tolerance takes for one itself. All faces are multiples of one, but the check has been made before.
-/

namespace DiceNotation

-- A power of naturals is the one whose laws the core library states, whatever is imported.
attribute [local instance (high)] instPowNat

open Binary64

namespace Dice

namespace Cutoff

/-! ## Numerators

There is no fraction left of a number that is whole, and only of such a number. If there is one left
and the approximation is not good enough, another one is tried. -/

theorem fraction_beq_zero {n : Nat} (h : Representable n) :
    (finite false n h - (finite false n h).floor == 0) = decide (n % one = 0) := by
  rw [sub_floor_finite h]
  exact (beq_eq_of_rank? rfl (rank?_ofNat (Nat.zero_le _))).trans
    (decide_eq_decide.mpr (Int.natCast_inj.trans (by rw [Nat.mul_zero])))

variable {x num prevNum den prevDen rest : Binary64} {k n : Nat}

theorem numeratorFrom_of_far (steps : Nat)
    (hfar : ((rest.floor * num + prevNum) / (rest.floor * den + prevDen) - x).abs.le
      (tolerance * x.abs.max 1) = false)
    (hfraction : (rest - rest.floor == 0) = false) :
    numeratorFrom x (steps + 1) num prevNum den prevDen rest
      = numeratorFrom x steps (rest.floor * num + prevNum) num (rest.floor * den + prevDen) den
          (1 / (rest - rest.floor)) := by
  rw [numeratorFrom]
  dsimp only
  rw [hfar, hfraction]
  rfl

/-- **Numerators do not become smaller**: what bounds the next one bounds the one that is found. -/
theorem isAtLeast_numeratorFrom (steps : Nat) (h : Representable n) (hn : one ≤ n)
    (hk : k ≤ 2 ^ (53 : Nat)) (hnum : num.IsAtLeast 0)
    (hnext : ((finite false n h).floor * num + prevNum).IsAtLeast k) :
    (numeratorFrom x (steps + 1) num prevNum den prevDen (finite false n h)).IsAtLeast k := by
  induction steps generalizing num prevNum den prevDen n with
  | zero =>
    rw [numeratorFrom]
    dsimp only
    split
    · exact hnext
    · split
      · exact hnext
      · exact hnext
  | succ steps ih =>
    rw [numeratorFrom]
    dsimp only
    split
    · exact hnext
    · split
      · exact hnext
      · next hfraction =>
        rw [fraction_beq_zero h, decide_eq_true_eq] at hfraction
        obtain ⟨m, hm, heq, hone⟩ := inverse_fraction h hn hfraction
        rw [heq]
        exact ih hm hone (hnext.mono (Nat.zero_le k)) ((hnext.floor_mul hm hone hk).add hnum hk)

/-! ## The next number above one

The tolerance leaves a number from one up to two a share of its own. A significand that is the
second one after that of one, or a later one, is beyond it. -/

/-- The number that follows one. -/
def aboveOne : Binary64 := 1 + .epsilon

theorem two_pow_eq_mul : 2 ^ (unitExponent - 52) = 2 ^ (unitExponent - 104) * 2 ^ (52 : Nat) := by
  have hexponent : unitExponent - 52 = unitExponent - 104 + 52 := by decide
  rw [hexponent, Nat.pow_add]

theorem epsilon_eq : epsilon = finite false (2 ^ (unitExponent - 52) * 1)
    (representable_two_pow_mul (by decide) (by decide)) := by
  have hpower : one = 2 ^ (unitExponent - 52) * 2 ^ (52 : Nat) := one_eq_mul (by decide)
  have hpos : 0 < one * 2 ^ fractionBits := Nat.mul_pos Binary64.one_pos (Nat.two_pow_pos _)
  have hquotient : one * one = one * 2 ^ fractionBits * (2 ^ (unitExponent - 52) * 1) := by
    rw [Nat.mul_one, Nat.mul_assoc, Nat.mul_comm (2 ^ fractionBits), ← hpower]
  rw [epsilon, one_eq_finite, ofNat_eq_finite (by decide)]
  exact div_finite _ _ _ hpos hquotient

theorem aboveOne_eq : aboveOne = finite false (2 ^ (unitExponent - 52) * (2 ^ (52 : Nat) + 1))
    (representable_two_pow_mul (by decide) (by decide)) := by
  have hsum : one + 2 ^ (unitExponent - 52) * 1
      = 2 ^ (unitExponent - 52) * (2 ^ (52 : Nat) + 1) := by
    rw [Nat.mul_add, ← one_eq_mul (by decide)]
  have hrepresentable : Representable (one + 2 ^ (unitExponent - 52) * 1) := by
    rw [hsum]
    exact representable_two_pow_mul (by decide) (by decide)
  rw [aboveOne, epsilon_eq, one_eq_finite, add_finite _ _ hrepresentable]
  simp only [hsum]

theorem tolerance_mul {v : Nat} (h : Representable (2 ^ (unitExponent - 52) * v))
    (hv : v < 2 ^ (53 : Nat)) :
    tolerance * finite false (2 ^ (unitExponent - 52) * v) h
      = finite false (2 ^ (unitExponent - 104) * v)
          (representable_two_pow_mul (by decide) hv) := by
  have hpower : one = 2 ^ (unitExponent - 52) * 2 ^ (52 : Nat) := one_eq_mul (by decide)
  have hcomm (a b c d : Nat) : a * (b * c * d) = a * c * (b * d) := by ac_rfl
  rw [tolerance, epsilon_eq]
  refine mul_finite _ h _ ?_
  calc 2 ^ (unitExponent - 52) * 1 * (2 ^ (unitExponent - 52) * v)
      = 2 ^ (unitExponent - 52) * (2 ^ (unitExponent - 104) * 2 ^ (52 : Nat) * v) := by
        rw [Nat.mul_one, ← two_pow_eq_mul]
    _ = 2 ^ (unitExponent - 52) * 2 ^ (52 : Nat) * (2 ^ (unitExponent - 104) * v) :=
        hcomm _ _ _ _
    _ = one * (2 ^ (unitExponent - 104) * v) := by rw [← hpower]

theorem abs_max_one (h : Representable n) (hone : one ≤ n) :
    (finite false n h).abs.max 1 = finite false n h := by
  have hlt : (finite false n h).lt (finite false one representable_one) = false := by
    rw [lt_eq_of_rank? (rank?_finite h) (rank?_finite _)]
    exact decide_eq_false (Int.not_lt.mpr (Int.ofNat_le.mpr hone))
  rw [one_eq_finite]
  exact if_neg (by rw [Binary64.abs, hlt]; exact Bool.false_ne_true)

theorem significand_far {v : Nat} (h : Representable (2 ^ (unitExponent - 52) * v))
    (hlow : 2 ^ (52 : Nat) + 2 ≤ v) (hhigh : v < 2 ^ (53 : Nat)) :
    ((1 : Binary64) - finite false (2 ^ (unitExponent - 52) * v) h).abs.le
      (tolerance * (finite false (2 ^ (unitExponent - 52) * v) h).abs.max 1) = false := by
  have hpower : one = 2 ^ (unitExponent - 52) * 2 ^ (52 : Nat) := one_eq_mul (by decide)
  have hone : one ≤ 2 ^ (unitExponent - 52) * v := by
    rw [hpower]
    exact Nat.mul_le_mul_left _ (by omega)
  have hdifference : 2 ^ (unitExponent - 52) * v - one
      = 2 ^ (unitExponent - 52) * (v - 2 ^ (52 : Nat)) := by rw [hpower, Nat.mul_sub]
  have hrepresentable : Representable (2 ^ (unitExponent - 52) * v - one) := by
    rw [hdifference]
    exact representable_two_pow_mul (by decide) (by omega)
  rw [abs_max_one h hone, tolerance_mul h hhigh, one_eq_finite,
    abs_sub_finite representable_one h hone hrepresentable,
    le_eq_of_rank? (rank?_finite _) (rank?_finite _)]
  refine decide_eq_false (Int.not_le.mpr (Int.ofNat_lt.mpr ?_))
  rw [hdifference, two_pow_eq_mul, Nat.mul_assoc]
  refine Nat.mul_lt_mul_of_pos_left ?_ (Nat.two_pow_pos (unitExponent - 104))
  omega

/-- Of the numbers from one up to two, the tolerance takes none for one but one itself and the
number that follows. -/
theorem one_far (h : Representable n) (hone : one < n) (htwo : n < one * 2)
    (hne : finite false n h ≠ aboveOne) :
    ((1 : Binary64) - finite false n h).abs.le (tolerance * (finite false n h).abs.max 1)
      = false := by
  obtain ⟨v, hv, hlow, hhigh⟩ := exists_significand h (Nat.le_of_lt hone) htwo
  have hfirst : v ≠ 2 ^ (52 : Nat) := by
    intro heq
    rw [hv, heq, ← one_eq_mul (by decide)] at hone
    exact Nat.lt_irrefl one hone
  have hsecond : v ≠ 2 ^ (52 : Nat) + 1 := by
    intro heq
    refine hne ?_
    simp only [aboveOne_eq, hv, heq]
  simp only [hv]
  exact significand_far _ (by omega) hhigh

theorem isAtLeast_wholeMultiple (h : Representable n) (hone : one < n) (hfraction : n % one ≠ 0)
    (hne : finite false n h ≠ aboveOne) : (wholeMultiple (finite false n h)).IsAtLeast 2 := by
  have hzero : IsAtLeast 0 0 := (isNat_ofNat (Nat.zero_le _)).isAtLeast
  have hnum : IsAtLeast 1 1 := (isNat_ofNat (by decide)).isAtLeast
  by_cases hwhole : 2 ≤ n / one
  · have hproduct := IsAtLeast.mul (isNat_floor h) hwhole (by decide) hnum (by decide)
    exact isAtLeast_numeratorFrom 63 h (Nat.le_of_lt hone) (by decide)
      (hnum.mono (Nat.zero_le 1)) (hproduct.add hzero (by decide))
  -- The first numerator is one. The second one is found from it and from the one before.
  · have hdiv : n / one = 1 := by
      have := Nat.div_pos (Nat.le_of_lt hone) Binary64.one_pos
      omega
    have hfloor : (finite false n h).floor = 1 := by
      simp only [floor_finite h, one_eq_finite, hdiv, Nat.mul_one]
    have htwo : n < one * 2 := by
      rw [Nat.mul_comm, ← Nat.div_lt_iff_lt_mul Binary64.one_pos]
      omega
    obtain ⟨m, hm, heq, hm'⟩ := inverse_fraction h (Nat.le_of_lt hone) hfraction
    have hfirst : (1 : Binary64) * 1 + 0 = 1 := by
      change ofNat 1 * ofNat 1 + ofNat 0 = ofNat 1
      rw [ofNat_mul_ofNat (by decide) (by decide) (by decide), ofNat_add_ofNat (by decide)]
    have hfirst' : (1 : Binary64) * 0 + 1 = 1 := by
      change ofNat 1 * ofNat 0 + ofNat 1 = ofNat 1
      rw [ofNat_mul_ofNat (by decide) (by decide) (by decide), ofNat_add_ofNat (by decide)]
    have hratio : (1 : Binary64) / 1 = 1 := by
      rw [one_eq_finite]
      exact div_finite _ _ _ Binary64.one_pos rfl
    have hstep : wholeMultiple (finite false n h)
        = numeratorFrom (finite false n h) 63 1 1 1 0 (finite false m hm) := by
      refine (numeratorFrom_of_far 63 ?_ ?_).trans ?_
      · rw [hfloor, hfirst, hfirst', hratio]
        exact one_far h hone htwo hne
      · rw [fraction_beq_zero h]
        exact decide_eq_false hfraction
      · rw [heq, hfloor, hfirst, hfirst']
    rw [hstep]
    exact isAtLeast_numeratorFrom 62 hm hm' (by decide) (hnum.mono (Nat.zero_le 1))
      ((hnum.floor_mul hm hm' (by decide)).add hnum (by decide))

/-! ## The check

A cutoff that is accepted is between the ends of the die. If it is whole, it is a natural number; if
it is not, it is not an end either. A relation of order tells the ends apart by a number between
them, and of the relations of divisibility only the next number above one needs a look: it is taken
for one, of which all faces are multiples. -/

variable {cmp : Comparison} {sides : Nat} {y : Binary64}

theorem exists_eq_finite_of_ofFaces? (hs' : sides ≤ 2 ^ (53 : Nat)) (hx : x.isNaN = false)
    (h : ofFaces? cmp sides x = some y) :
    ∃ n hn, x = finite false n hn ∧ one ≤ n ∧ n ≤ one * sides := by
  have hrange : (x.lt 1 || (ofNat sides).lt x) = false := by
    unfold ofFaces? at h
    dsimp only at h
    split at h
    · cases h
    · next hrange => exact Bool.eq_false_iff.mpr hrange
  rw [Bool.or_eq_false_iff, one_eq_finite] at hrange
  obtain ⟨hlow, hhigh⟩ := hrange
  have hnegative (k : Nat) : -(k : Int) < (one : Int) := by
    have := Binary64.one_pos
    omega
  rcases x with _ | (_ | _) | ⟨_ | _, n, hn⟩
  · cases hx
  · have hlast := (representable_one_mul hs').1
    rw [lt_eq_of_rank? (rank?_ofNat hs') rank?_infinite, decide_eq_false_iff_not] at hhigh
    exact absurd (Int.ofNat_lt.mpr hlast) hhigh
  · rw [lt_eq_of_rank? rank?_infinite_negative (rank?_finite _), decide_eq_false_iff_not] at hlow
    exact absurd (hnegative _) hlow
  · rw [lt_eq_of_rank? (rank?_finite hn) (rank?_finite _), decide_eq_false_iff_not] at hlow
    rw [lt_eq_of_rank? (rank?_ofNat hs') (rank?_finite hn), decide_eq_false_iff_not] at hhigh
    exact ⟨n, hn, rfl, Int.ofNat_le.mp (Int.not_lt.mp hlow), Int.ofNat_le.mp (Int.not_lt.mp hhigh)⟩
  · rw [lt_eq_of_rank? (rank?_finite_negative hn) (rank?_finite _), decide_eq_false_iff_not] at hlow
    exact absurd (hnegative _) hlow

theorem exists_isNat_of_ofFaces? (hs' : sides ≤ 2 ^ (53 : Nat)) (hx : x.isNaN = false)
    (hwhole : x.isWhole = true) (h : ofFaces? cmp sides x = some y) : ∃ n, x.IsNat n := by
  obtain ⟨n, hn, rfl, -, -⟩ := exists_eq_finite_of_ofFaces? hs' hx h
  rw [isWhole, beq_iff_eq] at hwhole
  refine ⟨n / one, (Nat.mul_div_cancel' (Nat.dvd_of_mod_eq_zero hwhole)).symm, ?_⟩
  exact fun hnegative ↦ Bool.noConfusion hnegative

theorem exists_fraction_of_ofFaces? (hs' : sides ≤ 2 ^ (53 : Nat)) (hx : x.isNaN = false)
    (hwhole : x.isWhole = false) (h : ofFaces? cmp sides x = some y) :
    ∃ n hn, x = finite false n hn ∧ n % one ≠ 0 ∧ one < n ∧ n < one * sides := by
  obtain ⟨n, hn, rfl, hlow, hhigh⟩ := exists_eq_finite_of_ofFaces? hs' hx h
  rw [isWhole, beq_eq_false_iff_ne] at hwhole
  refine ⟨n, hn, rfl, hwhole, Nat.lt_of_le_of_ne hlow ?_, Nat.lt_of_le_of_ne hhigh ?_⟩
  · rintro rfl
    exact hwhole (Nat.mod_self one)
  · rintro rfl
    exact hwhole (Nat.mul_mod_right one sides)

/-- What the check does with a cutoff that has a fraction. -/
theorem ofFaces?_of_fraction (hs' : sides ≤ 2 ^ (53 : Nat)) (hn : Representable n) (hlow : one < n)
    (hhigh : n < one * sides) (hfraction : n % one ≠ 0) :
    ofFaces? cmp sides (finite false n hn) =
      if cmp.isModular then
        if (ofNat sides).lt (wholeMultiple (finite false n hn)) then none
        else some (wholeMultiple (finite false n hn))
      else if cmp = .equal ∨ cmp = .notEqual then none
      else some (finite false n hn) := by
  have hrange : ((finite false n hn).lt 1 || (ofNat sides).lt (finite false n hn)) = false := by
    rw [one_eq_finite, lt_eq_of_rank? (rank?_finite hn) (rank?_finite _),
      lt_eq_of_rank? (rank?_ofNat hs') (rank?_finite hn), Bool.or_eq_false_iff,
      decide_eq_false_iff_not, decide_eq_false_iff_not, Int.ofNat_lt, Int.ofNat_lt]
    omega
  have hend : (finite false n hn == 1 || finite false n hn == ofNat sides) = false := by
    rw [one_eq_finite, beq_eq_of_rank? (rank?_finite hn) (rank?_finite _),
      beq_eq_of_rank? (rank?_finite hn) (rank?_ofNat hs'), Bool.or_eq_false_iff,
      decide_eq_false_iff_not, decide_eq_false_iff_not, Int.natCast_inj, Int.natCast_inj]
    omega
  have hwhole : (finite false n hn).isWhole = false := by
    rw [isWhole, beq_eq_false_iff_ne]
    exact hfraction
  unfold ofFaces?
  dsimp only
  rw [hrange, hend, hwhole, if_neg Bool.false_ne_true, if_neg Bool.false_ne_true,
    if_neg Bool.false_ne_true]
  by_cases hmodular : cmp.isModular = true
  · rw [if_pos hmodular, if_pos hmodular]
  · rw [if_neg hmodular, if_neg hmodular]
    cases cmp with
    | equal | notEqual => exact (if_pos (by decide)).symm
    | multiple | notMultiple => exact absurd rfl hmodular
    | _ => exact (if_neg (by decide)).symm

/-- The whole multiple of a cutoff other than the next number above one divides the faces, unless it
is beyond the last one. -/
theorem exists_splits_wholeMultiple (hs' : sides ≤ 2 ^ (53 : Nat)) (hmodular : cmp.isModular = true)
    (hn : Representable n) (hlow : one < n) (hfraction : n % one ≠ 0)
    (hne : finite false n hn ≠ aboveOne)
    (hlast : (ofNat sides).lt (wholeMultiple (finite false n hn)) = false) :
    ∃ m, (wholeMultiple (finite false n hn)).IsNat m ∧ cmp.Splits sides m := by
  obtain hinfinite | ⟨m, hm, hnat⟩ := isAtLeast_wholeMultiple hn hlow hfraction hne
  · rw [hinfinite, lt_eq_of_rank? (rank?_ofNat hs') rank?_infinite,
      decide_eq_false_iff_not] at hlast
    exact absurd (Int.ofNat_lt.mpr (representable_one_mul hs').1) hlast
  · rw [(isNat_ofNat hs').lt_eq hnat, decide_eq_false_iff_not, Nat.not_lt] at hlast
    refine ⟨m, hnat, (Comparison.splits_iff (Nat.le_trans hm hlast)).mpr ⟨⟨by omega, hlast⟩, ?_⟩⟩
    -- The last face is a multiple of itself, and the first one is not.
    rintro (rfl | rfl) hends
    · exact absurd hm (by decide)
    · have hone : ¬m ∣ 1 := fun hdvd ↦ absurd (Nat.le_of_dvd Nat.one_pos hdvd) (by omega)
      cases cmp with
      | multiple => exact hone (hends.mpr (Nat.dvd_refl m))
      | notMultiple => exact hends.mp hone (Nat.dvd_refl m)
      | _ => exact Bool.noConfusion hmodular

theorem holds_ends (hs' : sides ≤ 2 ^ (53 : Nat)) (hmodular : ¬cmp.isModular = true)
    (hequality : ¬(cmp = .equal ∨ cmp = .notEqual)) (hn : Representable n) (hlow : one < n)
    (hhigh : n < one * sides) :
    cmp.holds (.ofNat 1) (finite false n hn) = !cmp.holds (.ofNat sides) (finite false n hn) := by
  have hfirst : (ofNat 1).rank? = some ((one : Nat) : Int) := by
    rw [rank?_ofNat (by decide), Nat.mul_one]
  have hlast := rank?_ofNat hs'
  have hx := rank?_finite hn
  cases cmp with
  | less | lessEqual | greater | greaterEqual =>
    simp only [Comparison.holds, lt_eq_of_rank? hfirst hx, lt_eq_of_rank? hx hfirst,
      lt_eq_of_rank? hlast hx, lt_eq_of_rank? hx hlast, le_eq_of_rank? hfirst hx,
      le_eq_of_rank? hx hfirst, le_eq_of_rank? hlast hx, le_eq_of_rank? hx hlast]
    rw [← decide_not, decide_eq_decide]
    omega
  | equal => exact absurd (Or.inl rfl) hequality
  | notEqual => exact absurd (Or.inr rfl) hequality
  | multiple | notMultiple => exact absurd rfl hmodular

theorem eq_one_of_ofFaces?_aboveOne (hs' : sides ≤ 2 ^ (53 : Nat)) (hmodular : cmp.isModular = true)
    (h : ofFaces? cmp sides aboveOne = some y) : y = 1 := by
  have hmultiple : wholeMultiple aboveOne = 1 := by decide +kernel
  obtain ⟨n, hn, heq, hfraction, hlow, hhigh⟩ :=
    exists_fraction_of_ofFaces? hs' (by decide +kernel) (by decide +kernel) h
  rw [heq, ofFaces?_of_fraction hs' hn hlow hhigh hfraction, if_pos hmodular, ← heq,
    hmultiple] at h
  split at h
  · cases h
  · cases h
    rfl

theorem agree_one (hmodular : cmp.isModular = true) {face face' : Nat}
    (h : 0 < face ∧ face ≤ 2 ^ (53 : Nat)) (h' : 0 < face' ∧ face' ≤ 2 ^ (53 : Nat)) :
    cmp.holds (.ofNat face) 1 = cmp.holds (.ofNat face') 1 := by
  have hone : (1 : Binary64).IsNat 1 := isNat_ofNat (by decide)
  rw [← beq_iff_eq]
  refine (agree_iff hone h h').mpr ?_
  cases cmp with
  | multiple => exact iff_of_true (Nat.one_dvd face) (Nat.one_dvd face')
  | notMultiple =>
    exact iff_of_false (not_not.mpr (Nat.one_dvd face)) (not_not.mpr (Nat.one_dvd face'))
  | _ => exact Bool.noConfusion hmodular

end Cutoff

/-- Some faces of the die stand in the relation to the number, and some do not. -/
def Divides (cmp : Comparison) (sides : Nat) (y : Binary64) : Prop :=
  (∃ face, 1 ≤ face ∧ face ≤ sides ∧ cmp.holds (.ofNat face) y = true) ∧
    ∃ face, 1 ≤ face ∧ face ≤ sides ∧ cmp.holds (.ofNat face) y = false

variable {cmp : Comparison} {sides : Nat} {x y : Binary64}

theorem divides_of_splits {n : Nat} (h : cmp.Splits sides n) (hs' : sides ≤ 2 ^ (53 : Nat))
    (hy : y.IsNat n) : Divides cmp sides y := by
  have hholds {face : Nat} (h : 1 ≤ face) (h' : face ≤ sides) :
      cmp.holds (.ofNat face) y = true ↔ cmp.Relates face n := by
    have hface := Nat.le_trans h' hs'
    exact cmp.holds_iff (isNat_ofNat hface) h hface hy
  obtain ⟨⟨met, hmet, hmet', hmeets⟩, missed, hmissed, hmissed', hmisses⟩ := h
  refine ⟨⟨met, hmet, hmet', (hholds hmet hmet').mpr hmeets⟩, missed, hmissed, hmissed', ?_⟩
  exact Bool.eq_false_iff.mpr fun hholds' ↦ hmisses ((hholds hmissed hmissed').mp hholds')

theorem divides_of_ends (hs : 1 ≤ sides)
    (h : cmp.holds (.ofNat 1) y = !cmp.holds (.ofNat sides) y) : Divides cmp sides y := by
  rcases hlast : cmp.holds (.ofNat sides) y
  · rw [hlast] at h
    exact ⟨⟨1, Nat.le_refl 1, hs, h⟩, sides, hs, Nat.le_refl sides, hlast⟩
  · rw [hlast] at h
    exact ⟨⟨sides, hs, Nat.le_refl sides, hlast⟩, 1, Nat.le_refl 1, hs, h⟩

theorem divides_of_ofFaces? (hs : 2 ≤ sides) (hs' : sides ≤ 2 ^ (53 : Nat)) (hx : x.isNaN = false)
    (h : Cutoff.ofFaces? cmp sides x = some y)
    (hexception : ¬(cmp.isModular = true ∧ x = Cutoff.aboveOne)) : Divides cmp sides y := by
  rcases hwhole : x.isWhole
  · obtain ⟨n, hn, rfl, hfraction, hlow, hhigh⟩ :=
      Cutoff.exists_fraction_of_ofFaces? hs' hx hwhole h
    rw [Cutoff.ofFaces?_of_fraction hs' hn hlow hhigh hfraction] at h
    split at h
    · next hmodular =>
      split at h
      · cases h
      · next hlast =>
        cases h
        obtain ⟨m, hm, hsplits⟩ := Cutoff.exists_splits_wholeMultiple hs' hmodular hn hlow
          hfraction (fun heq ↦ hexception ⟨hmodular, heq⟩) (Bool.eq_false_iff.mpr hlast)
        exact divides_of_splits hsplits hs' hm
    · next hmodular =>
      split at h
      · cases h
      · next hequality =>
        cases h
        exact divides_of_ends (by omega)
          (Cutoff.holds_ends hs' hmodular hequality hn hlow hhigh)
  · obtain ⟨n, hn⟩ := Cutoff.exists_isNat_of_ofFaces? hs' hx hwhole h
    obtain ⟨hsplits, rfl⟩ := (Cutoff.ofFaces?_eq_some_iff hs hs' hn).mp h
    exact divides_of_splits hsplits hs' hn

/-- **No pointless roll is accepted, with one exception.** If a die with several sides may be rolled
until it meets a number, whole or not, then some of its faces stand in the relation to what the
rolls are compared with, and some do not. The exception are the two relations of divisibility, if
the number is the next one above one. -/
theorem divides_iff_of_cutoff (hs : 2 ≤ sides) (hs' : sides ≤ 2 ^ (53 : Nat))
    (h : cutoff cmp sides x = .ok y) :
    Divides cmp sides y ↔ ¬(cmp.isModular = true ∧ x = Cutoff.aboveOne) := by
  have hnan : x.isNaN = false := by
    rcases x with _ | _ | _
    · cases h
    · rfl
    · rfl
  rw [cutoff_eq_ok_iff_ofFaces? (by omega) hnan] at h
  constructor
  · rintro ⟨⟨met, hmet, hmet', hmeets⟩, missed, hmissed, hmissed', hmisses⟩ ⟨hmodular, rfl⟩
    obtain rfl := Cutoff.eq_one_of_ofFaces?_aboveOne hs' hmodular h
    have hagree := Cutoff.agree_one hmodular ⟨hmet, Nat.le_trans hmet' hs'⟩
      ⟨hmissed, Nat.le_trans hmissed' hs'⟩
    rw [hmeets, hmisses] at hagree
    exact Bool.noConfusion hagree
  · exact divides_of_ofFaces? hs hs' hnan h

/-- A die with six sides is not rolled until it meets a multiple of two and a half, but of five. -/
theorem divides_iff_of_cutoff_twoAndAHalf :
    2 ≤ 6 ∧ 6 ≤ 2 ^ (53 : Nat) ∧ cutoff .multiple 6 (5 / 2) = .ok 5 ∧ Divides .multiple 6 5 := by
  have hcutoff : cutoff .multiple 6 (5 / 2) = .ok 5 :=
    (cutoff_eq_ok_iff_ofFaces? (by decide) (by decide +kernel)).mpr (by decide +kernel)
  refine ⟨by decide, by decide, hcutoff, ?_⟩
  refine (divides_iff_of_cutoff (by decide) (by decide) hcutoff).mpr ?_
  rintro ⟨-, heq⟩
  revert heq
  decide +kernel

/-- The exception is accepted for either relation, although all faces are multiples of what the
rolls are compared with: one roll is enough, or none ever is. -/
theorem cutoff_aboveOne_pointless :
    cutoff .multiple 6 Cutoff.aboveOne = .ok 1 ∧
      (∀ face, 1 ≤ face → face ≤ 6 → Comparison.multiple.holds (.ofNat face) 1 = true) ∧
      cutoff .notMultiple 6 Cutoff.aboveOne = .ok 1 ∧
      ∀ face, 1 ≤ face → face ≤ 6 → Comparison.notMultiple.holds (.ofNat face) 1 = false := by
  have hones (face : Nat) (h : 1 ≤ face) (h' : face ≤ 6) : 0 < face ∧ face ≤ 2 ^ (53 : Nat) :=
    ⟨h, by omega⟩
  refine ⟨?_, fun face h h' ↦ ?_, ?_, fun face h h' ↦ ?_⟩
  · exact (cutoff_eq_ok_iff_ofFaces? (by decide) (by decide +kernel)).mpr (by decide +kernel)
  · have hagree : Comparison.multiple.holds (.ofNat face) 1
        = Comparison.multiple.holds (.ofNat 1) 1 :=
      Cutoff.agree_one rfl (hones face h h') (hones 1 (by decide) (by decide))
    rw [hagree]
    decide +kernel
  · exact (cutoff_eq_ok_iff_ofFaces? (by decide) (by decide +kernel)).mpr (by decide +kernel)
  · have hagree : Comparison.notMultiple.holds (.ofNat face) 1
        = Comparison.notMultiple.holds (.ofNat 1) 1 :=
      Cutoff.agree_one rfl (hones face h h') (hones 1 (by decide) (by decide))
    rw [hagree]
    decide +kernel

end Dice

end DiceNotation
