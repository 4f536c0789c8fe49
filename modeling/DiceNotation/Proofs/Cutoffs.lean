import DiceNotation.Operation.Dice
import DiceNotation.Proofs.WholeNumbers

/-!
# Cutoffs that divide the faces

Rolling a die until it meets a cutoff is pointless if all of its faces meet the cutoff, or if none
does. The check whether it is looks at the two end faces only, and only if the cutoff is one of
them; other cutoffs are judged by their place between the ends. On whole cutoffs this is exact: a
cutoff beyond the ends is in the same relation to all faces, one at an end is if the ends agree, and
one between the ends never is, since it has a face of its own.
-/

namespace DiceNotation

-- A power of naturals is the one whose laws the core library states, whatever is imported.
attribute [local instance (high)] instPowNat

/-! ## Relations between naturals

On positive naturals the relation to a natural cutoff is one between naturals. All faces stand in
the same relation to a number that is not between the ends, and to one of the ends if both ends
do. -/

namespace Comparison

/-- Whether a natural number stands in the relation to another one. -/
def Relates (cmp : Comparison) (m n : Nat) : Prop :=
  match cmp with
  | .equal => m = n
  | .notEqual => m ≠ n
  | .less => m < n
  | .lessEqual => m ≤ n
  | .greater => n < m
  | .greaterEqual => n ≤ m
  | .multiple => n ∣ m
  | .notMultiple => ¬n ∣ m

theorem holds_iff (cmp : Comparison) {x y : Binary64} {m n : Nat} (hx : x.IsNat m) (hm : 0 < m)
    (hm' : m ≤ 2 ^ (53 : Nat)) (hy : y.IsNat n) : cmp.holds x y = true ↔ cmp.Relates m n := by
  have hdivides : (x % y == 0) = true ↔ n ∣ m := by
    obtain rfl | hn := Nat.eq_zero_or_pos n
    · rw [hx.mod_zero hy, Nat.zero_dvd]
      exact ⟨fun h ↦ absurd h Bool.false_ne_true, fun h ↦ absurd h (Nat.ne_of_gt hm)⟩
    · have hzero : (0 : Binary64).IsNat 0 := Binary64.isNat_ofNat (Nat.zero_le _)
      rw [(hx.mod hy hm' hn).beq_eq hzero, decide_eq_true_eq, Nat.dvd_iff_mod_eq_zero]
  cases cmp with
  | equal => rw [holds, hx.beq_eq hy, decide_eq_true_eq, Relates]
  | notEqual => rw [holds, bne, hx.beq_eq hy, Bool.not_eq_true', decide_eq_false_iff_not, Relates]
  | less => rw [holds, hx.lt_eq hy, decide_eq_true_eq, Relates]
  | lessEqual => rw [holds, hx.le_eq hy, decide_eq_true_eq, Relates]
  | greater => rw [holds, hy.lt_eq hx, decide_eq_true_eq, Relates]
  | greaterEqual => rw [holds, hy.le_eq hx, decide_eq_true_eq, Relates]
  | multiple => exact hdivides
  | notMultiple => rw [holds, bne, Bool.not_eq_true', ← Bool.not_eq_true, hdivides, Relates]

/-- Some face of a die stands in the relation to a number, and some face does not. -/
def Splits (cmp : Comparison) (sides n : Nat) : Prop :=
  (∃ face, 1 ≤ face ∧ face ≤ sides ∧ cmp.Relates face n) ∧
    ∃ face, 1 ≤ face ∧ face ≤ sides ∧ ¬cmp.Relates face n

variable {cmp : Comparison} {sides n : Nat}

theorem relates_iff_of_outside {face face' : Nat} (hn : n = 0 ∨ sides < n)
    (h : 1 ≤ face ∧ face ≤ sides) (h' : 1 ≤ face' ∧ face' ≤ sides) :
    cmp.Relates face n ↔ cmp.Relates face' n := by
  have hdivides {face : Nat} (h : 1 ≤ face ∧ face ≤ sides) : ¬n ∣ face := by
    intro hdvd
    have hpos := Nat.pos_of_dvd_of_pos hdvd h.1
    have hle := Nat.le_of_dvd h.1 hdvd
    omega
  cases cmp with
  | multiple => exact iff_of_false (hdivides h) (hdivides h')
  | notMultiple => exact iff_of_true (hdivides h) (hdivides h')
  | _ => simp only [Relates]; omega

theorem relates_iff_of_end {face : Nat} (hs : 2 ≤ sides) (hn : n = 1 ∨ n = sides)
    (hends : cmp.Relates 1 n ↔ cmp.Relates sides n) (h : 1 ≤ face ∧ face ≤ sides) :
    cmp.Relates face n ↔ cmp.Relates 1 n := by
  have hsides : ¬sides ∣ 1 := fun hdvd ↦ by
    have := Nat.le_of_dvd Nat.one_pos hdvd
    omega
  -- Only one end is a multiple of the last face, and all faces are multiples of the first.
  have hone : (n ∣ 1 ↔ n ∣ sides) → n = 1 := by
    obtain rfl | rfl := hn
    · exact fun _ ↦ rfl
    · exact fun hends ↦ absurd (hends.mpr (Nat.dvd_refl n)) hsides
  have hall (h : n = 1) (face : Nat) : n ∣ face := h ▸ Nat.one_dvd face
  cases cmp with
  | multiple => exact iff_of_true (hall (hone hends) _) (hall (hone hends) _)
  | notMultiple =>
    have heq := hone (not_iff_not.mp hends)
    exact iff_of_false (not_not.mpr (hall heq _)) (not_not.mpr (hall heq _))
  | _ => simp only [Relates] at hends ⊢; omega

/-- A number between the ends is a face itself. This one, the first and the last are enough to tell
any two relations apart. -/
theorem splits_of_between (h : 1 < n) (h' : n < sides) : cmp.Splits sides n := by
  have hone : ¬n ∣ 1 := fun hdvd ↦ by
    have := Nat.le_of_dvd Nat.one_pos hdvd
    omega
  have first {p : Nat → Prop} (hp : p 1) : ∃ face, 1 ≤ face ∧ face ≤ sides ∧ p face :=
    ⟨1, Nat.le_refl 1, by omega, hp⟩
  have own {p : Nat → Prop} (hp : p n) : ∃ face, 1 ≤ face ∧ face ≤ sides ∧ p face :=
    ⟨n, by omega, by omega, hp⟩
  have last {p : Nat → Prop} (hp : p sides) : ∃ face, 1 ≤ face ∧ face ≤ sides ∧ p face :=
    ⟨sides, by omega, Nat.le_refl _, hp⟩
  cases cmp with
  | equal => exact ⟨own rfl, first (Nat.ne_of_lt h)⟩
  | notEqual => exact ⟨first (Nat.ne_of_lt h), own (not_not.mpr rfl)⟩
  | less => exact ⟨first h, last (Nat.not_lt_of_gt h')⟩
  | lessEqual => exact ⟨first (Nat.le_of_lt h), last (Nat.not_le_of_gt h')⟩
  | greater => exact ⟨last h', first (Nat.not_lt_of_gt h)⟩
  | greaterEqual => exact ⟨last (Nat.le_of_lt h'), first (Nat.not_le_of_gt h)⟩
  | multiple => exact ⟨own (Nat.dvd_refl n), first hone⟩
  | notMultiple => exact ⟨first hone, own (not_not.mpr (Nat.dvd_refl n))⟩

/-- **When a number divides the faces of a die**: it is in their range, and if it is an end, the
ends do not agree about it. -/
theorem splits_iff (hs : 2 ≤ sides) :
    cmp.Splits sides n ↔ (1 ≤ n ∧ n ≤ sides) ∧
      ((n = 1 ∨ n = sides) → ¬(cmp.Relates 1 n ↔ cmp.Relates sides n)) := by
  constructor
  · rintro ⟨⟨face, hface, hface', hmet⟩, missed, hmissed, hmissed', hmiss⟩
    refine ⟨?_, fun hend hagree ↦ ?_⟩
    · refine Decidable.byContradiction fun hrange ↦ hmiss ?_
      exact (relates_iff_of_outside (by omega) ⟨hface, hface'⟩ ⟨hmissed, hmissed'⟩).mp hmet
    · refine hmiss ((relates_iff_of_end hs hend hagree ⟨hmissed, hmissed'⟩).mpr ?_)
      exact (relates_iff_of_end hs hend hagree ⟨hface, hface'⟩).mp hmet
  · rintro ⟨⟨h, h'⟩, hends⟩
    by_cases hend : n = 1 ∨ n = sides
    · have hdiffer := hends hend
      by_cases hone : cmp.Relates 1 n
      · exact ⟨⟨1, Nat.le_refl 1, by omega, hone⟩, sides, by omega, Nat.le_refl _,
          fun hlast ↦ hdiffer (iff_of_true hone hlast)⟩
      · refine ⟨⟨sides, by omega, Nat.le_refl _, ?_⟩, 1, Nat.le_refl 1, by omega, hone⟩
        exact Classical.byContradiction fun hlast ↦ hdiffer (iff_of_false hone hlast)
    · exact splits_of_between (by omega) (by omega)

end Comparison

/-! ## The check

The whole part of a size, from one on, is a number of sides. A whole cutoff of a die with several
sides is accepted as it stands if it divides the faces, and otherwise not at all. -/

namespace Dice

variable {cmp : Comparison} {sides n : Nat} {x : Binary64}

theorem sides_of_floor (h : x.floor.IsNat n) (hn : 1 ≤ n) (hlargest : n ≤ Count.largest) :
    Dice.sides x = .ok n := by
  have hone : (1 : Binary64).IsNat 1 := Binary64.isNat_ofNat (by decide)
  rw [Dice.sides, hone.le_eq h, if_pos (decide_eq_true hn), h.toNat_eq hlargest]

theorem sides_of_isNat (h : x.IsNat n) (hn : 1 ≤ n) (hlargest : n ≤ Count.largest) :
    Dice.sides x = .ok n := sides_of_floor h.floor hn hlargest

theorem Cutoff.agree_iff {face face' : Nat} (hx : x.IsNat n)
    (h : 0 < face ∧ face ≤ 2 ^ (53 : Nat)) (h' : 0 < face' ∧ face' ≤ 2 ^ (53 : Nat)) :
    agree cmp x (.ofNat face) (.ofNat face') = true ↔
      (cmp.Relates face n ↔ cmp.Relates face' n) := by
  rw [agree, beq_iff_eq, Bool.eq_iff_iff,
    cmp.holds_iff (Binary64.isNat_ofNat h.2) h.1 h.2 hx,
    cmp.holds_iff (Binary64.isNat_ofNat h'.2) h'.1 h'.2 hx]

theorem Cutoff.ofFaces?_eq_some_iff {y : Binary64} (hs : 2 ≤ sides) (hs' : sides ≤ 2 ^ (53 : Nat))
    (hx : x.IsNat n) : ofFaces? cmp sides x = some y ↔ cmp.Splits sides n ∧ y = x := by
  have hfirst : (1 : Binary64).IsNat 1 := Binary64.isNat_ofNat (by decide)
  have hlast : (Binary64.ofNat sides).IsNat sides := Binary64.isNat_ofNat hs'
  have hagree : agree cmp x 1 (.ofNat sides) = true ↔
      (cmp.Relates 1 n ↔ cmp.Relates sides n) :=
    agree_iff hx ⟨by decide, by decide⟩ ⟨by omega, hs'⟩
  have houtside : (x.lt 1 || (Binary64.ofNat sides).lt x) = true ↔ n < 1 ∨ sides < n := by
    rw [Bool.or_eq_true, hx.lt_eq hfirst, hlast.lt_eq hx, decide_eq_true_eq, decide_eq_true_eq]
  have hend : (x == 1 || x == Binary64.ofNat sides) = true ↔ n = 1 ∨ n = sides := by
    rw [Bool.or_eq_true, hx.beq_eq hfirst, hx.beq_eq hlast, decide_eq_true_eq, decide_eq_true_eq]
  have haccepted : some x = some y ↔ y = x := Option.some_inj.trans eq_comm
  rw [Comparison.splits_iff hs]
  unfold ofFaces?
  dsimp only
  split
  · next h =>
    have hn := houtside.mp h
    exact iff_of_false nofun fun h ↦ by omega
  · next h =>
    have hn := mt houtside.mpr h
    split
    · next h =>
      have hdiffer := hend.mp h
      split
      · next h => exact iff_of_false nofun fun hsplits ↦ hsplits.1.2 hdiffer (hagree.mp h)
      · next h =>
        rw [haccepted, and_iff_right]
        exact ⟨by omega, fun _ hends ↦ h (hagree.mpr hends)⟩
    · next h =>
      rw [if_pos hx.isWhole_eq, haccepted, and_iff_right]
      exact ⟨by omega, fun hn ↦ absurd (hend.mpr hn) h⟩

theorem cutoff_eq_ok_iff_ofFaces? {y : Binary64} (hs : sides ≠ 1) (hx : x.isNaN = false) :
    cutoff cmp sides x = .ok y ↔ Cutoff.ofFaces? cmp sides x = some y := by
  rw [cutoff, hx, if_neg Bool.false_ne_true, if_neg hs]
  cases Cutoff.ofFaces? cmp sides x with
  | none => exact iff_of_false nofun nofun
  | some z => rw [Except.ok.injEq, Option.some_inj]

/-- **The check of whole cutoffs is exact.** A die with several sides may be rolled until it meets
a natural number exactly if some of its faces meet that number and some do not, and what its rolls
are compared with is the number itself. -/
theorem cutoff_eq_ok_iff {y : Binary64} (hs : 2 ≤ sides) (hs' : sides ≤ 2 ^ (53 : Nat))
    (hx : x.IsNat n) :
    cutoff cmp sides x = .ok y ↔
      ((∃ face, 1 ≤ face ∧ face ≤ sides ∧ cmp.holds (.ofNat face) x = true) ∧
        ∃ face, 1 ≤ face ∧ face ≤ sides ∧ cmp.holds (.ofNat face) x = false) ∧ y = x := by
  have hholds {face : Nat} (h : 1 ≤ face) (h' : face ≤ sides) :
      cmp.holds (.ofNat face) x = true ↔ cmp.Relates face n := by
    have hface := Nat.le_trans h' hs'
    exact cmp.holds_iff (Binary64.isNat_ofNat hface) h hface hx
  have hsplits : cmp.Splits sides n ↔
      (∃ face, 1 ≤ face ∧ face ≤ sides ∧ cmp.holds (.ofNat face) x = true) ∧
        ∃ face, 1 ≤ face ∧ face ≤ sides ∧ cmp.holds (.ofNat face) x = false := by
    refine and_congr (exists_congr fun face ↦ ?_) (exists_congr fun face ↦ ?_)
    · exact and_congr_right fun h ↦ and_congr_right fun h' ↦ (hholds h h').symm
    · refine and_congr_right fun h ↦ and_congr_right fun h' ↦ ?_
      rw [← hholds h h', Bool.not_eq_true]
  rw [cutoff_eq_ok_iff_ofFaces? (by omega) hx.isNaN_eq, Cutoff.ofFaces?_eq_some_iff hs hs' hx,
    hsplits]

/-- Some faces of a die with six sides are multiples of four and others are not. -/
theorem cutoff_eq_ok_iff_fourOfSix :
    2 ≤ 6 ∧ 6 ≤ 2 ^ (53 : Nat) ∧ (Binary64.ofNat 4).IsNat 4 ∧
      cutoff .multiple 6 (.ofNat 4) = .ok (.ofNat 4) :=
  have hfour : (Binary64.ofNat 4).IsNat 4 := Binary64.isNat_ofNat (by decide)
  ⟨by decide, by decide, hfour, (cutoff_eq_ok_iff (by decide) (by decide) hfour).mpr
    ⟨⟨⟨4, by decide, by decide, by decide +kernel⟩, 1, by decide, by decide, by decide +kernel⟩,
      rfl⟩⟩

end Dice

end DiceNotation
