import DiceNotation.Proofs.RepeatedRolls
import DiceNotation.Proofs.Rounding

/-!
# The size of the dice that are rolled

A size is cut to its whole part, and the number of sides is that whole part in a machine word. The
word is the largest one for every size beyond it, infinity included (`Dice.HasSides`). So a die has
the potential that its size asks for up to `2⁶⁴`, and for all greater sizes it is a die of that
potential (`Dice.potentialOf`).

The two do not end at the same size. A die of size `2⁶⁴` has the potential `2⁶⁴`, but it is one of
the `2⁶⁴ - 1` faces that a machine word can count: the potential is rounded, the choice is not.
-/

namespace DiceNotation

-- A power of naturals is the one whose laws the core library states, whatever is imported.
attribute [local instance (high)] instPowNat

namespace Binary64

/-! ## Machine words

The number of machine words is represented. The largest word is not, and is rounded up to that
number. -/

theorem isNat_ofNat_size : (ofNat UInt64.size).IsNat UInt64.size := by
  have hrepresentable : Representable (one * UInt64.size) := by
    have hpower : one * UInt64.size = 2 ^ (unitExponent + 64) * 1 := by
      unfold one
      rw [Nat.mul_one, Nat.pow_add]
    rw [hpower]
    exact representable_two_pow_mul (by decide) (by decide)
  rw [ofNat, ofQuotient_of_representable false hrepresentable]
  exact ⟨rfl, fun hnegative ↦ Bool.noConfusion hnegative⟩

theorem ofNat_largest : ofNat Count.largest = ofNat UInt64.size := by decide +kernel

theorem IsNat.unique {x : Binary64} {m n : Nat} (hm : x.IsNat m) (hn : x.IsNat n) : m = n := by
  have hrank := hm.rank?_eq.symm.trans hn.rank?_eq
  exact Nat.eq_of_mul_eq_mul_left one_pos (Int.ofNat.inj (Option.some.inj hrank))

theorem le_one_ofQuotient (num den : Nat) : le 1 (ofQuotient true num den) = false := by
  have hone : (1 : Binary64).IsNat 1 := isNat_ofNat (by decide)
  have hpos := one_pos
  unfold ofQuotient
  split
  · rw [le_eq_of_rank? hone.rank?_eq (rank?_finite_negative _)]
    exact decide_eq_false (by omega)
  · rw [le_eq_of_rank? hone.rank?_eq rank?_infinite_negative]
    exact decide_eq_false (by omega)

theorem one_le_floor_iff {x : Binary64} :
    le 1 x.floor = true ↔
      x = .infinite false ∨ ∃ n hn, x = .finite false n hn ∧ 1 ≤ n / one := by
  have hone : (1 : Binary64).IsNat 1 := isNat_ofNat (by decide)
  rcases x with _ | ⟨_ | _⟩ | ⟨_ | _, n, hn⟩
  · refine iff_of_false ?_ (by simp)
    simp [floor, le, rank?]
  · refine iff_of_true ?_ (Or.inl rfl)
    rw [floor, le_eq_of_rank? hone.rank?_eq rank?_infinite]
    refine decide_eq_true (Int.ofNat_le.mpr ?_)
    exact Nat.le_of_lt (representable_one_mul (by decide)).1
  · refine iff_of_false ?_ (by simp)
    have := one_pos
    rw [floor, le_eq_of_rank? hone.rank?_eq rank?_infinite_negative, decide_eq_true_eq]
    omega
  · rw [hone.le_eq (isNat_floor hn), decide_eq_true_eq]
    constructor
    · exact fun h ↦ Or.inr ⟨n, hn, rfl, h⟩
    · rintro (heq | ⟨_, _, heq, h⟩)
      · cases heq
      · cases heq
        exact h
  · refine iff_of_false ?_ (by simp)
    rw [floor, le_one_ofQuotient]
    exact Bool.false_ne_true

end Binary64

/-! ## Sizes

A size that is accepted is infinite or a count of units. Both the number of sides and the potential
can be told from where it lies with respect to the number of machine words. -/

namespace Dice

variable {x : Binary64} {sides : Nat}

/-- The potential of the dice of a size: its whole part, but not more than `2⁶⁴`. -/
def potentialOf (x : Binary64) : Binary64 :=
  if x.le (.ofNat UInt64.size) then x.floor else .ofNat UInt64.size

/-- The number of sides that dice of a size are rolled with. It is the whole part of the size for
the sizes below `2⁶⁴` and no others: those are rolled with one side less than `2⁶⁴`. -/
structure HasSides (x : Binary64) (sides : Nat) : Prop where
  pos : 1 ≤ sides
  isNat_floor_iff : x.floor.IsNat sides ↔ x.lt (.ofNat UInt64.size) = true
  eq_largest : x.lt (.ofNat UInt64.size) = false → sides = Count.largest

theorem hasSides_infinite : HasSides (.infinite false) Count.largest := by
  have hlt : (Binary64.infinite false).lt (.ofNat UInt64.size) = false := by
    obtain ⟨_, hunits, -, -⟩ := Binary64.isNat_ofNat_size.exists_eq_finite
    rw [Binary64.lt_eq_of_rank? Binary64.rank?_infinite Binary64.isNat_ofNat_size.rank?_eq]
    exact decide_eq_false (Int.not_lt.mpr (Int.ofNat_le.mpr (Nat.le_of_lt hunits.1)))
  refine ⟨by decide, iff_of_false (fun h ↦ h) ?_, fun _ ↦ rfl⟩
  rw [hlt]
  exact Bool.false_ne_true

theorem hasSides_finite {n : Nat} (hn : Binary64.Representable n) (hpos : 1 ≤ n / Binary64.one) :
    HasSides (.finite false n hn) (min (n / Binary64.one) Count.largest) := by
  have hlargest : Count.largest + 1 = UInt64.size := by decide
  have hlt : (Binary64.finite false n hn).lt (.ofNat UInt64.size)
      = decide (n / Binary64.one < UInt64.size) := by
    rw [Binary64.lt_eq_of_rank? (Binary64.rank?_finite hn) Binary64.isNat_ofNat_size.rank?_eq]
    refine decide_eq_decide.mpr (Int.ofNat_lt.trans ?_)
    rw [Nat.div_lt_iff_lt_mul Binary64.one_pos, Nat.mul_comm]
  refine ⟨Nat.le_min_of_le_of_le hpos (by decide), ?_, fun hle ↦ ?_⟩
  · rw [hlt, decide_eq_true_eq]
    constructor
    · intro hfloor
      have := hfloor.unique (Binary64.isNat_floor hn)
      omega
    · intro hword
      rw [Nat.min_eq_left (by omega)]
      exact Binary64.isNat_floor hn
  · rw [hlt, decide_eq_false_iff_not] at hle
    exact Nat.min_eq_right (by omega)

theorem ofNat_min_largest {n : Nat} (hn : Binary64.Representable n) :
    .ofNat (min (n / Binary64.one) Count.largest) = potentialOf (.finite false n hn) := by
  have hlargest : Count.largest + 1 = UInt64.size := by decide
  have hfloor : (Binary64.finite false n hn).floor = .ofNat (n / Binary64.one) := rfl
  rw [potentialOf, hfloor, Binary64.le_eq_of_rank? (Binary64.rank?_finite hn)
    Binary64.isNat_ofNat_size.rank?_eq]
  by_cases hword : n / Binary64.one ≤ Count.largest
  · have hle : n ≤ Binary64.one * UInt64.size := by
      rw [Nat.mul_comm]
      exact Nat.le_of_lt (Nat.lt_mul_of_div_lt (by omega) Binary64.one_pos)
    rw [Nat.min_eq_left hword, if_pos (decide_eq_true (Int.ofNat_le.mpr hle))]
  · rw [Nat.min_eq_right (by omega), Binary64.ofNat_largest]
    split
    -- Only one whole part is left that is not beyond the machine words.
    · next hle =>
      have hwhole : n / Binary64.one ≤ UInt64.size :=
        Nat.div_le_of_le_mul (Int.ofNat_le.mp (of_decide_eq_true hle))
      have heq : n / Binary64.one = UInt64.size := by omega
      rw [heq]
    · rfl

theorem sides_spec (h : Dice.sides x = .ok sides) :
    HasSides x sides ∧ .ofNat sides = potentialOf x := by
  unfold Dice.sides at h
  split at h
  · next hone =>
    obtain rfl := Except.ok.inj h
    obtain rfl | ⟨n, hn, rfl, hpos⟩ := Binary64.one_le_floor_iff.mp hone
    · obtain ⟨_, hunits, -, -⟩ := Binary64.isNat_ofNat_size.exists_eq_finite
      refine ⟨hasSides_infinite, ?_⟩
      rw [potentialOf, Binary64.le_eq_of_rank? Binary64.rank?_infinite
        Binary64.isNat_ofNat_size.rank?_eq,
        decide_eq_false (Int.not_le.mpr (Int.ofNat_lt.mpr hunits.1)), if_neg Bool.false_ne_true]
      exact Binary64.ofNat_largest
    · rw [(Binary64.isNat_floor hn).toNat_eq_min]
      exact ⟨hasSides_finite hn hpos, ofNat_min_largest hn⟩
  · cases h

-- The one size whose dice have its potential without having that many faces.
example : HasSides (.ofNat UInt64.size) Count.largest ∧
    potentialOf (.ofNat UInt64.size) = .ofNat UInt64.size := by
  have hfloor := Binary64.isNat_ofNat_size.floor
  have hone : Binary64.le 1 (Binary64.ofNat UInt64.size).floor = true :=
    ((Binary64.isNat_ofNat (by decide)).le_eq hfloor).trans (by decide)
  have hsides : Dice.sides (.ofNat UInt64.size) = .ok Count.largest := by
    rewrite [Dice.sides, if_pos hone, hfloor.toNat_eq_min]
    rfl
  obtain ⟨hhas, hpotential⟩ := sides_spec hsides
  exact ⟨hhas, hpotential.symm.trans Binary64.ofNat_largest⟩

end Dice

/-! ## Choices

A die takes one choice of the source. Dice that are rolled together take one each, in their
order. -/

namespace Chance

variable {ρ : Type} [Chance ρ] {sides : Nat}

/-- A die comes of a choice. One with a single side shows a fraction, and any other one of as many
faces as it has sides. -/
structure RollsDie (sides : Nat) (c : ρ) (die : Number) (c' : ρ) : Prop where
  single : sides = 1 → (fraction : StateM ρ Binary64).run c = (die.value, c')
  several : 2 ≤ sides →
    ∃ face, (below sides : StateM ρ Nat).run c = (face, c') ∧ die.value = .ofNat (face + 1)
  potential : die.potential = .ofNat sides

/-- Dice come of choices, one behind the other. -/
inductive RollsDice (sides : Nat) : ρ → List Number → ρ → Prop
  | nil (c : ρ) : RollsDice sides c [] c
  | cons {c c' c'' : ρ} {die : Number} {dice : List Number} (hdie : RollsDie sides c die c')
      (hdice : RollsDice sides c' dice c'') : RollsDice sides c (die :: dice) c''

theorem rollsDie_rollDie (h : 1 ≤ sides) (c : ρ) :
    RollsDie sides c ((rollDie sides).run c).1 ((rollDie sides).run c).2 := by
  unfold rollDie
  split
  · obtain rfl : sides = 1 := by omega
    exact ⟨fun _ ↦ rfl, fun hseveral ↦ absurd hseveral (by decide), rfl⟩
  · exact ⟨by omega, fun _ ↦ ⟨_, rfl, rfl⟩, rfl⟩

theorem rollsDice_rolls (h : 1 ≤ sides) (count : Nat) (c : ρ) :
    RollsDice sides c (rolls sides c count) (afterRolls sides count c) := by
  induction count generalizing c with
  | zero => exact .nil c
  | succ count ih =>
    rw [rolls_succ]
    exact .cons (rollsDie_rollDie h c) (ih _)

theorem RollsDice.potential_eq {c c' : ρ} {dice : List Number} (h : RollsDice sides c dice c') :
    ∀ die ∈ dice, die.potential = .ofNat sides := by
  induction h with
  | nil => exact fun _ hdie ↦ absurd hdie List.not_mem_nil
  | cons hdie _ ih => exact List.forall_mem_cons.mpr ⟨hdie.potential, ih⟩

end Chance

namespace Expression

variable {ρ : Type} [Chance ρ] {rules : Rules} {depth : Nat} {frames : List (List Expression)}
  {left right : Expression} {t u : Table ρ} {value : Value}

theorem potential_of_evaluate_die
    (h : ((prefixed .die right).evaluate rules depth frames).run.run t = (.ok value, u)) :
    ∃ w t' die, (right.evaluate rules depth frames).run.run t = (.ok w, t') ∧
      value = .number die ∧ die.potential = Dice.potentialOf w.total.value ∧
      ∃ sides, Dice.HasSides w.total.value sides ∧
        Chance.RollsDie sides t'.chance die u.chance := by
  rw [evaluate_prefixed] at h
  obtain ⟨u', happlied, hchance, -⟩ := Play.exists_of_run_bind_conclude h
  obtain ⟨-, w, t', sides, hright, hsides, rfl, rfl⟩ := Dice.run_rollOne_eq_ok_iff.mp happlied
  obtain ⟨hhas, hpotential⟩ := Dice.sides_spec hsides
  have hrolls := Chance.rollsDie_rollDie hhas.pos t'.chance
  rw [hchance]
  exact ⟨w, t', _, hright, rfl, hrolls.potential.trans hpotential, sides, hhas, hrolls⟩

theorem potential_of_evaluate_dice
    (h : ((binary left .dice right).evaluate rules depth frames).run.run t = (.ok value, u)) :
    ∃ v t₁ w t₂, (left.evaluate rules depth frames).run.run t = (.ok v, t₁) ∧
      (right.evaluate rules depth frames).run.run t₁ = (.ok w, t₂) ∧
      ∃ dice : List Number, value = .list (dice.map .number) ∧
        (∀ die ∈ dice, die.potential = Dice.potentialOf w.total.value) ∧
        ∃ sides, Dice.HasSides w.total.value sides ∧
          Chance.RollsDice sides t₂.chance dice u.chance := by
  obtain ⟨u', hperforms, hchance, -⟩ := Performs.of_evaluate h
  obtain ⟨v, t₁, w, t₂, sides, hleft, hright, -, -, hsides, rfl, rfl⟩ :=
    Dice.run_roll_eq_ok_iff.mp hperforms.applied
  obtain ⟨hhas, hpotential⟩ := Dice.sides_spec hsides
  have hrolls := Chance.rollsDice_rolls hhas.pos
    (v.total.value.floor.toNat Count.largest) t₂.chance
  rw [hchance]
  refine ⟨v, t₁, w, t₂, hleft, hright, _, rfl, fun die hdie ↦ ?_, sides, hhas, hrolls⟩
  exact (hrolls.potential_eq die hdie).trans hpotential

/-- **The dice that are rolled** have the potential of the size that their right operand comes to:
its whole part, as long as it is not beyond `2⁶⁴`, and otherwise that number. The source is asked
for one face of as many as the whole part says, below `2⁶⁴`, and for one of `2⁶⁴ - 1` from there
on. -/
theorem potential_of_roll {ρ : Type} [Chance ρ] (rules : Rules) (depth : Nat)
    (frames : List (List Expression)) (right : Expression) (t : Table ρ) :
    (∀ value u, ((prefixed .die right).evaluate rules depth frames).run.run t = (.ok value, u) →
        ∃ w t' die, (right.evaluate rules depth frames).run.run t = (.ok w, t') ∧
          value = .number die ∧ die.potential = Dice.potentialOf w.total.value ∧
          ∃ sides, Dice.HasSides w.total.value sides ∧
            Chance.RollsDie sides t'.chance die u.chance) ∧
      ∀ left value u,
        ((binary left .dice right).evaluate rules depth frames).run.run t = (.ok value, u) →
        ∃ v t₁ w t₂, (left.evaluate rules depth frames).run.run t = (.ok v, t₁) ∧
          (right.evaluate rules depth frames).run.run t₁ = (.ok w, t₂) ∧
          ∃ dice : List Number, value = .list (dice.map .number) ∧
            (∀ die ∈ dice, die.potential = Dice.potentialOf w.total.value) ∧
            ∃ sides, Dice.HasSides w.total.value sides ∧
              Chance.RollsDice sides t₂.chance dice u.chance :=
  ⟨fun _ _ ↦ potential_of_evaluate_die, fun _ _ _ ↦ potential_of_evaluate_dice⟩

/-- A die with six sides. -/
theorem potential_of_roll_sixSides :
    let t : Table Script := ⟨.ofFaces [4], .empty, .empty⟩
    ∃ die u, ((prefixed .die (literal (.ofNat 6))).evaluate ⟨10, .empty⟩ 0 []).run.run t
        = (.ok (.number die), u) ∧ die.potential.IsNat 6 ∧
          Chance.RollsDie 6 t.chance die u.chance := by
  intro t
  have hsix : (Binary64.ofNat 6).IsNat 6 := Binary64.isNat_ofNat (by decide)
  have hlimit : 1 ≤ (⟨10, .empty⟩ : Rules).limit := by decide
  have hsize : ((literal (.ofNat 6)).evaluate ⟨10, .empty⟩ 0 []).run.run t
      = (.ok (.number (.ofNat 6)), t) := by
    rw [evaluate_literal]
    rfl
  have hsides : Dice.sides (.ofNat 6) = .ok 6 :=
    Dice.sides_of_isNat hsix (by decide) (by decide)
  have hshown : (Binary64.ofNat 4).IsNat 4 := Binary64.isNat_ofNat (by decide)
  obtain ⟨u, hrun, -⟩ := exists_evaluate_die hlimit hsize hsides hshown.isFinite_eq
  obtain ⟨w, t', die, hw, hdie, hpotential, sides, hhas, hrolls⟩ :=
    (potential_of_roll _ _ _ _ _).1 _ _ hrun
  obtain ⟨⟨⟩, rfl⟩ := Prod.mk.inj (hsize.symm.trans hw)
  change die.potential = Dice.potentialOf (.ofNat 6) at hpotential
  change Dice.HasSides (.ofNat 6) sides at hhas
  have hlt : (Binary64.ofNat 6).lt (.ofNat UInt64.size) = true :=
    (hsix.lt_eq Binary64.isNat_ofNat_size).trans (by decide)
  obtain rfl := (hhas.isNat_floor_iff.mpr hlt).unique hsix.floor
  rw [hdie] at hrun
  refine ⟨die, u, hrun, ?_, hrolls⟩
  rw [hpotential, Dice.potentialOf, hsix.le_eq Binary64.isNat_ofNat_size, if_pos (by decide)]
  exact hsix.floor

/-- A die with `10²⁰` sides is one with `2⁶⁴`. -/
theorem potential_of_roll_beyondWords :
    let size : Number := .ofNat 100000000000000000000
    let t : Table Script := ⟨.ofFaces [3], .empty, .empty⟩
    ∃ die u, ((prefixed .die (literal size)).evaluate ⟨10, .empty⟩ 0 []).run.run t
        = (.ok (.number die), u) ∧ die.potential = .ofNat UInt64.size ∧
          die.potential ≠ size.value.floor := by
  intro size t
  have hlimit : 1 ≤ (⟨10, .empty⟩ : Rules).limit := by decide
  have hsize : ((literal size).evaluate ⟨10, .empty⟩ 0 []).run.run t = (.ok (.number size), t) := by
    rw [evaluate_literal]
    rfl
  have hsides : Dice.sides size.value = .ok Count.largest := by
    rw [Dice.sides, if_pos (by decide +kernel)]
    decide +kernel
  obtain ⟨u, hrun, -⟩ := exists_evaluate_die hlimit hsize hsides (by decide +kernel)
  exact ⟨_, u, hrun, by decide +kernel, by decide +kernel⟩

end Expression

end DiceNotation
