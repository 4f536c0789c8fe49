import DiceNotation.Chance.Script
import DiceNotation.Proofs.Cutoffs
import DiceNotation.Proofs.SingleOperations

/-!
# Rolling until a number is met

A die that is rolled until it meets a number is rolled as any die that is rolled again and again. So
the rolls are known from the source alone (`Chance.rolls`), and the operation only decides how many
of them there are: if one within the limit meets the number, those up to the first that does, which
is kept apart, and otherwise as many as the limit allows.

The source is the one that the operands have left, which are evaluated before the first roll
(`Expression.PreparesRoll`). A die on the left is not rolled itself; what is evaluated is its size.

One die and several dice are rolled in the same way, only without a number to meet
(`Dice.run_rollOne_eq_ok_iff`, `Dice.run_roll_eq_ok_iff`).
-/

namespace DiceNotation

variable {ρ : Type} [Chance ρ]

/-! ## Rolls

Some roll is the first one that meets a condition, unless none does. Rolling goes on behind a roll
that does not meet it, which is kept, and ends with one that does; if none does, as many dice are
rolled as the limit allows. -/

namespace Chance

/-- The source after a die has been rolled so many times. -/
def afterRolls (sides : Nat) : (count : Nat) → ρ → ρ
  | 0, c => c
  | count + 1, c => afterRolls sides count ((rollDie sides).run c).2

/-- What a die shows that is rolled after so many rolls. -/
def rollAfter (sides : Nat) (c : ρ) (count : Nat) : Number :=
  ((rollDie sides).run (afterRolls sides count c)).1

/-- What a die shows that is rolled so many times. -/
def rolls (sides : Nat) (c : ρ) (count : Nat) : List Number :=
  (List.range count).map (rollAfter sides c)

/-- None of so many rolls meets a condition. -/
def NeverMet (sides : Nat) (met : Number → Bool) (c : ρ) (count : Nat) : Prop :=
  ∀ i < count, met (rollAfter sides c i) = false

instance (sides : Nat) (met : Number → Bool) (c : ρ) (count : Nat) :
    Decidable (NeverMet sides met c count) :=
  inferInstanceAs (Decidable (∀ i < count, met (rollAfter sides c i) = false))

/-- The roll after so many rolls is the first one that meets a condition. -/
structure FirstMet (sides : Nat) (met : Number → Bool) (c : ρ) (count : Nat) : Prop where
  meets : met (rollAfter sides c count) = true
  misses : NeverMet sides met c count

variable {sides count limit : Nat} {met : Number → Bool} {c : ρ}

theorem rolls_succ : rolls sides c (count + 1)
    = ((rollDie sides).run c).1 :: rolls sides ((rollDie sides).run c).2 count := by
  rw [rolls, rolls, List.range_succ_eq_map, List.map_cons, List.map_map]
  rfl

theorem run_rollDice (sides count : Nat) (c : ρ) :
    (rollDice sides count).run c = (rolls sides c count, afterRolls sides count c) := by
  induction count generalizing c with
  | zero => rfl
  | succ count ih =>
    rw [rollDice, StateT.run_bind, rolls_succ, afterRolls]
    change ((rollDice sides count >>= fun dice ↦ pure (_ :: dice)) : StateM ρ _).run _ = _
    rw [StateT.run_bind, ih]
    rfl

theorem exists_firstMet_or_neverMet (sides : Nat) (met : Number → Bool) (c : ρ) (limit : Nat) :
    (∃ count < limit, FirstMet sides met c count) ∨ NeverMet sides met c limit := by
  induction limit with
  | zero => exact Or.inr fun i hi ↦ absurd hi (Nat.not_lt_zero i)
  | succ limit ih =>
    obtain ⟨count, hcount, hfirst⟩ | hnever := ih
    · exact Or.inl ⟨count, Nat.lt_succ_of_lt hcount, hfirst⟩
    · rcases hlast : met (rollAfter sides c limit)
      · refine Or.inr fun i hi ↦ ?_
        obtain hi | rfl := Nat.lt_succ_iff_lt_or_eq.mp hi
        · exact hnever i hi
        · exact hlast
      · exact Or.inl ⟨limit, Nat.lt_succ_self limit, hlast, hnever⟩

theorem run_rollUntil_of_met (h : met (rollAfter sides c 0) = true) :
    (rollUntil sides met (limit + 1)).run c =
      (([], some (rollAfter sides c 0)), afterRolls sides 1 c) := by
  have h' : met ((rollDie sides).run c).1 = true := h
  rw [rollUntil, StateT.run_bind]
  change (if met ((rollDie sides).run c).1 then _ else _ : StateM ρ _).run _ = _
  rw [if_pos h']
  rfl

theorem run_rollUntil_of_missed (h : met (rollAfter sides c 0) = false) {dice : List Number}
    {last : Option Number} {c' : ρ}
    (hrun : (rollUntil sides met limit).run (afterRolls sides 1 c) = ((dice, last), c')) :
    (rollUntil sides met (limit + 1)).run c = ((rollAfter sides c 0 :: dice, last), c') := by
  have h' : ¬met ((rollDie sides).run c).1 = true := by
    rw [Bool.not_eq_true]
    exact h
  have hrun' : (rollUntil sides met limit).run ((rollDie sides).run c).2 = ((dice, last), c') :=
    hrun
  rw [rollUntil, StateT.run_bind]
  change (if met ((rollDie sides).run c).1 then _ else _ : StateM ρ _).run _ = _
  rw [if_neg h', StateT.run_bind, hrun']
  rfl

/-- **The rolls end with the first one that meets the condition**, if the limit allows so many. -/
theorem run_rollUntil_of_firstMet (h : FirstMet sides met c count) (hcount : count < limit) :
    (rollUntil sides met limit).run c =
      ((rolls sides c count, some (rollAfter sides c count)), afterRolls sides (count + 1) c) := by
  induction count generalizing c limit with
  | zero =>
    obtain ⟨limit, rfl⟩ := Nat.exists_eq_succ_of_ne_zero (Nat.ne_of_gt hcount)
    exact run_rollUntil_of_met h.meets
  | succ count ih =>
    obtain ⟨limit, rfl⟩ := Nat.exists_eq_succ_of_ne_zero (Nat.ne_zero_of_lt hcount)
    have hrest : FirstMet sides met ((rollDie sides).run c).2 count :=
      ⟨h.meets, fun i hi ↦ h.misses (i + 1) (Nat.succ_lt_succ hi)⟩
    have hrun := ih hrest (Nat.lt_of_succ_lt_succ hcount)
    rw [rolls_succ]
    exact run_rollUntil_of_missed (h.misses 0 (Nat.succ_pos count)) hrun

/-- **As many dice are rolled as the limit allows** if none of them meets the condition. -/
theorem run_rollUntil_of_neverMet (h : NeverMet sides met c limit) :
    (rollUntil sides met limit).run c =
      ((rolls sides c limit, none), afterRolls sides limit c) := by
  induction limit generalizing c with
  | zero => rfl
  | succ limit ih =>
    have hrest : NeverMet sides met ((rollDie sides).run c).2 limit :=
      fun i hi ↦ h (i + 1) (Nat.succ_lt_succ hi)
    rw [rolls_succ]
    exact run_rollUntil_of_missed (h 0 (Nat.succ_pos limit)) (ih hrest)

end Chance

/-! ## The operation

The operands are evaluated one after the other, and checked, before the first die is rolled. What
comes out of the rolls is the value, and the last die is kept. -/

/-- Whether a die shows a number that stands in the relation to the cutoff. -/
abbrev Dice.meets (cmp : Comparison) (cutoff : Binary64) (die : Number) : Bool :=
  cmp.holds die.value cutoff

/-- The expression gives the size of the die that is rolled until it meets a number: it is the
operand of the die on the left, or the left operand itself if that is not a die. -/
def Expression.Sizes (size left : Expression) : Prop :=
  left = .prefixed .die size ∨ (∀ operand, left ≠ .prefixed .die operand) ∧ size = left

theorem Expression.sizes_iff (cmp : Comparison) {size left : Expression} :
    size.Sizes left ↔ size = (BinaryOp.rollUntil cmp).leftOperand left := by
  unfold BinaryOp.leftOperand
  split
  · next operand heq =>
    cases heq
    constructor
    · rintro (heq | ⟨hne, -⟩)
      · cases heq
        rfl
      · exact absurd rfl (hne _)
    · rintro rfl
      exact Or.inl rfl
  · next hne =>
    constructor
    · rintro (rfl | ⟨-, rfl⟩)
      · exact absurd rfl (hne cmp size rfl)
      · rfl
    · rintro rfl
      exact Or.inr ⟨fun operand heq ↦ hne cmp operand rfl heq, rfl⟩

/-- A die of so many sides may be rolled until it meets this cutoff: the operands have been
evaluated one after the other, and passed the checks. The variable that keeps the last die has been
cleared before. -/
inductive Expression.PreparesRoll (rules : Rules) (depth : Nat) (frames : List (List Expression))
    (left : Expression) (cmp : Comparison) (right : Expression) (t : Table ρ) :
    (sides : Nat) → (cutoff : Binary64) → (u : Table ρ) → Prop
  | intro {size : Expression} {v w : Value} {t' u : Table ρ} {sides : Nat} {cutoff : Binary64}
      (names : size.Sizes left)
      (size_ok : (size.evaluate rules depth frames).run.run
        { t with locals := t.locals.erase Dice.lastName } = (.ok v, t'))
      (sides_ok : Dice.sides v.total.value = .ok sides)
      (bound_ok : (right.evaluate rules depth frames).run.run t' = (.ok w, u))
      (cutoff_ok : Dice.cutoff cmp sides w.total.value = .ok cutoff) :
      PreparesRoll rules depth frames left cmp right t sides cutoff u

namespace Dice

/-- The variables after a roll that has ended with this die, if with any. -/
def keep (locals : Bindings Expression) : Option Number → Bindings Expression
  | some die => locals.insert lastName (.literal die)
  | none => locals

variable {limit sides : Nat} {cmp : Comparison} {size bound : Play ρ Value} {t u : Table ρ}

omit [Chance ρ] in
theorem run_sidesOf_eq_ok_iff {v : Value} :
    (sidesOf v : Play ρ Nat).run.run t = (.ok sides, u) ↔
      Dice.sides v.total.value = .ok sides ∧ t = u := by
  unfold sidesOf
  split
  · next n hn =>
    rw [hn, Except.ok.injEq]
    exact Play.run_pure_eq_ok_iff
  · next m hm =>
    rw [hm]
    exact iff_of_false nofun nofun

/-! ### Rolling without a number to meet -/

theorem run_rollOne_eq_ok_iff {value : Value} :
    (rollOne limit size).run.run t = (.ok value, u) ↔
      1 ≤ limit ∧ ∃ v t' sides, size.run.run t = (.ok v, t') ∧
        Dice.sides v.total.value = .ok sides ∧
        value = .number ((Chance.rollDie sides).run t'.chance).1 ∧
        u = { t' with chance := ((Chance.rollDie sides).run t'.chance).2 } := by
  constructor
  · intro h
    rw [rollOne, Play.run_bind_eq_ok_iff] at h
    obtain ⟨v, t', hsize, h⟩ := h
    obtain ⟨sides, _, hsidesOf, h⟩ := Play.run_bind_eq_ok_iff.mp h
    obtain ⟨hsides, rfl⟩ := run_sidesOf_eq_ok_iff.mp hsidesOf
    obtain ⟨_, _, hchoice, h⟩ := Play.run_bind_eq_ok_iff.mp h
    obtain ⟨hlimit, rfl⟩ := Play.run_requireChoice_eq_ok_iff.mp hchoice
    rw [Play.run_bind_of_ok (Play.run_random _ _), Play.run_pure_eq_ok_iff] at h
    exact ⟨hlimit, v, t', sides, hsize, hsides, h.1.symm, h.2.symm⟩
  · rintro ⟨hlimit, v, t', sides, hsize, hsides, rfl, rfl⟩
    rw [rollOne, Play.run_bind_of_ok hsize,
      Play.run_bind_of_ok (run_sidesOf_eq_ok_iff.mpr ⟨hsides, rfl⟩),
      Play.run_bind_of_ok (Play.run_requireChoice_eq_ok_iff.mpr ⟨hlimit, rfl⟩),
      Play.run_bind_of_ok (Play.run_random _ _)]
    rfl

theorem run_roll_eq_ok_iff {count : Play ρ Value} {value : Value} :
    (roll limit count size).run.run t = (.ok value, u) ↔
      ∃ v t₁ w t₂ sides, count.run.run t = (.ok v, t₁) ∧ size.run.run t₁ = (.ok w, t₂) ∧
        Binary64.le 1 v.total.value.floor = true ∧
        (Binary64.ofNat limit).lt v.total.value.floor = false ∧
        Dice.sides w.total.value = .ok sides ∧
        value = .list ((Chance.rolls sides t₂.chance
          (v.total.value.floor.toNat Count.largest)).map .number) ∧
        u = { t₂ with
          chance := Chance.afterRolls sides (v.total.value.floor.toNat Count.largest)
            t₂.chance } := by
  constructor
  · intro h
    rw [roll, Play.run_bind_eq_ok_iff] at h
    obtain ⟨v, t₁, hcount, h⟩ := h
    obtain ⟨w, t₂, hsize, h⟩ := Play.run_bind_eq_ok_iff.mp h
    dsimp only at h
    split at h
    · cases h
    · next hsome =>
      split at h
      · cases h
      · next hlimit =>
        obtain ⟨sides, _, hsidesOf, h⟩ := Play.run_bind_eq_ok_iff.mp h
        obtain ⟨hsides, rfl⟩ := run_sidesOf_eq_ok_iff.mp hsidesOf
        rw [Play.run_bind_of_ok (Play.run_random _ _), Play.run_pure_eq_ok_iff,
          Chance.run_rollDice] at h
        exact ⟨v, t₁, w, _, sides, hcount, hsize, by simpa using hsome, by simpa using hlimit,
          hsides, h.1.symm, h.2.symm⟩
  · rintro ⟨v, t₁, w, t₂, sides, hcount, hsize, hsome, hlimit, hsides, rfl, rfl⟩
    rw [roll, Play.run_bind_of_ok hcount, Play.run_bind_of_ok hsize]
    dsimp only
    rw [hsome, if_neg (by decide), hlimit, if_neg (by decide),
      Play.run_bind_of_ok (run_sidesOf_eq_ok_iff.mpr ⟨hsides, rfl⟩),
      Play.run_bind_of_ok (Play.run_random _ _), Chance.run_rollDice]
    rfl

/-! ### Rolling until a number is met -/

theorem run_rollUntil {v w : Value} {t' : Table ρ} {cutoff : Binary64} {dice : List Number}
    {last : Option Number} {c : ρ} (hlimit : 1 ≤ limit)
    (hsize : size.run.run { t with locals := t.locals.erase lastName } = (.ok v, t'))
    (hsides : Dice.sides v.total.value = .ok sides) (hbound : bound.run.run t' = (.ok w, u))
    (hcutoff : Dice.cutoff cmp sides w.total.value = .ok cutoff)
    (hrolls : (Chance.rollUntil sides (meets cmp cutoff) limit).run u.chance = ((dice, last), c)) :
    (rollUntil limit cmp size bound).run.run t =
      (.ok (.list (dice.map .number)), { u with chance := c, locals := keep u.locals last }) := by
  rw [rollUntil, Play.run_bind_of_ok (Play.run_clearVariable _ _), Play.run_bind_of_ok hsize,
    Play.run_bind_of_ok (run_sidesOf_eq_ok_iff.mpr ⟨hsides, rfl⟩), Play.run_bind_of_ok hbound,
    Play.run_bind_of_ok (Play.run_liftExcept_eq_ok_iff.mpr ⟨hcutoff, rfl⟩),
    Play.run_bind_of_ok (Play.run_requireChoice_eq_ok_iff.mpr ⟨hlimit, rfl⟩),
    Play.run_bind_of_ok (Play.run_random _ _), hrolls]
  rcases last with _ | die
  · rfl
  · rfl

theorem exists_of_run_rollUntil {value : Value}
    (h : (rollUntil limit cmp size bound).run.run t = (.ok value, u)) :
    1 ≤ limit ∧ ∃ v t' sides w u' cutoff,
      size.run.run { t with locals := t.locals.erase lastName } = (.ok v, t') ∧
        Dice.sides v.total.value = .ok sides ∧ bound.run.run t' = (.ok w, u') ∧
        Dice.cutoff cmp sides w.total.value = .ok cutoff := by
  rw [rollUntil, Play.run_bind_of_ok (Play.run_clearVariable _ _), Play.run_bind_eq_ok_iff] at h
  obtain ⟨v, t', hsize, h⟩ := h
  obtain ⟨sides, _, hsidesOf, h⟩ := Play.run_bind_eq_ok_iff.mp h
  obtain ⟨hsides, rfl⟩ := run_sidesOf_eq_ok_iff.mp hsidesOf
  obtain ⟨w, u', hbound, h⟩ := Play.run_bind_eq_ok_iff.mp h
  obtain ⟨cutoff, _, hlifted, h⟩ := Play.run_bind_eq_ok_iff.mp h
  obtain ⟨hcutoff, rfl⟩ := Play.run_liftExcept_eq_ok_iff.mp hlifted
  obtain ⟨_, _, hlimit, -⟩ := Play.run_bind_eq_ok_iff.mp h
  exact ⟨(Play.run_requireChoice_eq_ok_iff.mp hlimit).1, v, t', sides, w, u', cutoff, hsize, hsides,
    hbound, hcutoff⟩

end Dice

namespace Expression

variable {rules : Rules} {depth : Nat} {frames : List (List Expression)} {left right : Expression}
  {cmp : Comparison} {t u : Table ρ} {sides : Nat} {cutoff : Binary64}

theorem exists_evaluate_die {v : Value} {t' : Table ρ} (hlimit : 1 ≤ rules.limit)
    (hsize : (right.evaluate rules depth frames).run.run t = (.ok v, t'))
    (hsides : Dice.sides v.total.value = .ok sides)
    (hfinite : ((Chance.rollDie sides).run t'.chance).1.value.isFinite = true) :
    ∃ u, ((prefixed .die right).evaluate rules depth frames).run.run t =
        (.ok (.number ((Chance.rollDie sides).run t'.chance).1), u) ∧
      u.chance = ((Chance.rollDie sides).run t'.chance).2 ∧ u.locals = t'.locals := by
  have hrolled := Dice.run_rollOne_eq_ok_iff.mpr ⟨hlimit, v, t', sides, hsize, hsides, rfl, rfl⟩
  have happlied : (PrefixOp.die.apply rules.limit (right.evaluate rules depth frames)).run.run t
      = _ := hrolled
  obtain ⟨trace, hrun⟩ := Play.run_bind_conclude happlied hfinite PrefixOp.die.priority
    (code (prefixed .die right))
  rw [evaluate_prefixed]
  exact ⟨_, hrun, rfl, rfl⟩

theorem PreparesRoll.performs (h : PreparesRoll rules depth frames left cmp right t sides cutoff u)
    (hlimit : 1 ≤ rules.limit) {dice : List Number} {last : Option Number} {c : ρ}
    (hrolls : (Chance.rollUntil sides (Dice.meets cmp cutoff) rules.limit).run u.chance
      = ((dice, last), c)) :
    Performs rules depth frames left (.rollUntil cmp) right t (.list (dice.map .number))
      { u with chance := c, locals := Dice.keep u.locals last } := by
  obtain ⟨hnames, hsize, hsides, hbound, hcutoff⟩ := h
  rw [sizes_iff cmp] at hnames
  subst hnames
  exact .of_applied (Dice.run_rollUntil hlimit hsize hsides hbound hcutoff hrolls)

/-- The die that ended the rolls, if any did, is all that an operation changes in the variables its
operands have left. -/
theorem PreparesRoll.locals_of_performs {v : Value} {w : Table ρ}
    (h : PreparesRoll rules depth frames left cmp right t sides cutoff u)
    (hlimit : 1 ≤ rules.limit) (hw : Performs rules depth frames left (.rollUntil cmp) right t v w)
    {dice : List Number} {last : Option Number} {c : ρ}
    (hrolls : (Chance.rollUntil sides (Dice.meets cmp cutoff) rules.limit).run u.chance
      = ((dice, last), c)) : w.locals = Dice.keep u.locals last := by
  obtain ⟨-, rfl⟩ := hw.unique (h.performs hlimit hrolls)
  rfl

theorem PreparesRoll.of_performs {v : Value}
    (h : Performs rules depth frames left (.rollUntil cmp) right t v u) :
    1 ≤ rules.limit ∧ ∃ sides cutoff u', PreparesRoll rules depth frames left cmp right t sides
      cutoff u' := by
  obtain ⟨hlimit, _, _, sides, _, u', cutoff, hsize, hsides, hbound, hcutoff⟩ :=
    Dice.exists_of_run_rollUntil h.applied
  exact ⟨hlimit, sides, cutoff, u', (sizes_iff cmp).mpr rfl, hsize, hsides, hbound, hcutoff⟩

/-- **What rolling until a number is met comes to.** If a roll within the limit is the first to meet
the cutoff, the value is the list of the rolls before it, the roll itself is kept in a variable, and
no more dice are rolled. If there is none, the value is the list of as many rolls as the limit
allows, and the variables are as the operands have left them. -/
theorem performs_rollUntil (hlimit : 1 ≤ rules.limit)
    (h : PreparesRoll rules depth frames left cmp right t sides cutoff u) :
    (∀ count < rules.limit, Chance.FirstMet sides (Dice.meets cmp cutoff) u.chance count →
        Performs rules depth frames left (.rollUntil cmp) right t
          (.list ((Chance.rolls sides u.chance count).map .number))
          { u with
            chance := Chance.afterRolls sides (count + 1) u.chance
            locals := u.locals.insert Dice.lastName
              (.literal (Chance.rollAfter sides u.chance count)) }) ∧
      (Chance.NeverMet sides (Dice.meets cmp cutoff) u.chance rules.limit →
        Performs rules depth frames left (.rollUntil cmp) right t
          (.list ((Chance.rolls sides u.chance rules.limit).map .number))
          { u with chance := Chance.afterRolls sides rules.limit u.chance }) :=
  ⟨fun _ hcount hfirst ↦ h.performs hlimit (Chance.run_rollUntil_of_firstMet hfirst hcount),
    fun hnever ↦ h.performs hlimit (Chance.run_rollUntil_of_neverMet hnever)⟩

/-- A die with six sides is rolled until it shows less than three: after five and four, it shows
two. -/
theorem performs_rollUntil_lessThanThree :
    let die : Expression := .prefixed .die (.literal (.ofNat 6))
    let three : Expression := .literal (.ofNat 3)
    let t : Table Script := ⟨.ofFaces [5, 4, 2, 6], .empty, .empty⟩
    1 ≤ 10 ∧ PreparesRoll ⟨10, .empty⟩ 0 [] die .less three t 6 (.ofNat 3) t ∧
      Performs ⟨10, .empty⟩ 0 [] die (.rollUntil .less) three t
        (.list [.number ⟨.ofNat 5, .ofNat 6⟩, .number ⟨.ofNat 4, .ofNat 6⟩])
        { t with
          chance := ⟨#[5, 4, 2, 6], 3⟩
          locals := t.locals.insert Dice.lastName (.literal ⟨.ofNat 2, .ofNat 6⟩) } := by
  intro die three t
  have hsize : ((literal (.ofNat 6)).evaluate ⟨10, .empty⟩ 0 []).run.run t
      = (.ok (.number (.ofNat 6)), t) := by
    rw [evaluate_literal]
    rfl
  have hbound : (three.evaluate ⟨10, .empty⟩ 0 []).run.run t = (.ok (.number (.ofNat 3)), t) := by
    rw [evaluate_literal]
    rfl
  have hsides : Dice.sides (.ofNat 6) = .ok 6 :=
    Dice.sides_of_isNat (Binary64.isNat_ofNat (by decide)) (by decide) (by decide)
  have hcutoff : Dice.cutoff .less 6 (.ofNat 3) = .ok (.ofNat 3) :=
    (Dice.cutoff_eq_ok_iff_ofFaces? (by decide) (by decide +kernel)).mpr (by decide +kernel)
  have hprepares : PreparesRoll ⟨10, .empty⟩ 0 [] die .less three t 6 (.ofNat 3) t :=
    ⟨Or.inl rfl, hsize, hsides, hbound, hcutoff⟩
  have hfirst : Chance.FirstMet 6 (Dice.meets .less (.ofNat 3)) t.chance 2 :=
    ⟨by decide +kernel, by decide +kernel⟩
  exact ⟨by decide, hprepares, (performs_rollUntil (by decide) hprepares).1 2 (by decide) hfirst⟩

end Expression

end DiceNotation
