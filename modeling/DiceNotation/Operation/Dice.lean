import DiceNotation.Play

/-!
# Rolling dice

One die, several dice of one size, and a die that is rolled until it meets a number. The number
to meet, the *cutoff*, has to be one that some faces of the die meet and others do not: a roll
that could only end at once, or never, is refused as pointless.
-/

namespace DiceNotation

namespace Dice

/-- The number of sides of the dice of a size. -/
def sides (size : Binary64) : Except Misuse Nat :=
  if Binary64.le 1 size.floor then .ok (size.floor.toNat Count.largest) else .error .noSides

/-! ## Cutoffs -/

namespace Cutoff

/-- The largest number below one, the upper end of what a die with a single side shows. -/
def belowOne : Binary64 := .ofBits (Binary64.toBits 1 - 1)

/-- The relative difference that is taken for equality when a fraction is looked for. -/
def tolerance : Binary64 := .epsilon

/-- The numerator of the first of the best rational approximations of `x` that equals it within
the tolerance. An approximation follows from the two before it, whose numerators and denominators
these are, and the whole part of what is left to approximate. -/
def numeratorFrom (x : Binary64) : (steps : Nat) → (num prevNum den prevDen rest : Binary64) →
    Binary64
  | 0, num, _, _, _, _ => num
  | steps + 1, num, prevNum, den, prevDen, rest =>
    let whole := rest.floor
    let nextNum := whole * num + prevNum
    let nextDen := whole * den + prevDen
    if (nextNum / nextDen - x).abs.le (tolerance * x.abs.max 1) then nextNum
    else
      let fraction := rest - whole
      if fraction == 0 then nextNum
      else numeratorFrom x steps nextNum num nextDen den (1 / fraction)

/-- The smallest whole number that is a multiple of `x`. -/
def wholeMultiple (x : Binary64) : Binary64 := numeratorFrom x 64 1 0 0 1 x

/-- Whether two faces stand in the same relation to the cutoff. -/
def agree (cmp : Comparison) (cutoff x y : Binary64) : Bool :=
  cmp.holds x cutoff == cmp.holds y cutoff

/-- Whether rolling a die with a single side until it meets the cutoff is pointless. -/
def pointlessFraction (cmp : Comparison) (cutoff : Binary64) : Bool :=
  if cmp.isModular || cutoff.isNegative || Binary64.le 1 cutoff then true
  else if cutoff == 0 then agree cmp cutoff 0 belowOne
  else false

/-- The cutoff that the faces of a die with several sides are compared with, if rolling it is not
pointless. A whole face is a multiple of a fraction exactly if it is one of the smallest whole
multiple of it. -/
def ofFaces? (cmp : Comparison) (sides : Nat) (cutoff : Binary64) : Option Binary64 :=
  let last := Binary64.ofNat sides
  if cutoff.lt 1 || last.lt cutoff then none
  else if cutoff == 1 || cutoff == last then
    if agree cmp cutoff 1 last then none else some cutoff
  else if cutoff.isWhole then some cutoff
  else if cmp.isModular then
    let multiple := wholeMultiple cutoff
    if last.lt multiple then none else some multiple
  else
    match cmp with
    | .equal | .notEqual => none
    | _ => some cutoff

end Cutoff

/-- The number that the rolls of a die are compared with. -/
def cutoff (cmp : Comparison) (sides : Nat) (x : Binary64) : Except RollError Binary64 :=
  if x.isNaN then .error .pointlessRoll
  else if sides = 1 then
    if Cutoff.pointlessFraction cmp x then .error .pointlessRoll else .ok x
  else
    match Cutoff.ofFaces? cmp sides x with
    | some x => .ok x
    | none => .error .pointlessRoll

/-! ## Rolls -/

variable {ρ : Type} [Chance ρ]

/-- The number of sides of the dice of a size, or the failure to have any. -/
def sidesOf (size : Value) : Play ρ Nat :=
  match sides size.total.value with
  | .ok n => pure n
  | .error m => Play.misuse m

omit [Chance ρ] in
theorem isCheck_sidesOf (size : Value) : Play.IsCheck (sidesOf size : Play ρ Nat) := by
  unfold sidesOf
  split
  · exact .pure _
  · exact .misuse _

/-- Rolls one die of the given size. -/
def rollOne (limit : Nat) (size : Play ρ Value) : Play ρ Value := do
  let sides ← sidesOf (← size)
  Play.requireChoice limit
  let die ← Play.random (Chance.rollDie sides)
  return .number die

/-- Rolls several dice of the given size. -/
def roll (limit : Nat) (count size : Play ρ Value) : Play ρ Value := do
  let count ← count
  let size ← size
  let count := count.total.value.floor
  if !Binary64.le 1 count then Play.misuse .noDice
  else if (Binary64.ofNat limit).lt count then throw (.limitExceeded limit)
  else
    let sides ← sidesOf size
    let dice ← Play.random (Chance.rollDice sides (count.toNat Count.largest))
    return .list (dice.map .number)

/-- The variable that keeps the die that ended a roll. -/
def lastName : String := "_u"

/-- Rolls a die of the given size until it meets the cutoff, which keeps the die that met it in a
variable. -/
def rollUntil (limit : Nat) (cmp : Comparison) (size bound : Play ρ Value) : Play ρ Value := do
  Play.clearVariable lastName
  let sides ← sidesOf (← size)
  let bound ← bound
  let cutoff ← liftExcept (cutoff cmp sides bound.total.value)
  Play.requireChoice limit
  let (dice, last) ←
    Play.random (Chance.rollUntil sides (fun die ↦ cmp.holds die.value cutoff) limit)
  match last with
  | some die => Play.setVariable lastName (.number die)
  | none => pure ()
  return .list (dice.map .number)

end Dice

end DiceNotation
