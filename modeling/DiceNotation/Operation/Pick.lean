import DiceNotation.Play

/-!
# Picking from lists

One item, several items with each put back, or several items without. Without putting back, a
list that is too short for the count is used up whole as often as it takes, and what is left of
it in the end is kept in a variable.
-/

namespace DiceNotation.Pick

variable {ρ : Type} [Chance ρ]

/-- The number of items to pick. -/
def count (limit : Nat) (x : Binary64) : Play ρ Nat :=
  if !Binary64.le 0 x.floor then Play.misuse .negativePick
  else if (Binary64.ofNat limit).lt x.floor then throw (.limitExceeded limit)
  else pure (x.floor.toNat Count.largest)

/-- Refuses to pick items from an empty list. -/
def requireItems (pool : List Value) (count : Nat) : Play ρ Unit :=
  if 0 < count ∧ pool.isEmpty then Play.misuse .emptyPool else pure ()

omit [Chance ρ] in
theorem isCheck_count (limit : Nat) (x : Binary64) :
    Play.IsCheck (count limit x : Play ρ Nat) := by
  unfold count
  split
  · exact .misuse _
  · split
    · exact .throw _
    · exact .pure _

omit [Chance ρ] in
theorem isCheck_requireItems (pool : List Value) (count : Nat) :
    Play.IsCheck (requireItems pool count : Play ρ Unit) := by
  unfold requireItems
  split
  · exact .misuse _
  · exact .pure ()

/-- The variable that keeps what is left of a list. -/
def leftName : String := "_p"

/-- Picks one item. -/
def one (limit : Nat) (pool : Play ρ Value) : Play ρ Value := do
  let pool := (← pool).items
  Play.requireChoice limit
  requireItems pool 1
  Play.random? (Chance.draw? pool)

/-- Picks several items without putting any back. -/
def several (limit : Nat) (number pool : Play ρ Value) : Play ρ Value := do
  let number ← number
  let pool := (← pool).items
  let count ← count limit number.total.value
  requireItems pool count
  let (picked, left) ← Play.random? (Chance.pick? pool count)
  Play.setVariable leftName (.list left)
  return .list picked

/-- Picks several items, putting each one back. -/
def replacing (limit : Nat) (number pool : Play ρ Value) : Play ρ Value := do
  let number ← number
  let pool := (← pool).items
  let count ← count limit number.total.value
  requireItems pool count
  let picked ← Play.random? (Chance.drawReplacing? pool count)
  return .list picked

end DiceNotation.Pick
