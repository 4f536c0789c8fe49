import DiceNotation.Number

/-!
# Chance

Sources of random choices, and the random acts of the notation as computations on a source:
rolling dice, drawing from a pool, and shuffling.

A source answers how far along a range the next choice lies. That the answer is inside the range
is not part of the interface, so an act that looks an item up by the answer has no result when it
is not; a source that keeps to its ranges never lets that happen.
-/

namespace DiceNotation

/-! ## Shuffling by exchanges

The exchanges are told apart from the source that chooses the places, and look at no item: items of
any type are exchanged alike. -/

/-- Exchanges the items at `last`, `last - 1`, … `1`, in this order, with the item at a place up
to their own, which is chosen by `choose` from a range of that many places. -/
def exchangeDown {ρ α : Type} (choose : Nat → StateM ρ Nat) :
    (last : Nat) → Array α → StateM ρ (Array α)
  | 0, items => pure items
  | last + 1, items => do
    let place ← choose (last + 2)
    exchangeDown choose last (items.swapIfInBounds (last + 1) place)

/-- Puts items into random order by exchanging them. -/
def exchangeAll {ρ α : Type} (choose : Nat → StateM ρ Nat) (items : List α) :
    StateM ρ (List α) := do
  let items ← exchangeDown choose (items.length - 1) items.toArray
  return items.toList

theorem swapIfInBounds_map {α β : Type} (f : α → β) (items : Array α) (i j : Nat) :
    (items.map f).swapIfInBounds i j = (items.swapIfInBounds i j).map f := by
  simp only [Array.swapIfInBounds, Array.size_map]
  split
  · split
    · refine Array.ext (by simp) fun k hk hk' ↦ ?_
      simp [Array.getElem_swap, apply_ite f]
    · rfl
  · rfl

theorem exchangeDown_map {ρ α β : Type} (choose : Nat → StateM ρ Nat) (f : α → β) (last : Nat)
    (items : Array α) :
    exchangeDown choose last (items.map f) = Array.map f <$> exchangeDown choose last items := by
  induction last generalizing items with
  | zero => rw [exchangeDown, exchangeDown, map_pure]
  | succ last ih =>
    rw [exchangeDown, exchangeDown, map_bind]
    refine bind_congr fun place ↦ ?_
    rw [← ih, swapIfInBounds_map]

theorem exchangeAll_map {ρ α β : Type} (choose : Nat → StateM ρ Nat) (f : α → β)
    (items : List α) :
    exchangeAll choose (items.map f) = List.map f <$> exchangeAll choose items := by
  rw [exchangeAll, exchangeAll, List.length_map, ← List.map_toArray, exchangeDown_map]
  simp

/-- A source of random choices. It shuffles items of any type, and can therefore not look at
them. -/
class Chance (ρ : Type) where
  /-- A whole number below the bound, which is never zero. -/
  below : (bound : Nat) → StateM ρ Nat
  /-- A number from zero up to one, without one itself. -/
  fraction : StateM ρ Binary64
  /-- Puts items into random order. -/
  shuffle {α : Type} (items : List α) : StateM ρ (List α) := exchangeAll below items
  /-- Whatever the items are, they come into the same order. -/
  shuffle_map {α β : Type} (f : α → β) (items : List α) :
    shuffle (items.map f) = List.map f <$> shuffle items := by
      intro _ _ f items
      exact exchangeAll_map _ f items

namespace Chance

variable {ρ : Type} [Chance ρ]

/-! ## Rolling -/

/-- Rolls a die. One that has a single side shows a fraction instead of a face. -/
def rollDie (sides : Nat) : StateM ρ Number :=
  if sides ≤ 1 then do
    let x ← fraction
    return ⟨x, 1⟩
  else do
    let face ← below sides
    return ⟨.ofNat (face + 1), .ofNat sides⟩

/-- Rolls a die `count` times. -/
def rollDice (sides : Nat) : (count : Nat) → StateM ρ (List Number)
  | 0 => pure []
  | count + 1 => do
    let die ← rollDie sides
    let dice ← rollDice sides count
    return die :: dice

/-- Rolls a die until a roll is met, but at most `limit` times: the rolls before that one, and
the one that is met. -/
def rollUntil (sides : Nat) (met : Number → Bool) :
    (limit : Nat) → StateM ρ (List Number × Option Number)
  | 0 => pure ([], none)
  | limit + 1 => do
    let die ← rollDie sides
    if met die then return ([], some die)
    else
      let (dice, last) ← rollUntil sides met limit
      return (die :: dice, last)

/-! ## Drawing

An item is drawn by its place in the pool. What is drawn from an empty pool, or by an answer beyond
its end, comes to nothing. -/

/-- The place of a random item of the pool. -/
def place? {α : Type} (pool : List α) : StateM ρ (Option (Fin pool.length)) :=
  if pool.isEmpty then pure none
  else do
    let i ← below pool.length
    return if h : i < pool.length then some ⟨i, h⟩ else none

/-- Draws an item, which stays in the pool. -/
def draw? {α : Type} (pool : List α) : StateM ρ (Option α) := do
  let place ← place? pool
  return place.map pool.get

/-- Draws `count` items, each of which stays in the pool. -/
def drawReplacing? {α : Type} (pool : List α) : (count : Nat) → StateM ρ (Option (List α))
  | 0 => pure (some [])
  | count + 1 => do
    match ← draw? pool with
    | none => return none
    | some item =>
      let items ← drawReplacing? pool count
      return items.map (item :: ·)

/-- Draws `count` items out of the pool: the items, and what is left. -/
def drawOut? {α : Type} : (count : Nat) → List α → StateM ρ (Option (List α × List α))
  | 0, pool => pure (some ([], pool))
  | count + 1, pool => do
    match ← place? pool with
    | none => return none
    | some i =>
      let drawn ← drawOut? count (pool.eraseIdx i)
      return drawn.map fun (items, left) ↦ (pool.get i :: items, left)

/-- Shuffles the pool `passes` times, one pass behind the other. -/
def passes {α : Type} (pool : List α) : (count : Nat) → StateM ρ (List α)
  | 0 => pure []
  | count + 1 => do
    let pass ← shuffle pool
    let rest ← passes pool count
    return pass ++ rest

/-- Draws `count` items without putting any back, from as many copies of the pool as it takes,
each used up before the next. The last copy is the one that items are left of; the others are
used up whole and in random order. -/
def pick? {α : Type} (pool : List α) (count : Nat) : StateM ρ (Option (List α × List α)) := do
  let whole := (count - 1) / pool.length
  let first ← passes pool whole
  let drawn ← drawOut? (count - whole * pool.length) pool
  return drawn.map fun (items, left) ↦ (first ++ items, left)

end Chance

end DiceNotation
