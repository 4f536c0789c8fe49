import DiceNotation.Chance

/-!
# Pseudorandom chance

A source whose state is a single word. Each step adds an odd constant to the word and mixes its
bits, so that the states run through all words. Two words together are taken modulo a bound,
which leaves no bias that could be seen; the upper 52 bits of one make a fraction.
-/

namespace DiceNotation

/-- The state of the generator. -/
structure Generator where
  state : UInt64

namespace Generator

/-- The next word. -/
def next : StateM Generator UInt64 := fun g ↦
  let z := g.state + 0x9e3779b97f4a7c15
  let x := (z ^^^ (z >>> 30)) * 0xbf58476d1ce4e5b9
  let x := (x ^^^ (x >>> 27)) * 0x94d049bb133111eb
  (x ^^^ (x >>> 31), ⟨z⟩)

instance : Chance Generator where
  below bound := do
    let high ← next
    let low ← next
    return (high.toNat * UInt64.size + low.toNat) % bound
  fraction := do
    let word ← next
    return .ofNat (word >>> 12).toNat * .epsilon

end Generator

end DiceNotation
