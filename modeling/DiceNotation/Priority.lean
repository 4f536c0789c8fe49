/-!
# Priorities

The classes of operators, by how tightly they bind. The level of a class counts them from the
loosest, and the order of classes is the order of their levels.
-/

namespace DiceNotation

/-- How tightly an operator binds. -/
inductive Priority where
  | join
  | multiply
  | exponent
  | negative
  | pick
  | dice
  | list
deriving DecidableEq, Repr

namespace Priority

/-- The rank of a class, from one for the loosest. -/
def level : Priority → Nat
  | .join => 1
  | .multiply => 2
  | .exponent => 3
  | .negative => 4
  | .pick => 5
  | .dice => 6
  | .list => 7

/-- The name under which a class is reported. -/
def name : Priority → String
  | .join => "join"
  | .multiply => "multiply"
  | .exponent => "exponent"
  | .negative => "negative"
  | .pick => "pick"
  | .dice => "dice"
  | .list => "list"

/-- Every class, from the tightest to the loosest. -/
def descending : List Priority := [.list, .dice, .pick, .negative, .exponent, .multiply, .join]

instance : LE Priority := ⟨fun p q ↦ p.level ≤ q.level⟩

instance : LT Priority := ⟨fun p q ↦ p.level < q.level⟩

instance (p q : Priority) : Decidable (p ≤ q) := inferInstanceAs (Decidable (p.level ≤ q.level))

instance (p q : Priority) : Decidable (p < q) := inferInstanceAs (Decidable (p.level < q.level))

theorem mem_descending (p : Priority) : p ∈ descending := by
  cases p <;> simp [descending]

theorem level_injective {p q : Priority} (h : p.level = q.level) : p = q := by
  cases p <;> cases q <;> simp_all [level]

end Priority

end DiceNotation
