import DiceNotation.Binary64.Arithmetic

/-!
# Comparisons

The relations that a roll can be tested by: the six of order, and the two of divisibility, for
which the number tested against is a divisor.
-/

namespace DiceNotation

/-- A relation between a roll and the number it is tested against. -/
inductive Comparison where
  | equal
  | notEqual
  | less
  | lessEqual
  | greater
  | greaterEqual
  | multiple
  | notMultiple
deriving DecidableEq, Repr

namespace Comparison

/-- Every comparison. -/
def all : List Comparison :=
  [.equal, .notEqual, .less, .lessEqual, .greater, .greaterEqual, .multiple, .notMultiple]

/-- Whether `x` stands in the relation to `cutoff`. -/
def holds (cmp : Comparison) (x cutoff : Binary64) : Bool :=
  match cmp with
  | .equal => x == cutoff
  | .notEqual => x != cutoff
  | .less => x.lt cutoff
  | .lessEqual => x.le cutoff
  | .greater => cutoff.lt x
  | .greaterEqual => cutoff.le x
  | .multiple => x % cutoff == 0
  | .notMultiple => x % cutoff != 0

/-- Whether the relation is one of divisibility. -/
def isModular : Comparison → Bool
  | .multiple | .notMultiple => true
  | _ => false

/-- The spelling of the relation. -/
def symbol : Comparison → String
  | .equal => "="
  | .notEqual => "!="
  | .less => "<"
  | .lessEqual => "<="
  | .greater => ">"
  | .greaterEqual => ">="
  | .multiple => "%"
  | .notMultiple => "!%"

end Comparison

end DiceNotation
