import DiceNotation.Text.Blank
import DiceNotation.Text.Count

/-!
# The operation limit

How many dice one operation may roll. A limit of zero allows no random choices at all, apart from
shuffling.
-/

namespace DiceNotation.Limit

/-- The environment variable that holds the limit. -/
def variableName : String := "DICE_OPERATION_LIMIT"

/-- The limit where no other is set. -/
def usual : Nat := 1000

/-- A limit as it is written: a count, before which a plus sign may stand. -/
def ofDigits? : List Char → Option Nat
  | '+' :: digits => Count.ofDigits? digits
  | digits => Count.ofDigits? digits

/-- The limit that a setting asks for. Blanks around it do not count, and a setting that is not a
count is ignored. -/
def ofSetting : Option String → Nat
  | none => usual
  | some setting => (ofDigits? (Blank.trim setting.toList)).getD usual

end DiceNotation.Limit
