import DiceNotation.Operation.Dice
import DiceNotation.Operation.Pick

/-!
# Operations

What each operator does with its operands, which are given as computations: the operator decides
when they are evaluated. All operators evaluate the left operand before the right one.
-/

namespace DiceNotation

variable {ρ : Type} [Chance ρ]

/-- Applies a function of two single numbers to the totals of two operands. -/
def arithmetic (f : Number → Number → Play ρ Number) (left right : Play ρ Value) :
    Play ρ Value := do
  let x ← left
  let y ← right
  return .number (← f x.total y.total)

/-- Divides, unless by zero. -/
def quotient (x y : Number) : Play ρ Number :=
  if y.value == 0 then Play.misuse .divisionByZero else pure (x / y)

omit [Chance ρ] in
theorem isCheck_quotient (x y : Number) : Play.IsCheck (quotient x y : Play ρ Number) := by
  unfold quotient
  split
  · exact .misuse _
  · exact .pure _

/-- What a prefix operator computes. -/
def PrefixOp.apply (limit : Nat) (op : PrefixOp) (operand : Play ρ Value) : Play ρ Value :=
  match op with
  | .die => Dice.rollOne limit operand
  | .pickOne => Pick.one limit operand
  | .negate => return (← operand).negate
  | .size => return .number (.ofNat (← operand).size)
  | .total => return .number (← operand).total

/-- What a binary operator computes. -/
def BinaryOp.apply (limit : Nat) (op : BinaryOp) (left right : Play ρ Value) : Play ρ Value :=
  match op with
  | .dice => Dice.roll limit left right
  | .rollUntil cmp => Dice.rollUntil limit cmp left right
  | .pick => Pick.several limit left right
  | .pickReplacing => Pick.replacing limit left right
  | .join => return .join (← left) (← right)
  | .subtract => do
    let x ← left
    let y ← right
    return .join x y.negate
  | .multiply => arithmetic (fun x y ↦ pure (x * y)) left right
  | .divide => arithmetic quotient left right
  | .power => arithmetic (fun x y ↦ pure (.const (x.value.pow y.value))) left right

/-- What a postfix operator computes. -/
def PostfixOp.apply (op : PostfixOp) (operand : Play ρ Value) : Play ρ Value :=
  match op with
  | .shuffle => do
    let items := (← operand).items
    let items ← Play.random (Chance.shuffle items)
    return .list items

/-- The operand that an operator evaluates on its left. Rolling until a number is met repeats a
die that is named on the left, and so evaluates the size of that die instead of rolling it. -/
def BinaryOp.leftOperand : BinaryOp → Expression → Expression
  | .rollUntil _, .prefixed .die size => size
  | _, left => left

theorem BinaryOp.sizeOf_leftOperand_le (op : BinaryOp) (left : Expression) :
    sizeOf (op.leftOperand left) ≤ sizeOf left := by
  unfold leftOperand
  split
  · simp
  · exact Nat.le_refl _

end DiceNotation
