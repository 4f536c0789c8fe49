import DiceNotation.Comparison
import DiceNotation.Priority

/-!
# Operators

The operators of the notation, sorted by where their operands stand, with their spellings and
priorities. A spelling may belong to one operator of each arity: `d`, `p` and `-` stand both
before an operand and between two. Within one arity the spellings differ, so an operator is found
again by its spelling (`PrefixOp.ofSymbol?_symbol` and the two lemmas like it).
-/

namespace DiceNotation

/-- Where the operands of an operator stand. -/
inductive Arity where
  | before
  | between
  | after
deriving DecidableEq, Repr

/-- The name under which an arity is reported. -/
def Arity.name : Arity → String
  | .before => "prefix"
  | .between => "binary"
  | .after => "postfix"

/-- An operator that stands before its operand. -/
inductive PrefixOp where
  /-- Rolls one die. -/
  | die
  /-- Draws one item of a list. -/
  | pickOne
  /-- Negates every number. -/
  | negate
  /-- Counts the items of a list. -/
  | size
  /-- Adds up to a single number. -/
  | total
deriving DecidableEq, Repr

/-- An operator that stands between its operands. -/
inductive BinaryOp where
  /-- Rolls several dice of one size. -/
  | dice
  /-- Rolls a die until it meets a number. -/
  | rollUntil (cmp : Comparison)
  /-- Draws items of a list without putting them back. -/
  | pick
  /-- Draws items of a list, putting each one back. -/
  | pickReplacing
  /-- Adds numbers, and puts lists or texts one behind the other. -/
  | join
  /-- Joins the negated right operand. -/
  | subtract
  | multiply
  | divide
  | power
deriving DecidableEq, Repr

/-- An operator that stands behind its operand. -/
inductive PostfixOp where
  /-- Puts a list into random order. -/
  | shuffle
deriving DecidableEq, Repr

/-! ## Prefix operators -/

namespace PrefixOp

/-- Every prefix operator. -/
def all : List PrefixOp := [.die, .pickOne, .negate, .size, .total]

/-- The spelling of the operator. -/
def symbol : PrefixOp → String
  | .die => "d"
  | .pickOne => "p"
  | .negate => "-"
  | .size => "#"
  | .total => "$"

/-- How tightly the operator binds. -/
def priority : PrefixOp → Priority
  | .die => .dice
  | .pickOne => .pick
  | .negate => .negative
  | .size | .total => .list

/-- The prefix operator of this spelling. -/
def ofSymbol? (s : String) : Option PrefixOp := all.find? (·.symbol == s)

theorem ofSymbol?_symbol (op : PrefixOp) : ofSymbol? op.symbol = some op := by
  cases op <;> decide

end PrefixOp

/-! ## Binary operators -/

namespace BinaryOp

/-- Every binary operator. -/
def all : List BinaryOp :=
  [.dice, .pick, .pickReplacing, .join, .subtract, .multiply, .divide, .power]
    ++ Comparison.all.map .rollUntil

/-- The spelling of the operator. -/
def symbol : BinaryOp → String
  | .dice => "d"
  | .rollUntil .equal => "u="
  | .rollUntil .notEqual => "u!="
  | .rollUntil .less => "u<"
  | .rollUntil .lessEqual => "u<="
  | .rollUntil .greater => "u>"
  | .rollUntil .greaterEqual => "u>="
  | .rollUntil .multiple => "u%"
  | .rollUntil .notMultiple => "u!%"
  | .pick => "p"
  | .pickReplacing => "pr"
  | .join => "+"
  | .subtract => "-"
  | .multiply => "*"
  | .divide => "/"
  | .power => "^"

/-- How tightly the operator binds. -/
def priority : BinaryOp → Priority
  | .dice | .rollUntil _ => .dice
  | .pick | .pickReplacing => .pick
  | .join | .subtract => .join
  | .multiply | .divide => .multiply
  | .power => .exponent

/-- The binary operator of this spelling. -/
def ofSymbol? (s : String) : Option BinaryOp := all.find? (·.symbol == s)

theorem ofSymbol?_symbol (op : BinaryOp) : ofSymbol? op.symbol = some op := by
  cases op with
  | rollUntil cmp => cases cmp <;> decide
  | _ => decide

end BinaryOp

/-! ## Postfix operators -/

namespace PostfixOp

/-- Every postfix operator. -/
def all : List PostfixOp := [.shuffle]

/-- The spelling of the operator. -/
def symbol : PostfixOp → String
  | .shuffle => "?"

/-- How tightly the operator binds. -/
def priority : PostfixOp → Priority
  | .shuffle => .list

/-- The postfix operator of this spelling. -/
def ofSymbol? (s : String) : Option PostfixOp := all.find? (·.symbol == s)

theorem ofSymbol?_symbol (op : PostfixOp) : ofSymbol? op.symbol = some op := by
  cases op; decide

end PostfixOp

/-! ## All spellings -/

/-- The spellings of all operators, one for each arity in which it is used. -/
def operatorSymbols : List String :=
  PrefixOp.all.map (·.symbol) ++ BinaryOp.all.map (·.symbol) ++ PostfixOp.all.map (·.symbol)

end DiceNotation
