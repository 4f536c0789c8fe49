import DiceNotation.Operator
import DiceNotation.Value

/-!
# Expressions

The trees of the notation. A reference names a saved function or a variable, or, by a positive
number, an argument of the call around it; a call gives a saved function its arguments.

`Expression.code` writes a tree as source text with every operation in parentheses, so that it
can be read back whatever the priorities are. Negative literals come only from stored values;
they are written as negations.
-/

namespace DiceNotation

/-- An expression of the notation. -/
inductive Expression where
  | literal (x : Number)
  | list (items : List Expression)
  | text (s : String)
  | reference (name : String)
  | call (name : String) (arguments : List Expression)
  | prefixed (op : PrefixOp) (operand : Expression)
  | binary (left : Expression) (op : BinaryOp) (right : Expression)
  | postfixed (operand : Expression) (op : PostfixOp)

namespace Expression

instance : Inhabited Expression := ⟨.list []⟩

/-! ## Comparing -/

mutual

/-- Expressions are equal if they are built alike from equal numbers, texts and names. -/
def equals : Expression → Expression → Bool
  | .literal x, .literal y => x == y
  | .list xs, .list ys => listEquals xs ys
  | .text s, .text t => s == t
  | .reference m, .reference n => m == n
  | .call m xs, .call n ys => m == n && listEquals xs ys
  | .prefixed o x, .prefixed p y => o == p && equals x y
  | .binary x o x', .binary y p y' => o == p && equals x y && equals x' y'
  | .postfixed x o, .postfixed y p => o == p && equals x y
  | _, _ => false

/-- Whether two lists are equal item by item. -/
def listEquals : List Expression → List Expression → Bool
  | [], [] => true
  | x :: xs, y :: ys => equals x y && listEquals xs ys
  | _, _ => false

end

instance : BEq Expression := ⟨equals⟩

/-! ## Values as expressions -/

mutual

/-- The expression that evaluates to a value. -/
def ofValue : Value → Expression
  | .number x => .literal x
  | .list items => .list (ofValues items)
  | .text s => .text s

/-- The expressions that evaluate to values. -/
def ofValues : List Value → List Expression
  | [] => []
  | item :: rest => ofValue item :: ofValues rest

end

/-! ## Source text -/

mutual

/-- The source text of the expression. -/
def code : Expression → String
  | .literal x => x.code
  | .list items => "[" ++ codes items ++ "]"
  | .text s => Value.quoted s
  | .reference name => "\x7b" ++ name ++ "\x7d"
  | .call name arguments => "\x7b" ++ name ++ argumentCodes arguments ++ "\x7d"
  | .prefixed op operand => "(" ++ op.symbol ++ code operand ++ ")"
  | .binary left op right => "(" ++ code left ++ op.symbol ++ code right ++ ")"
  | .postfixed operand op => "(" ++ code operand ++ op.symbol ++ ")"

/-- The source texts of the items with commas between them. -/
def codes : List Expression → String
  | [] => ""
  | [item] => code item
  | item :: rest => code item ++ "," ++ codes rest

/-- The source texts of the arguments with a comma before each. -/
def argumentCodes : List Expression → String
  | [] => ""
  | item :: rest => "," ++ code item ++ argumentCodes rest

end

theorem codes_eq_intercalate (items : List Expression) :
    codes items = ",".intercalate (items.map code) :=
  Value.eq_intercalate_map rfl (fun _ ↦ rfl) (fun _ _ _ ↦ rfl) items

/-- The spelling and the priority of the operator at the root, if there is one. -/
def operator? : Expression → Option (String × Priority)
  | .prefixed op _ => some (op.symbol, op.priority)
  | .binary _ op _ => some (op.symbol, op.priority)
  | .postfixed _ op => some (op.symbol, op.priority)
  | _ => none

end Expression

end DiceNotation
