import DiceNotation.Operator
import DiceNotation.Text.Shown

/-!
# Errors of reading

Why a source is not an expression, and at which byte of it that shows.
-/

namespace DiceNotation

/-- Why a source cannot be read. -/
inductive ReadError.Cause where
  | unexpectedCharacter (c : Char)
  | unterminatedText
  | unterminatedReference
  | emptyExpression
  | emptyReferenceName
  | missingOperand
  | expectedOperator
  /-- The spelling is not that of an operator of these arities. -/
  | unknownOperator (symbol : String) (arities : List Arity)
  /-- A token, or the end of the source, stands where one of the listed things should. -/
  | unexpectedToken (found : Option String) (expected : List String)
deriving DecidableEq

/-- A cause and the byte of the source at which it shows. -/
structure ReadError where
  position : Nat
  cause : ReadError.Cause
deriving DecidableEq

namespace ReadError

/-- The wording of a cause. -/
def Cause.message : Cause → String
  | .unexpectedCharacter c => "unexpected character " ++ Shown.char c
  | .unterminatedText => "unterminated string literal"
  | .unterminatedReference => "unterminated '\x7b' reference"
  | .emptyExpression => "empty expression"
  | .emptyReferenceName => "references need a name"
  | .missingOperand => "missing operand"
  | .expectedOperator => "expected an operator between operands"
  | .unknownOperator symbol arities =>
    Shown.text symbol ++ " is not a " ++ Shown.alternatives (arities.map (·.name)) ++ " operator"
  | .unexpectedToken (some found) expected =>
    "unexpected token; found " ++ Shown.text found ++ ", expected " ++ Shown.alternatives expected
  | .unexpectedToken none expected =>
    "unexpected end of input, expected " ++ Shown.alternatives expected

/-- The wording of an error. -/
def message (e : ReadError) : String :=
  "error at position " ++ toString e.position ++ ": " ++ e.cause.message

end ReadError

end DiceNotation
