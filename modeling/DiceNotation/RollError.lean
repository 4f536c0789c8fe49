import DiceNotation.ReadError

/-!
# Errors of evaluation

Why an input has no value. Apart from errors of reading there are references to nothing, operands
that an operator cannot use, rolls that would be pointless or too many, and faults of the source
of chance.
-/

namespace DiceNotation

/-- An operand, name or argument that cannot be used. -/
inductive Misuse where
  | noSides
  | noDice
  | divisionByZero
  /-- The operation with this code has a number in its result that is not finite. -/
  | outOfRange (code : String)
  | negativePick
  | emptyPool
  | nestedTooDeep
  | outsideCall (parameter : Nat)
  | missingArgument (parameter given : Nat)
  | parameterCalled (name : String)
  | blankName
  | parameterAssigned
  | builtInAssigned (name : String)
  /-- A fault that is worded where it is found. -/
  | worded (text : String)
deriving DecidableEq

/-- Why an input has no value. -/
inductive RollError where
  | read (e : ReadError)
  | unknownReference (name : String)
  | misuse (m : Misuse)
  | pointlessRoll
  | limitExceeded (limit : Nat)
  | internal (text : String)
deriving DecidableEq

/-- A name as a reference to it. -/
def braced (name : String) : String := "\x7b" ++ name ++ "\x7d"

/-- The wording of a misuse. -/
def Misuse.message : Misuse → String
  | .noSides => "dice must have at least one side"
  | .noDice => "you must roll at least one die"
  | .divisionByZero => "cannot divide by zero"
  | .outOfRange code => code ++ " is out of range"
  | .negativePick => "can't pick a negative number of items"
  | .emptyPool => "can't pick from an empty list"
  | .nestedTooDeep => "too many nested references"
  | .outsideCall parameter => braced (toString parameter) ++ " used outside of a function"
  | .missingArgument parameter given =>
    "argument " ++ braced (toString parameter) ++ " was requested but only " ++ toString given
      ++ " were given"
  | .parameterCalled name => braced name ++ " is a parameter, not a function"
  | .blankName => "a saved function needs a name"
  | .parameterAssigned => "can't overwrite parameters in a function"
  | .builtInAssigned name => braced name ++ " is built in and can't be changed"
  | .worded text => text

/-- The wording of an error. -/
def RollError.message : RollError → String
  | .read e => e.message
  | .unknownReference name => "no saved function or variable named " ++ braced name
  | .misuse m => m.message
  | .pointlessRoll => "the range you have selected would result in a pointless roll"
  | .limitExceeded limit =>
    "operation limit exceeded: at most " ++ toString limit ++ " dice may be rolled at once"
  | .internal text => "internal error: " ++ text

end DiceNotation
