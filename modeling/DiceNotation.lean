import DiceNotation.Binary64.Arithmetic
import DiceNotation.Binary64.Basic
import DiceNotation.Binary64.Decimal
import DiceNotation.Bindings
import DiceNotation.Chance
import DiceNotation.Chance.Generator
import DiceNotation.Chance.Script
import DiceNotation.Comparison
import DiceNotation.Console
import DiceNotation.Evaluation
import DiceNotation.Expression
import DiceNotation.Limit
import DiceNotation.Main
import DiceNotation.Number
import DiceNotation.Operation
import DiceNotation.Operation.Dice
import DiceNotation.Operation.Pick
import DiceNotation.Operator
import DiceNotation.Play
import DiceNotation.Priority
import DiceNotation.Proofs.Numeral
import DiceNotation.ReadError
import DiceNotation.Reading
import DiceNotation.RollError
import DiceNotation.Session
import DiceNotation.Store
import DiceNotation.Text.Blank
import DiceNotation.Text.Count
import DiceNotation.Text.Graphic
import DiceNotation.Text.Quoted
import DiceNotation.Text.Shown
import DiceNotation.Token
import DiceNotation.Trace
import DiceNotation.Value
import DiceNotation.Proofs.Scanning
import DiceNotation.Proofs.Spelling
import DiceNotation.Proofs.RoundTrip
import DiceNotation.Proofs.Correspondence
import DiceNotation.Proofs.CallStack
import DiceNotation.Proofs.Footprint
import DiceNotation.Proofs.Substitution
import DiceNotation.Proofs.ReadingSteps
import DiceNotation.Proofs.Grammar
import DiceNotation.Proofs.Precedence
import DiceNotation.Proofs.WrittenValues
import DiceNotation.Proofs.Meaning
import DiceNotation.Proofs.Certainty
import DiceNotation.Proofs.Finiteness
import DiceNotation.Proofs.Operands
import DiceNotation.Proofs.Positions
import DiceNotation.Proofs.Arguments
import DiceNotation.Proofs.Rereading
import DiceNotation.Proofs.RecordedSteps
import DiceNotation.Proofs.Limits
import DiceNotation.Proofs.Draws
import DiceNotation.Proofs.ErrorPositions
import DiceNotation.Proofs.Layers
import DiceNotation.Proofs.Joints
import DiceNotation.Proofs.RefusedLines
import DiceNotation.Proofs.Faults
import DiceNotation.Proofs.Cutoffs
import DiceNotation.Proofs.PickedItems
import DiceNotation.Proofs.RepeatedRolls
import DiceNotation.Proofs.LastDie
import DiceNotation.Proofs.Rounding
import DiceNotation.Proofs.FractionalCutoffs
import DiceNotation.Proofs.ScriptedRolls
import DiceNotation.Proofs.FairShuffles
import DiceNotation.Proofs.DieSizes
import DiceNotation.Proofs.Subtraction
import DiceNotation.Proofs.Parameters
import DiceNotation.Proofs.Recall
import DiceNotation.Proofs.SavedNames
import DiceNotation.Proofs.StoredValues
import DiceNotation.Proofs.Composition
import DiceNotation.Proofs.Spans
import DiceNotation.Proofs.DoubleNegation
import DiceNotation.Proofs.Levels
import DiceNotation.Proofs.Divisions
import DiceNotation.Proofs.QuotedTexts
