import DiceNotation.Operation

/-!
# Evaluating expressions

References and calls evaluate the expression that a name stands for, one level deeper; a call
opens a frame with its arguments for it. A parameter evaluates an argument where the call stands,
that is, without the innermost frame and without going deeper. So the depth may grow only up to
`deepest`, and as long as it does not, either the frames become fewer or the expression smaller:
evaluation ends whatever names refer to.

An operation is recorded in the trace unless its result is what its source text says already.
-/

namespace DiceNotation

/-- How many references may be nested. -/
def deepest : Nat := 64

/-- What an evaluation depends on and does not change. -/
structure Rules where
  limit : Nat
  saved : Bindings Expression

namespace Play

variable {ρ : Type}

/-- The expression that a name stands for. -/
def resolve (rules : Rules) (name : String) : Play ρ Expression := do
  let t ← get
  liftExcept (Store.resolve rules.saved t.locals name)

/-- Ends an operation: its result must be finite, and becomes a step of the trace unless it reads
like the operation itself. -/
def conclude (priority : Priority) (code : String) (v : Value) : Play ρ Value := do
  if !v.isFinite then misuse (.outOfRange code)
  else
    if code ≠ v.code then
      record ⟨priority, code ++ " => " ++ v.display Value.usualDepth⟩
    return v

end Play

variable {ρ : Type} [Chance ρ]

mutual

/-- Evaluates an expression at some depth of references, inside some open calls. -/
def Expression.evaluate (rules : Rules) (depth : Nat) (frames : List (List Expression))
    (e : Expression) : Play ρ Value :=
  match e with
  | .literal x => pure (.number x)
  | .list items => do
    let items ← evaluateAll rules depth frames items
    return .list items
  | .text s => pure (.text s)
  | .reference name =>
    match parameter? name with
    | some i =>
      match h : Store.argument frames i with
      | .ok (argument, outer) =>
        have := Store.length_lt_of_argument h
        argument.evaluate rules depth outer
      | .error e => throw e
    | none => do
      let body ← Play.resolve rules name
      if h : depth < deepest then body.evaluate rules (depth + 1) frames
      else Play.misuse .nestedTooDeep
  | .call name arguments =>
    match parameter? name with
    | some _ => Play.misuse (.parameterCalled name)
    | none => do
      let body ← Play.resolve rules name
      if h : depth < deepest then body.evaluate rules (depth + 1) (arguments :: frames)
      else Play.misuse .nestedTooDeep
  | .prefixed op operand => do
    let v ← op.apply rules.limit (operand.evaluate rules depth frames)
    Play.conclude op.priority (Expression.code (.prefixed op operand)) v
  | .binary left op right => do
    have := op.sizeOf_leftOperand_le left
    let v ← op.apply rules.limit ((op.leftOperand left).evaluate rules depth frames)
      (right.evaluate rules depth frames)
    Play.conclude op.priority (Expression.code (.binary left op right)) v
  | .postfixed operand op => do
    let v ← op.apply (operand.evaluate rules depth frames)
    Play.conclude op.priority (Expression.code (.postfixed operand op)) v
termination_by (deepest - depth, frames.length, sizeOf e)

/-- Evaluates expressions from the first to the last. -/
def evaluateAll (rules : Rules) (depth : Nat) (frames : List (List Expression))
    (es : List Expression) : Play ρ (List Value) :=
  match es with
  | [] => pure []
  | e :: rest => do
    let v ← e.evaluate rules depth frames
    let vs ← evaluateAll rules depth frames rest
    return v :: vs
termination_by (deepest - depth, frames.length, sizeOf es)

end

end DiceNotation
