import DiceNotation.Priority

/-!
# Traces

The steps of an evaluation, in the order in which they were completed. For display they are
grouped by priority, the tightest first; within a group they keep their order.
-/

namespace DiceNotation

/-- A step of an evaluation: what was computed, at which priority. -/
structure Trace.Step where
  priority : Priority
  text : String
deriving DecidableEq

/-- The steps of an evaluation in order. -/
structure Trace where
  steps : Array Trace.Step
deriving DecidableEq

namespace Trace

/-- The trace without steps. -/
def empty : Trace := ⟨#[]⟩

/-- The trace with one more step at its end. -/
def push (t : Trace) (step : Step) : Trace := ⟨t.steps.push step⟩

/-- The number of steps. -/
def size (t : Trace) : Nat := t.steps.size

/-- The steps from the first to the last. -/
def toList (t : Trace) : List Step := t.steps.toList

/-- The groups with the text of one more step, which goes to the end of the group of its priority.
The first step of a priority makes a new group behind the others. -/
def enter : List (Priority × List String) → Step → List (Priority × List String)
  | [], step => [(step.priority, [step.text])]
  | (p, texts) :: rest, step =>
    if p = step.priority then (p, texts ++ [step.text]) :: rest
    else (p, texts) :: enter rest step

/-- The texts of all steps, grouped by priority. -/
def byLevel (t : Trace) : List (Priority × List String) :=
  (t.toList.foldl enter []).mergeSort fun level level' ↦ level'.1 ≤ level.1

/-- The texts of all steps, each on a line of its own. -/
def text (t : Trace) : String := String.join (t.toList.map (·.text ++ "\n"))

@[simp] theorem toList_empty : empty.toList = [] := rfl

@[simp] theorem toList_push (t : Trace) (step : Step) :
    (t.push step).toList = t.toList ++ [step] := by
  simp [toList, push]

end Trace

end DiceNotation
