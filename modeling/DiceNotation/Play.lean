import DiceNotation.Chance
import DiceNotation.Store
import DiceNotation.Trace

/-!
# Plays

An evaluation in progress. It draws from a source of chance, sets variables, records its steps,
and may fail at any point; what it has done up to there stays done. The source, the variables and
the steps are therefore kept beneath the failure.
-/

namespace DiceNotation

/-- What an evaluation in progress changes. -/
structure Table (ρ : Type) where
  chance : ρ
  locals : Bindings Expression
  trace : Trace

/-- A computation that is part of an evaluation. -/
abbrev Play (ρ : Type) := ExceptT RollError (StateM (Table ρ))

namespace Play

variable {ρ : Type}

/-- Fails because of an operand, name or argument that cannot be used. -/
def misuse {α : Type} (m : Misuse) : Play ρ α := throw (.misuse m)

/-- Makes a random choice. -/
def random {α : Type} (choice : StateM ρ α) : Play ρ α := do
  let t ← get
  let (a, chance) := choice.run t.chance
  set { t with chance }
  return a

/-- Makes a random choice that has a result as long as the source keeps to its ranges. -/
def random? {α : Type} (choice : StateM ρ (Option α)) : Play ρ α := do
  match ← random choice with
  | some a => return a
  | none => throw (.internal "a random choice is out of range")

/-- Gives a variable the expression of a value. -/
def setVariable (name : String) (v : Value) : Play ρ Unit :=
  modify fun t ↦ { t with locals := t.locals.insert name (.ofValue v) }

/-- Takes the meaning of a variable away. -/
def clearVariable (name : String) : Play ρ Unit :=
  modify fun t ↦ { t with locals := t.locals.erase name }

/-- Records a step. -/
def record (step : Trace.Step) : Play ρ Unit :=
  modify fun t ↦ { t with trace := t.trace.push step }

/-- Refuses a random choice where no choices are allowed at all. -/
def requireChoice (limit : Nat) : Play ρ Unit :=
  if limit = 0 then throw (.limitExceeded limit) else pure ()

/-! ## Plays that only check

Much of what operators do on the way is to check something, which has to do with operands and not
with the table. -/

/-- The play only checks: what it comes to is known without the table, which it leaves alone. -/
def IsCheck {α : Type} (p : Play ρ α) : Prop :=
  ∃ outcome : Except RollError α, p = liftExcept outcome

namespace IsCheck

variable {α : Type}

theorem pure (a : α) : IsCheck (pure a : Play ρ α) := ⟨.ok a, rfl⟩

theorem throw (e : RollError) : IsCheck (throw e : Play ρ α) := ⟨.error e, rfl⟩

theorem misuse (m : Misuse) : IsCheck (misuse m : Play ρ α) := throw _

theorem requireChoice (limit : Nat) : IsCheck (requireChoice limit : Play ρ Unit) := by
  unfold Play.requireChoice
  split
  · exact throw _
  · exact pure ()

end IsCheck

/-! ## What a play leaves on the table -/

@[simp] theorem run_misuse {α : Type} (m : Misuse) (t : Table ρ) :
    (misuse m : Play ρ α).run.run t = (.error (.misuse m), t) := rfl

@[simp] theorem run_random {α : Type} (choice : StateM ρ α) (t : Table ρ) :
    (random choice).run.run t =
      (.ok (choice.run t.chance).1, { t with chance := (choice.run t.chance).2 }) := rfl

@[simp] theorem run_setVariable (name : String) (v : Value) (t : Table ρ) :
    (setVariable name v).run.run t =
      (.ok (), { t with locals := t.locals.insert name (.ofValue v) }) := rfl

@[simp] theorem run_clearVariable (name : String) (t : Table ρ) :
    (clearVariable name).run.run t = (.ok (), { t with locals := t.locals.erase name }) := rfl

@[simp] theorem run_record (step : Trace.Step) (t : Table ρ) :
    (record step).run.run t = (.ok (), { t with trace := t.trace.push step }) := rfl

/-- A play that goes on after another is run on what that one left; a failure ends it. -/
theorem run_bind {α β : Type} (first : Play ρ α) (rest : α → Play ρ β) (t : Table ρ) :
    (first >>= rest).run.run t =
      match first.run.run t with
      | (.ok a, t) => (rest a).run.run t
      | (.error e, t) => (.error e, t) := by
  rw [ExceptT.run_bind, StateT.run_bind]
  obtain ⟨e | a, t⟩ := first.run.run t <;> rfl

/-- A random choice that has a result. -/
theorem run_random?_of_eq_some {α : Type} {choice : StateM ρ (Option α)} {t : Table ρ} {a : α}
    {c : ρ} (h : choice.run t.chance = (some a, c)) :
    (random? choice).run.run t = (.ok a, { t with chance := c }) := by
  rw [random?, run_bind, run_random, h]
  rfl

end Play

end DiceNotation
