import DiceNotation.Evaluation
import DiceNotation.Limit
import DiceNotation.Reading

/-!
# Sessions

A session keeps its source of chance, its limit and its store from one input to the next. After
an input that has a value, two variables hold the input and the value; one that fails leaves both
alone.
-/

namespace DiceNotation

/-- An input together with its value and the steps that led there. -/
structure Evaluation where
  expression : Expression
  value : Value
  trace : Trace

/-- What is kept from one input to the next. -/
structure Session (ρ : Type) where
  chance : ρ
  limit : Nat
  store : Store

namespace Session

variable {ρ : Type}

/-- A session in which no name has been given a meaning yet. -/
def start (chance : ρ) (limit : Nat) : Session ρ := ⟨chance, limit, .empty⟩

/-- Changes the store. -/
def change (s : Session ρ) (c : Store.Change Unit) : Except RollError Unit × Session ρ :=
  let (outcome, store) := c.run.run s.store
  (outcome, { s with store })

theorem change_of_run_eq {s : Session ρ} {c : Store.Change Unit} {outcome : Except RollError Unit}
    {store : Store} (h : c.run.run s.store = (outcome, store)) :
    s.change c = (outcome, { s with store }) := by
  rw [change, h]

/-- Reads a source and saves it as a function. -/
def save (s : Session ρ) (name source : String) : Except RollError Unit × Session ρ :=
  match Expression.read source with
  | .error e => (.error (.read e), s)
  | .ok e => s.change (Store.save name e)

/-- Removes a saved function. -/
def unsave (s : Session ρ) (name : String) : Except RollError Unit × Session ρ :=
  s.change (Store.unsave name)

/-- The variable that keeps the last input. -/
def inputName : String := "_last"

/-- The variable that keeps the last value. -/
def valueName : String := "_ans"

variable [Chance ρ]

/-- Evaluates an expression. -/
def evaluateExpression (s : Session ρ) (e : Expression) :
    Except RollError Evaluation × Session ρ :=
  let table : Table ρ := ⟨s.chance, s.store.locals, .empty⟩
  let (outcome, table) := (e.evaluate ⟨s.limit, s.store.saved⟩ 0 s.store.frames).run.run table
  let store := { s.store with locals := table.locals }
  match outcome with
  | .error error => (.error error, { s with chance := table.chance, store })
  | .ok v =>
    (.ok ⟨e, v, table.trace⟩,
      { s with
        chance := table.chance
        store := (store.setVariable inputName e).setVariable valueName (.ofValue v) })

/-- Reads a source and evaluates it. -/
def evaluate (s : Session ρ) (source : String) : Except RollError Evaluation × Session ρ :=
  match Expression.read source with
  | .error e => (.error (.read e), s)
  | .ok e => s.evaluateExpression e

end Session

end DiceNotation
