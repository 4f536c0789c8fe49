import DiceNotation.Bindings
import DiceNotation.Expression
import DiceNotation.RollError
import DiceNotation.Text.Blank
import DiceNotation.Text.Count

/-!
# The store

What names stand for in a session, in layers: built-in dice before variables before saved
functions. Names that are positive numbers are parameters: they stand for the arguments of the
innermost call and can be given no other meaning.
-/

namespace DiceNotation

/-- The parameter that a name refers to, if it is a positive number. -/
def parameter? (name : String) : Option Nat :=
  match Count.ofDigits? name.toList with
  | some 0 => none
  | n => n

/-- The expression that a name stands for in every session. -/
def builtIn? (name : String) : Option Expression :=
  if name = "!d" then some (.prefixed .die (.literal (.ofNat 6)))
  else if name = "!c" then some (.prefixed .die (.literal (.ofNat 2)))
  else none

/-- What names stand for, and the arguments of the calls that are open, the innermost first. -/
structure Store where
  saved : Bindings Expression
  locals : Bindings Expression
  frames : List (List Expression)

namespace Store

/-- The store of a new session. -/
def empty : Store := ⟨.empty, .empty, []⟩

/-- The expression that a name stands for. -/
def resolve (saved locals : Bindings Expression) (name : String) :
    Except RollError Expression :=
  match builtIn? name with
  | some e => .ok e
  | none =>
    match locals.get? name with
    | some e => .ok e
    | none =>
      match saved.get? name with
      | some e => .ok e
      | none => .error (.unknownReference name)

/-- The argument that a parameter stands for, and the calls around the one that it is an argument
of. -/
def argument (frames : List (List Expression)) (parameter : Nat) :
    Except RollError (Expression × List (List Expression)) :=
  match frames with
  | [] => .error (.misuse (.outsideCall parameter))
  | frame :: outer =>
    match parameter with
    | 0 => .error (.misuse (.missingArgument 0 frame.length))
    | i + 1 =>
      match frame[i]? with
      | some e => .ok (e, outer)
      | none => .error (.misuse (.missingArgument (i + 1) frame.length))

theorem length_lt_of_argument {frames outer : List (List Expression)} {parameter : Nat}
    {e : Expression} (h : argument frames parameter = .ok (e, outer)) :
    outer.length < frames.length := by
  cases frames with
  | nil => cases h
  | cons frame rest =>
    cases parameter with
    | zero => cases h
    | succ i =>
      simp only [argument] at h
      split at h
      · cases h
        exact Nat.lt_succ_self _
      · cases h

/-! ## Variables and calls -/

/-- Gives a variable an expression. -/
def setVariable (s : Store) (name : String) (e : Expression) : Store :=
  { s with locals := s.locals.insert name e }

/-- Takes the meaning of a variable away. -/
def clearVariable (s : Store) (name : String) : Store :=
  { s with locals := s.locals.erase name }

/-- Opens a call. -/
def pushFrame (s : Store) (arguments : List Expression) : Store :=
  { s with frames := arguments :: s.frames }

/-- Closes the innermost call. -/
def popFrame (s : Store) : Store := { s with frames := s.frames.tail }

/-! ## Saved functions

Names are checked before anything is changed. Whether there was a function to remove is known only
behind the removal, which has then taken nothing out (`Bindings.erase_of_get?_eq_none`). -/

/-- Refuses names that no function can be saved under. -/
def checkAssignable (name : String) : Except RollError Unit :=
  if (Blank.trim name.toList).isEmpty then .error (.misuse .blankName)
  else if (parameter? name).isSome then .error (.misuse .parameterAssigned)
  else if (builtIn? name).isSome then .error (.misuse (.builtInAssigned name))
  else .ok ()

/-- A change to a store that may be refused. What it has changed up to there stays changed. -/
abbrev Change := ExceptT RollError (StateM Store)

/-- Saves a function. -/
def save (name : String) (e : Expression) : Change Unit := do
  checkAssignable name
  modify fun s ↦ { s with saved := s.saved.insert name e }

/-- Removes a saved function. -/
def unsave (name : String) : Change Unit := do
  checkAssignable name
  let s ← get
  set { s with saved := s.saved.erase name }
  if (s.saved.get? name).isNone then throw (.unknownReference name)

variable {s : Store} {name : String} {error : RollError}

theorem run_save_of_ok (s : Store) (e : Expression) (h : checkAssignable name = .ok ()) :
    (save name e).run.run s = (.ok (), { s with saved := s.saved.insert name e }) := by
  rw [save, h]
  rfl

theorem run_save_of_error (s : Store) (e : Expression) (h : checkAssignable name = .error error) :
    (save name e).run.run s = (.error error, s) := by
  rw [save, h]
  rfl

theorem run_unsave_of_error (s : Store) (h : checkAssignable name = .error error) :
    (unsave name).run.run s = (.error error, s) := by
  rw [unsave, h]
  rfl

theorem run_unsave_of_ok (s : Store) (h : checkAssignable name = .ok ()) :
    (unsave name).run.run s
      = ((if (s.saved.get? name).isNone then throw (.unknownReference name) else pure () :
          Change Unit).run.run { s with saved := s.saved.erase name }) := by
  rw [unsave, h]
  rfl

theorem run_unsave_of_eq_some {e : Expression} (h : checkAssignable name = .ok ())
    (hsaved : s.saved.get? name = some e) :
    (unsave name).run.run s = (.ok (), { s with saved := s.saved.erase name }) := by
  rw [run_unsave_of_ok s h, hsaved]
  rfl

theorem run_unsave_of_eq_none (h : checkAssignable name = .ok ())
    (hsaved : s.saved.get? name = none) :
    (unsave name).run.run s = (.error (.unknownReference name), s) := by
  rw [run_unsave_of_ok s h, hsaved, Bindings.erase_of_get?_eq_none hsaved]
  rfl

end Store

end DiceNotation
