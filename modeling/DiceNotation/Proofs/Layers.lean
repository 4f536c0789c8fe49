import DiceNotation.Store

/-!
# A store and its history

What a name stands for in a store can be told from what has been done to it. The history of a store
is the list of all that was tried, each act with how it came out, the latest first. A variable
stands for what the latest act about it has left there, and so does a saved function; an act that
was refused is not about anything. Over both layers there are the built-in dice.

The history is written without the store, since it knows by itself which acts are refused: names
that cannot be assigned never come to stand for anything, and a function can be removed if the
history says that it is saved. So the history is a second account of a store, and the two never
disagree (`run_recounts`). The open calls have no part in it: no name refers to them.
-/

namespace DiceNotation

namespace Store

/-! ## Acts -/

/-- Something that is done to a store, or tried. -/
inductive Act where
  | save (name : String) (e : Expression)
  | unsave (name : String)
  | setVariable (name : String) (e : Expression)
  /-- Gives a variable the expression of a value. -/
  | setValue (name : String) (v : Value)
  | clearVariable (name : String)
  | pushFrame (arguments : List Expression)
  | popFrame

/-- How an act comes out, and the store behind it. -/
def Act.perform (s : Store) : Act → Except RollError Unit × Store
  | .save name e => (Store.save name e).run.run s
  | .unsave name => (Store.unsave name).run.run s
  | .setVariable name e => (.ok (), s.setVariable name e)
  | .setValue name v => (.ok (), s.setVariable name (.ofValue v))
  | .clearVariable name => (.ok (), s.clearVariable name)
  | .pushFrame arguments => (.ok (), s.pushFrame arguments)
  | .popFrame => (.ok (), s.popFrame)

/-- How acts come out one after the other, and the store behind them. -/
def run (s : Store) : List Act → List (Except RollError Unit) × Store
  | [] => ([], s)
  | a :: acts =>
    let (outcome, s) := a.perform s
    let (outcomes, s) := run s acts
    (outcome :: outcomes, s)

end Store

/-! ## Histories -/

/-- An act and how it came out. -/
structure Entry where
  act : Store.Act
  outcome : Except RollError Unit

namespace Entry

/-- What a variable comes to stand for if the entry is about it. -/
def onVariable (name : String) (entry : Entry) : Option (Option Expression) :=
  match entry.act with
  | .setVariable other e => if other = name then some (some e) else none
  | .setValue other v => if other = name then some (some (.ofValue v)) else none
  | .clearVariable other => if other = name then some none else none
  | _ => none

/-- What a saved function comes to stand for if the entry is about it. -/
def onFunction (name : String) (entry : Entry) : Option (Option Expression) :=
  match entry.act, entry.outcome with
  | .save other e, .ok () => if other = name then some (some e) else none
  | .unsave other, .ok () => if other = name then some none else none
  | _, _ => none

end Entry

/-- What has been done to a store, the latest first. -/
abbrev History := List Entry

namespace History

/-- What the latest entry that is about something has left there. -/
def latest (about : Entry → Option (Option Expression)) (past : History) : Option Expression :=
  (past.findSome? about).join

/-- The expression that rolls a die. -/
def die (sides : Nat) : Expression := .prefixed .die (.literal (.ofNat sides))

/-- The expression that a name stands for: a die or a coin that is built in, else the variable, else
the saved function. -/
def resolve (past : History) (name : String) : Except RollError Expression :=
  if name = "!d" then .ok (die 6)
  else if name = "!c" then .ok (die 2)
  else
    match past.latest (Entry.onVariable name) with
    | some e => .ok e
    | none =>
      match past.latest (Entry.onFunction name) with
      | some e => .ok e
      | none => .error (.unknownReference name)

/-- How an act has to come out behind a history. -/
def outcome (past : History) : Store.Act → Except RollError Unit
  | .save name _ => Store.checkAssignable name
  | .unsave name => do
    Store.checkAssignable name
    if (past.latest (Entry.onFunction name)).isNone then throw (.unknownReference name)
  | _ => .ok ()

/-- A history with one more act. -/
def add (past : History) (a : Store.Act) : History := ⟨a, past.outcome a⟩ :: past

/-- How acts have to come out behind a history. -/
def outcomes (past : History) : List Store.Act → List (Except RollError Unit)
  | [] => []
  | a :: acts => past.outcome a :: outcomes (past.add a) acts

theorem latest_cons (about : Entry → Option (Option Expression)) (entry : Entry)
    (past : History) : latest about (entry :: past) = (about entry).getD (past.latest about) := by
  unfold latest
  rw [List.findSome?_cons]
  rcases about entry with _ | _
  · rfl
  · rfl

end History

/-! ## Changes to a layer

A refused act changes nothing. Otherwise a variable is what an act about it has left there, and what
it was if the act is about something else; a saved function likewise. -/

namespace Store

theorem checkAssignable_eq_ok_iff {name : String} :
    checkAssignable name = .ok () ↔
      Blank.trim name.toList ≠ [] ∧ parameter? name = none ∧ builtIn? name = none := by
  unfold checkAssignable
  split
  · next h => simp [List.isEmpty_iff.mp h]
  · next h =>
    have htrim : Blank.trim name.toList ≠ [] := fun hnil ↦ h (List.isEmpty_iff.mpr hnil)
    split
    · next h => simp [Option.isSome_iff_ne_none.mp h]
    · next h =>
      have hparameter : parameter? name = none := by simpa using h
      split
      · next h => simp [Option.isSome_iff_ne_none.mp h]
      · next h =>
        have hbuiltIn : builtIn? name = none := by simpa using h
        simp [htrim, hparameter, hbuiltIn]

variable {s : Store} {name : String}

theorem perform_save (s : Store) (name : String) (e : Expression) :
    (checkAssignable name = .ok () ∧
        Act.perform s (.save name e) = (.ok (), { s with saved := s.saved.insert name e })) ∨
      ∃ error, checkAssignable name = .error error ∧
        Act.perform s (.save name e) = (.error error, s) := by
  rcases hname : checkAssignable name with error | ⟨⟩
  · exact Or.inr ⟨error, rfl, run_save_of_error s e hname⟩
  · exact Or.inl ⟨rfl, run_save_of_ok s e hname⟩

theorem perform_unsave (s : Store) (name : String) :
    (checkAssignable name = .ok () ∧ (∃ e, s.saved.get? name = some e) ∧
        Act.perform s (.unsave name) = (.ok (), { s with saved := s.saved.erase name })) ∨
      (checkAssignable name = .ok () ∧ s.saved.get? name = none ∧
        Act.perform s (.unsave name) = (.error (.unknownReference name), s)) ∨
      ∃ error, checkAssignable name = .error error ∧
        Act.perform s (.unsave name) = (.error error, s) := by
  rcases hname : checkAssignable name with error | ⟨⟩
  · exact Or.inr (Or.inr ⟨error, rfl, run_unsave_of_error s hname⟩)
  · rcases hsaved : s.saved.get? name with _ | e
    · exact Or.inr (Or.inl ⟨rfl, rfl, run_unsave_of_eq_none hname hsaved⟩)
    · exact Or.inl ⟨rfl, ⟨e, rfl⟩, run_unsave_of_eq_some hname hsaved⟩

theorem perform_of_error {a : Act} {error : RollError} (h : (a.perform s).1 = .error error) :
    (a.perform s).2 = s := by
  cases a with
  | save name e =>
    rcases perform_save s name e with ⟨-, hperform⟩ | ⟨_, -, hperform⟩
    · rw [hperform] at h
      cases h
    · rw [hperform]
  | unsave name =>
    rcases perform_unsave s name with ⟨-, -, hperform⟩ | ⟨-, -, hperform⟩ | ⟨_, -, hperform⟩
    · rw [hperform] at h
      cases h
    · rw [hperform]
    · rw [hperform]
  | _ => cases h

theorem get?_insert_eq_getD (b : Bindings Expression) (name other : String) (e : Expression) :
    (b.insert other e).get? name
      = (if other = name then some (some e) else none).getD (b.get? name) := by
  rw [Bindings.get?_insert]
  by_cases h : other = name
  · rw [if_pos h.symm, if_pos h]
    rfl
  · rw [if_neg (Ne.symm h), if_neg h]
    rfl

theorem get?_erase_eq_getD (b : Bindings Expression) (name other : String) :
    (b.erase other).get? name
      = (if other = name then some none else none).getD (b.get? name) := by
  rw [Bindings.get?_erase]
  by_cases h : other = name
  · rw [if_pos h.symm, if_pos h]
    rfl
  · rw [if_neg (Ne.symm h), if_neg h]
    rfl

theorem get?_locals_perform (s : Store) (a : Act) (outcome : Except RollError Unit)
    (name : String) : (a.perform s).2.locals.get? name
      = (Entry.onVariable name ⟨a, outcome⟩).getD (s.locals.get? name) := by
  cases a with
  | save other e =>
    rcases perform_save s other e with ⟨-, hperform⟩ | ⟨_, -, hperform⟩ <;> rw [hperform] <;> rfl
  | unsave other =>
    rcases perform_unsave s other with ⟨-, -, hperform⟩ | ⟨-, -, hperform⟩ | ⟨_, -, hperform⟩ <;>
      rw [hperform] <;> rfl
  | setVariable other e => exact get?_insert_eq_getD s.locals name other e
  | setValue other v => exact get?_insert_eq_getD s.locals name other (.ofValue v)
  | clearVariable other => exact get?_erase_eq_getD s.locals name other
  | pushFrame arguments => rfl
  | popFrame => rfl

theorem get?_saved_perform (s : Store) (a : Act) (name : String) :
    (a.perform s).2.saved.get? name
      = (Entry.onFunction name ⟨a, (a.perform s).1⟩).getD (s.saved.get? name) := by
  cases a with
  | save other e =>
    rcases perform_save s other e with ⟨-, hperform⟩ | ⟨_, -, hperform⟩ <;> rw [hperform]
    · exact get?_insert_eq_getD s.saved name other e
    · rfl
  | unsave other =>
    rcases perform_unsave s other with ⟨-, -, hperform⟩ | ⟨-, -, hperform⟩ | ⟨_, -, hperform⟩ <;>
      rw [hperform]
    · exact get?_erase_eq_getD s.saved name other
    · rfl
    · rfl
  | _ => rfl

/-- Every function is saved under a name that could be assigned. -/
def SavesAssignable (s : Store) : Prop :=
  ∀ name e, s.saved.get? name = some e → checkAssignable name = .ok ()

theorem SavesAssignable.perform (h : s.SavesAssignable) (a : Act) :
    (a.perform s).2.SavesAssignable := by
  cases a with
  | save other e =>
    rcases perform_save s other e with ⟨hother, hperform⟩ | ⟨_, -, hperform⟩
    · rw [hperform]
      intro name e' hsaved
      by_cases hname : name = other
      · exact hname ▸ hother
      · rw [Bindings.get?_insert, if_neg hname] at hsaved
        exact h name e' hsaved
    · rw [hperform]
      exact h
  | unsave other =>
    rcases perform_unsave s other with ⟨-, -, hperform⟩ | ⟨-, -, hperform⟩ | ⟨_, -, hperform⟩
    · rw [hperform]
      intro name e hsaved
      rw [Bindings.get?_erase] at hsaved
      split at hsaved
      · cases hsaved
      · exact h name e hsaved
    · rw [hperform]
      exact h
    · rw [hperform]
      exact h
  | _ => exact h

end Store

/-! ## The two accounts

An act comes out as the history says, and keeps the two accounts together. -/

/-- The history tells what names stand for in the store. -/
structure History.Recounts (past : History) (s : Store) : Prop where
  locals : ∀ name, s.locals.get? name = past.latest (Entry.onVariable name)
  saved : ∀ name, s.saved.get? name = past.latest (Entry.onFunction name)
  assignable : s.SavesAssignable

namespace History.Recounts

variable {past : History} {s : Store}

theorem empty : Recounts [] Store.empty where
  locals _ := rfl
  saved _ := rfl
  assignable := by rintro name e ⟨⟩

theorem outcome_eq (h : Recounts past s) (a : Store.Act) :
    (a.perform s).1 = past.outcome a := by
  cases a with
  | save name e =>
    rw [History.outcome]
    rcases Store.perform_save s name e with ⟨hname, hperform⟩ | ⟨_, hname, hperform⟩ <;>
      rw [hperform, hname]
  | unsave name =>
    rw [History.outcome, ← h.saved]
    rcases Store.perform_unsave s name with
      ⟨hname, ⟨e, hsaved⟩, hperform⟩ | ⟨hname, hsaved, hperform⟩ | ⟨_, hname, hperform⟩
    · rw [hperform, hname, hsaved]
      rfl
    · rw [hperform, hname, hsaved]
      rfl
    · rw [hperform, hname]
      rfl
  | _ => rfl

/-- Acts keep the two accounts together. -/
theorem perform (h : Recounts past s) (a : Store.Act) :
    Recounts (past.add a) (a.perform s).2 where
  locals name := by
    rw [Store.get?_locals_perform s a (past.outcome a), h.locals]
    exact (History.latest_cons _ _ _).symm
  saved name := by
    rw [Store.get?_saved_perform, h.outcome_eq, h.saved]
    exact (History.latest_cons _ _ _).symm
  assignable := h.assignable.perform a

theorem run (h : Recounts past s) (acts : List Store.Act) :
    (s.run acts).1 = past.outcomes acts ∧
      Recounts (acts.foldl History.add past) (s.run acts).2 := by
  induction acts generalizing past s with
  | nil => exact ⟨rfl, h⟩
  | cons a acts ih =>
    obtain ⟨houtcomes, hrecounts⟩ := ih (h.perform a)
    refine ⟨?_, hrecounts⟩
    rw [History.outcomes, ← houtcomes, ← h.outcome_eq]
    rfl

theorem resolve_eq (h : Recounts past s) (name : String) :
    Store.resolve s.saved s.locals name = past.resolve name := by
  rw [Store.resolve, History.resolve, builtIn?, h.locals, h.saved]
  by_cases hdie : name = "!d"
  · rw [if_pos hdie, if_pos hdie]
    rfl
  · rw [if_neg hdie, if_neg hdie]
    by_cases hcoin : name = "!c"
    · rw [if_pos hcoin, if_pos hcoin]
      rfl
    · rewrite [if_neg hcoin, if_neg hcoin]
      rfl

end History.Recounts

/-- **The store is a layered map.** Whatever is done to a new store, every act comes out as the
history says, and every name stands for what the history says: a built-in die, else what was last
written to the variable and not cleared since, else the function that was last saved and not removed
since, else nothing. An act that is refused would leave the store as it is, and no function is ever
saved under a name that is blank, a parameter or built in. -/
theorem Store.run_recounts (acts : List Act) :
    let past : History := acts.foldl History.add []
    let s := (empty.run acts).2
    (empty.run acts).1 = History.outcomes [] acts ∧
      (∀ name, resolve s.saved s.locals name = past.resolve name) ∧
      (∀ a error, (Act.perform s a).1 = .error error → (Act.perform s a).2 = s) ∧
      ∀ name e, s.saved.get? name = some e →
        Blank.trim name.toList ≠ [] ∧ parameter? name = none ∧ builtIn? name = none := by
  intro past s
  obtain ⟨houtcomes, hrecounts⟩ := History.Recounts.empty.run acts
  refine ⟨houtcomes, hrecounts.resolve_eq, fun a error h ↦ perform_of_error h, ?_⟩
  intro name e hsaved
  exact checkAssignable_eq_ok_iff.mp (hrecounts.assignable name e hsaved)

-- A function that is saved behind a variable comes out when the variable is cleared. Nothing is
-- saved under a parameter.
example :
    let s := (Store.empty.run [.save "f" (.text "a"), .setVariable "f" (.text "b"),
      .save "f" (.text "c"), .save "1" (.text "d"), .clearVariable "f"]).2
    Store.resolve s.saved s.locals "f" = .ok (.text "c") ∧ s.saved.get? "1" = none :=
  ⟨rfl, rfl⟩

end DiceNotation
