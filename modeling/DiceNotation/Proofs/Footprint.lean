import DiceNotation.Proofs.CallStack
import DiceNotation.Session

/-!
# The footprint of an evaluation

What an input changes in a session besides its source of chance: the variables that operators set,
and if it has a value, the two variables that hold the input and the value. The limit, the saved
functions and the open calls are what they were before, and so is every other variable, wherever
an evaluation may have failed.

A session tells an evaluation which calls are open and does not ask for them back. So that there is
something to be restored, `executeExpression` evaluates on the call stack and takes the calls that
the evaluation leaves open into the session.
-/

namespace DiceNotation

variable {ρ : Type}

/-! ## Variables -/

/-- The variables are those of `b`, except perhaps the ones that operators set. -/
def Bindings.KeptFrom (b locals : Bindings Expression) : Prop :=
  ∀ name ∉ Play.operatorNames, locals.get? name = b.get? name

theorem Store.get?_setVariable (s : Store) (name other : String) (e : Expression) :
    (s.setVariable name e).locals.get? other
      = if other = name then some e else s.locals.get? other :=
  Bindings.get?_insert s.locals name other e

/-- A table next to itself, with the variables of `b`. -/
structure Table.Kept (b : Bindings Expression) (t u : Table ρ) : Prop where
  eq : u = t
  locals : b.KeptFrom t.locals

theorem Table.Kept.coupling [Chance ρ] (b : Bindings Expression) :
    Play.Coupling Eq Eq (Table.Kept (ρ := ρ) b) where
  likeness := .eq
  alike := .eq
  chance h := by rw [h.eq]
  withChance := by
    rintro t _ c _ ⟨rfl, h⟩ rfl
    exact ⟨rfl, h⟩
  -- A variable that no operator sets is another one than the one that is set.
  insert := by
    rintro t _ name v _ rfl hname ⟨rfl, h⟩
    refine ⟨rfl, fun other hother ↦ ?_⟩
    have hne : other ≠ name := fun heq ↦ hother (heq ▸ hname)
    rw [Bindings.get?_insert, if_neg hne, h other hother]
  erase := by
    rintro t _ name hname ⟨rfl, h⟩
    refine ⟨rfl, fun other hother ↦ ?_⟩
    have hne : other ≠ name := fun heq ↦ hother (heq ▸ hname)
    rw [Bindings.get?_erase, if_neg hne, h other hother]

/-- However an evaluation ends, only variables that operators set have changed. -/
theorem Expression.keptFrom_evaluate [Chance ρ] (rules : Rules) (depth : Nat)
    (frames : List (List Expression)) (e : Expression) (t : Table ρ) :
    t.locals.KeptFrom ((e.evaluate rules depth frames).run.run t).2.locals := by
  let locals := t.locals
  have hrecord : ∀ step (t u : Table ρ), Table.Kept locals t u →
      Table.Kept locals { t with trace := t.trace.push step }
        { u with trace := u.trace.push step } := by
    rintro step t _ ⟨rfl, h⟩
    exact ⟨rfl, h⟩
  have hfollows : Play.Follows (Table.Kept locals) (fun _ ↦ False) Eq
      (e.evaluate rules depth frames : Play ρ Value) fun _ ↦ e.evaluate rules depth frames :=
    (Table.Kept.coupling locals).evaluate (fun _ _ h ↦ by rw [h.eq]) hrecord rules depth frames e
  exact (Play.follows_iff.mp hfollows t t ⟨rfl, fun _ _ ↦ rfl⟩).2.locals

/-! ## Sessions -/

namespace Session

/-- What a session keeps when an expression is evaluated in it. -/
structure Footprint (s : Session ρ) (e : Expression) (outcome : Except RollError Evaluation)
    (s' : Session ρ) : Prop where
  limit : s'.limit = s.limit
  frames : s'.store.frames = s.store.frames
  saved : s'.store.saved = s.store.saved
  /-- After a failure, all variables are what they were but those that operators set. -/
  failed : ∀ error, outcome = .error error →
    ∀ name ∉ Play.operatorNames, s'.store.locals.get? name = s.store.locals.get? name
  /-- After a success, so are they but for the input and its value. -/
  succeeded : ∀ r, outcome = .ok r →
    s'.store.locals.get? inputName = some e ∧
      s'.store.locals.get? valueName = some (.ofValue r.value) ∧
      ∀ name ∉ inputName :: valueName :: Play.operatorNames,
        s'.store.locals.get? name = s.store.locals.get? name

variable [Chance ρ]

/-- Evaluates an expression on the call stack in so many rounds, and keeps the calls that are open
in the end. -/
def executeExpression (rounds : Nat) (s : Session ρ) (e : Expression) :
    Except RollError Evaluation × Session ρ :=
  let table : Table ρ := ⟨s.chance, s.store.locals, .empty⟩
  let (outcome, table) := (e.execute ⟨s.limit, s.store.saved⟩ rounds).run.run
    (table.stacked s.store.frames 0 [])
  let store : Store := ⟨s.store.saved, table.locals, table.chance.frames⟩
  match outcome with
  | .error error => (.error error, { s with chance := table.chance.chance, store })
  | .ok v =>
    (.ok ⟨e, v, table.trace⟩,
      { s with
        chance := table.chance.chance
        store := (store.setVariable inputName e).setVariable valueName (.ofValue v) })

/-- On the call stack, an expression has the same value and leaves the same session. -/
theorem executeExpression_eq (s : Session ρ) (e : Expression) :
    ∃ n, ∀ m ≥ n, s.executeExpression m e = s.evaluateExpression e := by
  obtain ⟨visited, -, n, hn⟩ := Expression.run_execute ⟨s.limit, s.store.saved⟩
    (Nat.zero_le deepest) (Nat.le_refl s.store.frames.length)
    (fun _ h ↦ absurd h List.not_mem_nil) (⟨s.chance, s.store.locals, .empty⟩ : Table ρ) e
  refine ⟨n, fun m hm ↦ ?_⟩
  rw [executeExpression, evaluateExpression, hn m hm]
  rfl

theorem footprint_evaluateExpression (s : Session ρ) (e : Expression) :
    Footprint s e (s.evaluateExpression e).1 (s.evaluateExpression e).2 := by
  have hkept := e.keptFrom_evaluate ⟨s.limit, s.store.saved⟩ 0 s.store.frames
    ⟨s.chance, s.store.locals, .empty⟩
  rw [evaluateExpression]
  generalize (e.evaluate ⟨s.limit, s.store.saved⟩ 0 s.store.frames).run.run
    ⟨s.chance, s.store.locals, .empty⟩ = run at hkept
  obtain ⟨error | v, table⟩ := run
  · refine ⟨rfl, rfl, rfl, fun _ _ ↦ hkept, ?_⟩
    rintro r ⟨⟩
  · refine ⟨rfl, rfl, rfl, ?_, ?_⟩
    · rintro error ⟨⟩
    · rintro r ⟨⟩
      -- The value is stored last, but under another name than the input.
      have hne : inputName ≠ valueName := by decide
      dsimp only
      simp only [Store.get?_setVariable]
      refine ⟨?_, if_pos trivial, fun name hname ↦ ?_⟩
      · rw [if_neg hne, if_pos trivial]
      · simp only [List.mem_cons, not_or] at hname
        obtain ⟨hinput, hvalue, hname⟩ := hname
        rw [if_neg hvalue, if_neg hinput]
        exact hkept name hname

/-- **The footprint of an input.** An expression leaves the session alone but for the source of
chance, the variables that operators set and, if it has a value, the input and the value; on the
call stack it does so as well, from some number of rounds on. An input that cannot be read leaves
it alone altogether. -/
theorem evaluate_footprint (s : Session ρ) :
    (∀ e, Footprint s e (s.evaluateExpression e).1 (s.evaluateExpression e).2 ∧
      ∃ n, ∀ m ≥ n, s.executeExpression m e = s.evaluateExpression e) ∧
    ∀ source, match Expression.read source with
      | .error e => s.evaluate source = (.error (.read e), s)
      | .ok e => Footprint s e (s.evaluate source).1 (s.evaluate source).2 := by
  refine ⟨fun e ↦ ⟨footprint_evaluateExpression s e, executeExpression_eq s e⟩, fun source ↦ ?_⟩
  rw [evaluate]
  cases Expression.read source with
  | error e => rfl
  | ok e => exact footprint_evaluateExpression s e

end Session

end DiceNotation
