import DiceNotation.Proofs.Recall
import DiceNotation.Proofs.WrittenValues

/-!
# Values kept in variables

A session keeps values in variables, each as the expression that it is written as. To refer to the
variable is to evaluate this expression, one level deeper than the reference: it holds nothing but
literals, texts and lists of them, and so it comes to the value itself, with the potential of each
number, wherever the reference stands. No number is looked at on the way, not even to see whether it
is finite, and nothing is rolled.

The last value is kept in this way, so that it can be recalled over and over again. Each time it is
kept anew, but it does not change.
-/

namespace DiceNotation

variable {ρ : Type} [Chance ρ]

/-- A variable that holds a value is evaluated to it, without doing anything, unless references are
nested too deep already. -/
theorem Expression.run_evaluate_stored {name : String} (hname : parameter? name = none)
    (hbuiltIn : builtIn? name = none) {v : Value} {t : Table ρ}
    (h : t.locals.get? name = some (.ofValue v)) (rules : Rules) {depth : Nat}
    (hdepth : depth < deepest) (frames : List (List Expression)) :
    ((reference name).evaluate rules depth frames).run.run t = (.ok v, t) := by
  have hresolve : (Play.resolve rules name).run.run t = (.ok (.ofValue v), t) := by
    rw [Play.run_resolve, Store.resolve_of_get?_locals hbuiltIn h]
  rw [evaluate_reference _ _ _ hname, Play.run_bind_of_ok hresolve, evaluateNested,
    if_pos hdepth, Value.evaluate_ofValue]
  rfl

namespace Session

theorem evaluateExpression_of_get?_locals {s : Session ρ} {name : String} {v : Value}
    (hname : parameter? name = none) (hbuiltIn : builtIn? name = none)
    (h : s.store.locals.get? name = some (.ofValue v)) :
    s.evaluateExpression (.reference name)
      = (.ok ⟨.reference name, v, .empty⟩, s.keep (.reference name) v) :=
  evaluateExpression_of_run
    (Expression.run_evaluate_stored hname hbuiltIn h _ (by decide) s.store.frames)

/-- **Stored values come back.** A value and the expression that it is kept as are written alike. A
session in which a variable has been given the value evaluates a reference to the variable to
exactly this value, without a step and without a draw, whatever its limit is. -/
theorem evaluateExpression_stored (v : Value) :
    (Expression.ofValue v).code = v.code ∧
    ∀ name, parameter? name = none → name ≠ "!d" → name ≠ "!c" →
      ∀ {ρ : Type} [Chance ρ] (s : Session ρ),
        let stored := { s with store := s.store.setVariable name (.ofValue v) }
        stored.evaluateExpression (.reference name)
          = (.ok ⟨.reference name, v, .empty⟩, stored.keep (.reference name) v) := by
  refine ⟨Expression.code_ofValue v, fun name hname hdie hcoin _ _ s ↦ ?_⟩
  have hbuiltIn : builtIn? name = none := by rw [builtIn?, if_neg hdie, if_neg hcoin]
  refine evaluateExpression_of_get?_locals hname hbuiltIn ?_
  rw [Store.get?_setVariable, if_pos rfl]

/-- A list of no number and of an infinite one with another potential is kept in a variable with a
brace in its name, in a session that allows no draws. -/
theorem evaluateExpression_stored_infinite :
    let v : Value := .list [.number ⟨.nan, 6⟩, .list [.number ⟨.infinite true, 0⟩, .text "\x7d"]]
    let s : Session Script := .start (.ofFaces [1]) 0
    let stored := { s with store := s.store.setVariable "\x7d0" (.ofValue v) }
    parameter? "\x7d0" = none ∧ "\x7d0" ≠ "!d" ∧ "\x7d0" ≠ "!c" ∧
      (Expression.ofValue v).code = v.code ∧
      stored.evaluateExpression (.reference "\x7d0")
        = (.ok ⟨.reference "\x7d0", v, .empty⟩, stored.keep (.reference "\x7d0") v) := by
  intro v s stored
  have hname : parameter? "\x7d0" = none := by decide
  have hdie : "\x7d0" ≠ "!d" := by decide
  have hcoin : "\x7d0" ≠ "!c" := by decide
  obtain ⟨hcode, hstored⟩ := evaluateExpression_stored v
  exact ⟨hname, hdie, hcoin, hcode, hstored _ hname hdie hcoin s⟩

/-! ## The last value -/

/-- The source that recalls the last value. -/
def answering : String := "\x7b_ans\x7d"

theorem evaluate_answer {s : Session ρ} {v : Value}
    (h : s.store.locals.get? valueName = some (.ofValue v)) :
    s.evaluate answering
      = (.ok ⟨.reference valueName, v, .empty⟩, s.keep (.reference valueName) v) := by
  have hread : Expression.read answering = .ok (.reference valueName) := by
    rw [Expression.read, Expression.readAt_eq]
    rfl
  rw [evaluate, hread]
  exact evaluateExpression_of_get?_locals (by decide) (by decide) h

theorem evaluateEach_answer_of_get? {s : Session ρ} {v : Value}
    (h : s.store.locals.get? valueName = some (.ofValue v)) (n : Nat) :
    (s.evaluateEach (List.replicate n answering)).1
      = List.replicate n (.ok ⟨.reference valueName, v, .empty⟩) := by
  -- Each recall keeps another input, so the induction is for every session that holds the value.
  induction n generalizing s with
  | zero => rfl
  | succ n ih =>
    rw [List.replicate_succ, evaluateEach_cons, evaluate_answer h, List.replicate_succ]
    exact congrArg _ (ih (get?_valueName_keep s _ v))

/-- **The last value can be recalled again and again.** Whatever the input was that had it, every
recall has exactly the same value, without a step. -/
theorem evaluateEach_answer {s s' : Session ρ} {e : Expression} {r : Evaluation}
    (h : s.evaluateExpression e = (.ok r, s')) (n : Nat) :
    (s'.evaluateEach (List.replicate n answering)).1
      = List.replicate n (.ok ⟨.reference valueName, r.value, .empty⟩) := by
  refine evaluateEach_answer_of_get? ?_ n
  rcases hrun : (e.evaluate ⟨s.limit, s.store.saved⟩ 0 s.store.frames).run.run
    ⟨s.chance, s.store.locals, .empty⟩ with ⟨error | v, t⟩
  · rw [evaluateExpression, hrun] at h
    cases h
  · rw [evaluateExpression, hrun] at h
    obtain ⟨hr, rfl⟩ := Prod.mk.inj h
    obtain rfl := Except.ok.inj hr
    rw [Store.get?_setVariable, if_pos rfl]

end Session

end DiceNotation
