import DiceNotation.Proofs.Finiteness
import DiceNotation.Proofs.Footprint
import DiceNotation.Proofs.SingleOperations

/-!
# Subtraction

To subtract is to join with the negation. Written out, the negation is an operation of its own: it
is concluded before anything is joined, so it checks the range of its value, and it may leave a step
in the trace. Apart from the trace nothing of this shows as long as what is negated is finite, since
a negation is finite if its operand is.

An operand that is not finite makes a difference. It is refused where it is negated, but text that
something is subtracted from takes up infinite numbers as it does others.
-/

namespace DiceNotation

theorem Value.isFinite_negate {v : Value} (h : v.isFinite = true) : v.negate.isFinite = true := by
  induction v using Value.induction with
  | number x => exact (Binary64.isFinite_neg x.value).trans h
  | list items ih =>
    rw [negate, negateAll_eq_map, isFinite_list, List.forall_mem_map]
    exact fun v hv ↦ ih v hv (isFinite_list.mp h v hv)
  | text s =>
    rw [negate, isFinite_list, codePoints, List.map_map, List.forall_mem_map]
    intro c _
    have hword : c.toNat ≤ UInt64.size := Nat.le_of_lt (Nat.lt_trans c.val.toNat_lt (by decide))
    exact (Binary64.isFinite_neg _).trans (Binary64.isFinite_ofNat hword)

variable {ρ : Type}

/-! ## What is seen of a run

How an operation is concluded does not depend on what is recorded. A negation is finite if its
operand is, and is evaluated to the negated value. -/

namespace Play

/-- What a run has come to apart from its steps and from the reasons of a failure: its result, if it
has one, the source of chance and the variables. -/
def seen {α : Type} (run : Except RollError α × Table ρ) : Option α × ρ × Bindings Expression :=
  (run.1.toOption, run.2.chance, run.2.locals)

theorem seen_conclude (priority : Priority) (code : String) (v : Value) (t : Table ρ) :
    seen ((conclude priority code v).run.run t)
      = (if v.isFinite then some v else none, t.chance, t.locals) := by
  by_cases h : v.isFinite = true
  · obtain ⟨trace, hrun⟩ := run_conclude h priority code t
    rw [hrun, if_pos h]
    rfl
  · have hfailed : (!v.isFinite) = true := by simp [h]
    rw [conclude, if_pos hfailed, if_neg h]
    rfl

end Play

namespace Expression

variable [Chance ρ] (rules : Rules) (depth : Nat) (frames : List (List Expression))

/-- The right operand, which is evaluated behind the left one, has a finite value or none. -/
def HasFiniteRight (left right : Expression) (t : Table ρ) : Prop :=
  ∀ v u w u', (left.evaluate rules depth frames).run.run t = (.ok v, u) →
    (right.evaluate rules depth frames).run.run u = (.ok w, u') → w.isFinite = true

variable {rules depth frames}

theorem run_evaluate_negate {e : Expression} {v : Value} {t u : Table ρ}
    (h : (e.evaluate rules depth frames).run.run t = (.ok v, u)) (hv : v.isFinite = true) :
    ∃ trace, ((prefixed .negate e).evaluate rules depth frames).run.run t
      = (.ok v.negate, { u with trace }) := by
  have happlied : (PrefixOp.apply rules.limit .negate (e.evaluate rules depth frames)).run.run t
      = (.ok v.negate, u) := by
    rw [PrefixOp.apply, Play.run_bind_of_ok h]
    rfl
  rw [evaluate_prefixed]
  exact Play.run_bind_conclude happlied (Value.isFinite_negate hv) _ _

/-- **A subtraction is seen as a join with the negation**, wherever it stands. -/
theorem seen_evaluate_subtract {left right : Expression} {t : Table ρ}
    (h : HasFiniteRight rules depth frames left right t) :
    Play.seen (((binary left .subtract right).evaluate rules depth frames).run.run t)
      = Play.seen (((binary left .join (prefixed .negate right)).evaluate rules depth
          frames).run.run t) := by
  rw [evaluate_binary, evaluate_binary]
  simp only [BinaryOp.apply, BinaryOp.leftOperand]
  rcases hleft : (left.evaluate rules depth frames).run.run t with ⟨error | v, u⟩
  · rw [Play.run_bind_of_error (Play.run_bind_of_error hleft),
      Play.run_bind_of_error (Play.run_bind_of_error hleft)]
  · rcases hright : (right.evaluate rules depth frames).run.run u with ⟨error | w, u'⟩
    · have hnegation : ((prefixed .negate right).evaluate rules depth frames).run.run u
          = (.error error, u') := by
        rw [evaluate_prefixed]
        exact Play.run_bind_of_error (Play.run_bind_of_error hright)
      rw [Play.run_bind_of_error ((Play.run_bind_of_ok hleft).trans
          (Play.run_bind_of_error hright)),
        Play.run_bind_of_error ((Play.run_bind_of_ok hleft).trans
          (Play.run_bind_of_error hnegation))]
    · obtain ⟨trace, hnegation⟩ := run_evaluate_negate hright (h v u w u' hleft hright)
      rw [Play.run_bind_of_ok ((Play.run_bind_of_ok hleft).trans (Play.run_bind_of_ok hright)),
        Play.run_bind_of_ok ((Play.run_bind_of_ok hleft).trans (Play.run_bind_of_ok hnegation)),
        Play.seen_conclude, Play.seen_conclude]

end Expression

/-! ## Sessions

Expressions whose evaluations are seen alike have the same value in a session, if any, and leave the
same session but for the input. -/

namespace Session

variable [Chance ρ]

theorem evaluateExpression_of_seen_eq {s : Session ρ} {e e' : Expression}
    (h : Play.seen ((e.evaluate ⟨s.limit, s.store.saved⟩ 0 s.store.frames).run.run
        ⟨s.chance, s.store.locals, .empty⟩)
      = Play.seen ((e'.evaluate ⟨s.limit, s.store.saved⟩ 0 s.store.frames).run.run
        ⟨s.chance, s.store.locals, .empty⟩)) :
    (s.evaluateExpression e).1.toOption.map (·.value)
        = (s.evaluateExpression e').1.toOption.map (·.value) ∧
      (s.evaluateExpression e).2.chance = (s.evaluateExpression e').2.chance ∧
      ∀ name ≠ inputName, (s.evaluateExpression e).2.store.locals.get? name
        = (s.evaluateExpression e').2.store.locals.get? name := by
  rw [evaluateExpression, evaluateExpression]
  generalize (e.evaluate ⟨s.limit, s.store.saved⟩ 0 s.store.frames).run.run
    ⟨s.chance, s.store.locals, .empty⟩ = run at h
  generalize (e'.evaluate ⟨s.limit, s.store.saved⟩ 0 s.store.frames).run.run
    ⟨s.chance, s.store.locals, .empty⟩ = run' at h
  obtain ⟨outcome, c, b, trace⟩ := run
  obtain ⟨outcome', c', b', trace'⟩ := run'
  obtain ⟨houtcome, hrest⟩ := Prod.mk.inj h
  obtain ⟨rfl, rfl⟩ := Prod.mk.inj hrest
  rcases outcome with error | v <;> rcases outcome' with error' | v'
  · exact ⟨rfl, rfl, fun _ _ ↦ rfl⟩
  · cases houtcome
  · cases houtcome
  · obtain rfl := Option.some.inj houtcome
    refine ⟨rfl, rfl, fun name hname ↦ ?_⟩
    dsimp only
    simp only [Store.get?_setVariable, if_neg hname]

/-- **Subtraction is addition of the negation.** If the right operand is finite, or an operand
fails, a subtraction and the join with the negation both have the same value or both have none. They
leave the same source of chance and the same variables but the one that holds the input. -/
theorem evaluateExpression_subtract (s : Session ρ) (left right : Expression)
    (h : Expression.HasFiniteRight ⟨s.limit, s.store.saved⟩ 0 s.store.frames left right
      ⟨s.chance, s.store.locals, .empty⟩) :
    let difference := s.evaluateExpression (.binary left .subtract right)
    let sum := s.evaluateExpression (.binary left .join (.prefixed .negate right))
    difference.1.toOption.map (·.value) = sum.1.toOption.map (·.value) ∧
      difference.2.chance = sum.2.chance ∧
      ∀ name ≠ inputName,
        difference.2.store.locals.get? name = sum.2.store.locals.get? name :=
  evaluateExpression_of_seen_eq (Expression.seen_evaluate_subtract h)

/-- A list with a text in it is taken from a die. -/
theorem evaluateExpression_subtract_listFromDie :
    let s : Session Script := .start (.ofFaces [5]) 10
    let left : Expression := .prefixed .die (.literal (.ofNat 6))
    let right : Expression := .list [.literal (.ofNat 2), .text "A"]
    let difference := s.evaluateExpression (.binary left .subtract right)
    let sum := s.evaluateExpression (.binary left .join (.prefixed .negate right))
    Expression.HasFiniteRight ⟨s.limit, s.store.saved⟩ 0 s.store.frames left right
        ⟨s.chance, s.store.locals, .empty⟩ ∧
      difference.1.toOption.map (·.value) = sum.1.toOption.map (·.value) ∧
      difference.2.chance = sum.2.chance ∧
      ∀ name ≠ inputName,
        difference.2.store.locals.get? name = sum.2.store.locals.get? name := by
  intro s left right
  have hright : Expression.HasFiniteRight ⟨s.limit, s.store.saved⟩ 0 s.store.frames left right
      ⟨s.chance, s.store.locals, .empty⟩ := by
    intro v u w u' _ hrun
    have hlist : right = .ofValue (.list [.number (.ofNat 2), .text "A"]) := rfl
    rw [hlist, Value.evaluate_ofValue, Play.run_pure_eq_ok_iff] at hrun
    obtain ⟨rfl, -⟩ := hrun
    have htwo : (Binary64.ofNat 2).isFinite = true := Binary64.isFinite_ofNat (by decide)
    rw [Value.isFinite_list, List.forall_mem_cons, List.forall_mem_singleton]
    exact ⟨htwo, rfl⟩
  exact ⟨hright, evaluateExpression_subtract s left right hright⟩

end Session

end DiceNotation
