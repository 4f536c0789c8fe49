import DiceNotation.Proofs.Recursion

/-!
# Single operations

An operation is evaluated in two steps: its operator is applied to the operands, which are evaluated
when it asks for them, and then it is concluded, which checks the range of the value and records the
step. What an operator does with its operands is therefore said of the first step, and carries over
to the evaluation of the operation as it is (`Expression.Performs`).
-/

namespace DiceNotation

variable {ρ α β : Type}

namespace Play

theorem run_bind_of_ok {p : Play ρ α} {f : α → Play ρ β} {t u : Table ρ} {a : α}
    (h : p.run.run t = (.ok a, u)) : (p >>= f).run.run t = (f a).run.run u := by
  rw [run_bind, h]

theorem run_bind_of_error {p : Play ρ α} {f : α → Play ρ β} {t u : Table ρ} {error : RollError}
    (h : p.run.run t = (.error error, u)) : (p >>= f).run.run t = (.error error, u) := by
  rw [run_bind, h]

/-- A play that goes on after another succeeds if both do. -/
theorem run_bind_eq_ok_iff {p : Play ρ α} {f : α → Play ρ β} {t v : Table ρ} {b : β} :
    (p >>= f).run.run t = (.ok b, v) ↔
      ∃ a u, p.run.run t = (.ok a, u) ∧ (f a).run.run u = (.ok b, v) := by
  constructor
  · intro h
    rw [run_bind] at h
    rcases hp : p.run.run t with ⟨error | a, u⟩
    · rw [hp] at h
      cases h
    · rw [hp] at h
      exact ⟨a, u, rfl, h⟩
  · rintro ⟨a, u, hp, hf⟩
    rw [run_bind_of_ok hp, hf]

theorem run_pure_eq_ok_iff {t u : Table ρ} {a b : α} :
    (pure a : Play ρ α).run.run t = (.ok b, u) ↔ a = b ∧ t = u := by
  constructor
  · rintro ⟨⟩
    exact ⟨rfl, rfl⟩
  · rintro ⟨rfl, rfl⟩
    rfl

theorem run_liftExcept_eq_ok_iff {x : Except RollError α} {t u : Table ρ} {a : α} :
    (liftExcept x : Play ρ α).run.run t = (.ok a, u) ↔ x = .ok a ∧ t = u := by
  rcases x with error | b
  · exact iff_of_false nofun nofun
  · rw [Except.ok.injEq]
    exact run_pure_eq_ok_iff

theorem run_requireChoice_eq_ok_iff {limit : Nat} {t u : Table ρ} :
    (requireChoice limit : Play ρ Unit).run.run t = (.ok (), u) ↔ 1 ≤ limit ∧ t = u := by
  unfold requireChoice
  split
  · exact iff_of_false nofun fun h ↦ by omega
  · rw [run_pure_eq_ok_iff, and_iff_right rfl, and_iff_right (by omega)]

/-- A concluded operation has the value that its operator came to. Only the trace has changed. -/
theorem eq_of_run_conclude {priority : Priority} {code : String} {v w : Value} {t u : Table ρ}
    (h : (conclude priority code v).run.run t = (.ok w, u)) :
    w = v ∧ u.chance = t.chance ∧ u.locals = t.locals := by
  unfold Play.conclude at h
  split at h
  · cases h
  · split at h
    · cases h
      exact ⟨rfl, rfl, rfl⟩
    · cases h
      exact ⟨rfl, rfl, rfl⟩

theorem run_conclude {v : Value} (h : v.isFinite = true) (priority : Priority) (code : String)
    (t : Table ρ) :
    ∃ trace, (conclude priority code v).run.run t = (.ok v, { t with trace }) := by
  have hfinite : ¬((!v.isFinite) = true) := by simp [h]
  rw [conclude, if_neg hfinite]
  by_cases hcode : code = v.code
  · rw [if_neg (not_not_intro hcode)]
    exact ⟨t.trace, rfl⟩
  · rw [if_pos hcode]
    exact ⟨_, rfl⟩

theorem run_bind_conclude {p : Play ρ Value} {v : Value} {t u : Table ρ}
    (h : p.run.run t = (.ok v, u)) (hv : v.isFinite = true) (priority : Priority) (code : String) :
    ∃ trace, (p >>= conclude priority code).run.run t = (.ok v, { u with trace }) := by
  rw [run_bind_of_ok h]
  exact run_conclude hv priority code u

/-- A play that has been concluded came to the value itself. -/
theorem exists_of_run_bind_conclude {p : Play ρ Value} {priority : Priority} {code : String}
    {v : Value} {t u : Table ρ} (h : (p >>= conclude priority code).run.run t = (.ok v, u)) :
    ∃ u', p.run.run t = (.ok v, u') ∧ u.chance = u'.chance ∧ u.locals = u'.locals := by
  obtain ⟨w, u', hp, hconcluded⟩ := run_bind_eq_ok_iff.mp h
  obtain ⟨rfl, hchance, hlocals⟩ := eq_of_run_conclude hconcluded
  exact ⟨u', hp, hchance, hlocals⟩

end Play

variable [Chance ρ]

/-- The operator of a binary operation comes to a value and leaves a table, and with this value the
operation is concluded on that table. -/
structure Expression.Performs (rules : Rules) (depth : Nat) (frames : List (List Expression))
    (left : Expression) (op : BinaryOp) (right : Expression) (t : Table ρ) (v : Value)
    (u : Table ρ) : Prop where
  applied : (op.apply rules.limit ((op.leftOperand left).evaluate rules depth frames)
    (right.evaluate rules depth frames)).run.run t = (.ok v, u)
  concluded : ((binary left op right).evaluate rules depth frames).run.run t =
    (Play.conclude op.priority (code (binary left op right)) v).run.run u

namespace Expression.Performs

variable {rules : Rules} {depth : Nat} {frames : List (List Expression)}
  {left right : Expression} {op : BinaryOp} {t u : Table ρ} {v : Value}

theorem of_applied (h : (op.apply rules.limit ((op.leftOperand left).evaluate rules depth frames)
    (right.evaluate rules depth frames)).run.run t = (.ok v, u)) :
    Performs rules depth frames left op right t v u := by
  refine ⟨h, ?_⟩
  rw [evaluate_binary, Play.run_bind_of_ok h]

theorem unique {u' : Table ρ} {v' : Value} (h : Performs rules depth frames left op right t v u)
    (h' : Performs rules depth frames left op right t v' u') : v = v' ∧ u = u' := by
  obtain ⟨⟨⟩, rfl⟩ := Prod.mk.inj (h.applied.symm.trans h'.applied)
  exact ⟨rfl, rfl⟩

theorem of_evaluate (h : ((binary left op right).evaluate rules depth frames).run.run t
    = (.ok v, u)) : ∃ u', Performs rules depth frames left op right t v u' ∧
      u.chance = u'.chance ∧ u.locals = u'.locals := by
  rw [evaluate_binary] at h
  obtain ⟨u', happlied, hkept⟩ := Play.exists_of_run_bind_conclude h
  exact ⟨u', .of_applied happlied, hkept⟩

end Expression.Performs

end DiceNotation
