import DiceNotation.Proofs.Limits
import DiceNotation.Proofs.RepeatedRolls

/-!
# The last die

A die that meets its cutoff is kept in a variable. Every operation that rolls until a number is met
clears this variable first, then evaluates its operands and only then rolls, so the variable holds
the die that ended its own rolls as long as one did. If the limit did, the variable is as the
operands have left it: it holds the die of another operation if one of that kind has been evaluated
among them, last and with success. Where there is none the variable belongs to the operation alone.

That nothing else sets the variable is a relation between tables that evaluation keeps
(`Table.Unrolled`).
-/

namespace DiceNotation

variable {ρ : Type}

/-! ## Evaluations that do not roll until a number is met

What is left of a list is kept in another variable, and no other operator sets one. However such an
evaluation ends, no die is kept. -/

/-- A table next to itself, on which no die is kept and in whose variables none is rolled until it
meets a number. -/
structure Table.Unrolled (t u : Table ρ) : Prop where
  twin : Twin Expression.IsCounted (fun _ ↦ True) t u
  unset : t.locals.get? Dice.lastName = none

namespace Table.Unrolled

theorem record (step : Trace.Step) (t u : Table ρ) (h : Unrolled t u) :
    Unrolled { t with trace := t.trace.push step } { u with trace := u.trace.push step } :=
  ⟨h.twin.record step, h.unset⟩

variable [Chance ρ]

theorem drawing : Play.Drawing (ρ := ρ) Eq Eq Unrolled where
  likeness := .eq
  alike := .eq
  chance h := by rw [h.twin.eq]
  withChance := by
    rintro t _ c _ ⟨htwin, hunset⟩ rfl
    exact ⟨(Twin.coupling Expression.isCounted_ofValue).withChance htwin rfl, hunset⟩

theorem setVariable_leftName {excused : RollError → Prop} (v : Value) :
    Play.Follows (Unrolled (ρ := ρ)) excused Eq (Play.setVariable Pick.leftName v)
      fun _ ↦ Play.setVariable Pick.leftName v := by
  intro t u h
  have htwin := (Twin.coupling Expression.isCounted_ofValue).insert (v := v) rfl
    (List.mem_cons_of_mem _ List.mem_cons_self) h.twin
  refine Or.inr ⟨_, _, .ok rfl, ⟨htwin, ?_⟩, 0, fun _ _ ↦ rfl⟩
  have hne : Dice.lastName ≠ Pick.leftName := by decide
  exact (Bindings.get?_insert _ _ _ _).trans ((if_neg hne).trans h.unset)

/-- Evaluation does not keep a die as long as it rolls none until that meets a number. -/
theorem correspondence {rules : Rules} (hsaved : rules.saved.Everywhere Expression.IsCounted)
    {excused : RollError → Prop} :
    Play.Correspondence (ρ := ρ) Expression.IsCounted rules rules Unrolled excused Eq where
  literal _ := rfl
  list := Play.Likeness.eq.list
  text _ := rfl
  resolve _ _ _ := .resolve fun _ _ h ↦
    h.twin.matches_resolve hsaved Expression.everywhere_isCounted_die _
  prefixed {op} _ _ _ _ h :=
    (drawing.prefixOp op h).bind_eq fun _ ↦ .conclude .eq record _ _ rfl
  binary {op _ _ p p' q q'} he h h' := by
    have hop : Play.Follows Unrolled excused Eq (op.apply rules.limit p p')
        fun n ↦ op.apply rules.limit (q n) (q' n) := by
      cases op with
      | rollUntil cmp => exact absurd rfl (Expression.ne_rollUntil_of_isCounted he cmp)
      | pick =>
        refine drawing.several (fun v w hvw ↦ ?_) h h'
        rw [hvw]
        exact setVariable_leftName w
      | _ => exact drawing.binaryOp rfl h h'
    exact hop.bind_eq fun _ ↦ .conclude .eq record _ _ rfl
  postfixed {op} _ _ _ _ h :=
    (drawing.postfixOp op h).bind_eq fun _ ↦ .conclude .eq record _ _ rfl

theorem evaluate {rules : Rules} (hsaved : rules.saved.Everywhere Expression.IsCounted)
    {frames : List (List Expression)} (hframes : Store.InFrames Expression.IsCounted frames)
    {e : Expression} (he : e.Everywhere Expression.IsCounted) (depth : Nat) {t : Table ρ}
    (h : Unrolled t t) : Unrolled ((e.evaluate rules depth frames).run.run t).2
      ((e.evaluate rules depth frames).run.run t).2 := by
  have hfollows : Play.Follows Unrolled (fun _ ↦ False) Eq
      (e.evaluate rules depth frames : Play ρ Value) fun _ ↦ e.evaluate rules depth frames :=
    (correspondence hsaved).evaluate depth hframes he
  exact (Play.follows_iff.mp hfollows t t h).2

end Table.Unrolled

/-! ## The operation -/

namespace Expression

variable [Chance ρ] {rules : Rules} {depth : Nat} {frames : List (List Expression)}
  {left right : Expression} {cmp : Comparison} {t u : Table ρ} {sides : Nat} {cutoff : Binary64}

/-- The operands of an operation do not roll until a number is met, wherever they lead. -/
structure Undisturbed (rules : Rules) (frames : List (List Expression)) (left right : Expression)
    (t : Table ρ) : Prop where
  left : left.Everywhere IsCounted
  right : right.Everywhere IsCounted
  saved : rules.saved.Everywhere IsCounted
  locals : t.locals.Everywhere IsCounted
  frames : Store.InFrames IsCounted frames

theorem PreparesRoll.get?_lastName
    (h : PreparesRoll rules depth frames left cmp right t sides cutoff u)
    (hundisturbed : Undisturbed rules frames left right t) :
    u.locals.get? Dice.lastName = none := by
  obtain ⟨hleft, hright, hsaved, hlocals, hframes⟩ := hundisturbed
  obtain @⟨size, v, w, t', u, sides, cutoff, hnames, hsize, -, hbound, -⟩ := h
  have hcounted : size.Everywhere IsCounted := by
    obtain rfl | ⟨-, rfl⟩ := hnames
    · exact hleft.of_mem_children List.mem_cons_self
    · exact hleft
  have hcleared : Table.Unrolled { t with locals := t.locals.erase Dice.lastName }
      { t with locals := t.locals.erase Dice.lastName } :=
    ⟨⟨rfl, hlocals.erase _, trivial⟩, (Bindings.get?_erase _ _ _).trans (if_pos rfl)⟩
  have hsized := Table.Unrolled.evaluate hsaved hframes hcounted depth hcleared
  rw [hsize] at hsized
  have hbounded := Table.Unrolled.evaluate hsaved hframes hright depth hsized
  rw [hbound] at hbounded
  exact hbounded.unset

/-- **Which die is kept.** After an operation that rolls until a number is met and has a value, the
variable holds the first roll that met the cutoff. If none within the limit did, the variable is as
the operands have left it; so it holds nothing as long as nothing of the kind is evaluated among
them. -/
theorem lastDie_of_evaluate {v : Value}
    (h : ((binary left (.rollUntil cmp) right).evaluate rules depth frames).run.run t
      = (.ok v, u)) :
    ∃ sides cutoff u', PreparesRoll rules depth frames left cmp right t sides cutoff u' ∧
      (∀ count < rules.limit, Chance.FirstMet sides (Dice.meets cmp cutoff) u'.chance count →
        u.locals.get? Dice.lastName = some (.literal (Chance.rollAfter sides u'.chance count))) ∧
      (Chance.NeverMet sides (Dice.meets cmp cutoff) u'.chance rules.limit →
        u.locals.get? Dice.lastName = u'.locals.get? Dice.lastName) ∧
      (Undisturbed rules frames left right t →
        ((u.locals.get? Dice.lastName).isSome ↔
          ∃ count < rules.limit,
            Chance.FirstMet sides (Dice.meets cmp cutoff) u'.chance count)) := by
  obtain ⟨u'', hperforms, -, hlocals⟩ := Performs.of_evaluate h
  obtain ⟨hlimit, sides, cutoff, u', hprepares⟩ := PreparesRoll.of_performs hperforms
  have hmet (count : Nat) (hcount : count < rules.limit)
      (hfirst : Chance.FirstMet sides (Dice.meets cmp cutoff) u'.chance count) :
      u.locals.get? Dice.lastName = some (.literal (Chance.rollAfter sides u'.chance count)) := by
    have hrolls := Chance.run_rollUntil_of_firstMet hfirst hcount
    rw [hlocals, hprepares.locals_of_performs hlimit hperforms hrolls]
    exact (Bindings.get?_insert _ _ _ _).trans (if_pos rfl)
  have hmissed (hnever : Chance.NeverMet sides (Dice.meets cmp cutoff) u'.chance rules.limit) :
      u.locals.get? Dice.lastName = u'.locals.get? Dice.lastName := by
    have hrolls := Chance.run_rollUntil_of_neverMet hnever
    rw [hlocals, hprepares.locals_of_performs hlimit hperforms hrolls, Dice.keep]
  refine ⟨sides, cutoff, u', hprepares, hmet, hmissed, fun hundisturbed ↦ ⟨fun hkept ↦ ?_, ?_⟩⟩
  · obtain hfirst | hnever := Chance.exists_firstMet_or_neverMet sides (Dice.meets cmp cutoff)
      u'.chance rules.limit
    · exact hfirst
    · rw [hmissed hnever, hprepares.get?_lastName hundisturbed] at hkept
      cases hkept
  · rintro ⟨count, hcount, hfirst⟩
    rw [hmet count hcount hfirst]
    rfl

/-- A die with six sides is rolled until it shows two, which its first roll does. -/
def untilTwo : Expression :=
  .binary (.prefixed .die (.literal (.ofNat 6))) (.rollUntil .equal) (.literal (.ofNat 2))

/-- The operands are a die that stands for its size and a literal, so the variable holds nothing but
a die that ended this roll. -/
theorem lastDie_of_evaluate_untilTwo :
    let die : Expression := .prefixed .die (.literal (.ofNat 6))
    let two : Expression := .literal (.ofNat 2)
    let t : Table Script := ⟨.ofFaces [2], .empty, .empty⟩
    ∃ v u, (untilTwo.evaluate ⟨3, .empty⟩ 0 []).run.run t = (.ok v, u) ∧
      Undisturbed ⟨3, .empty⟩ [] die two t ∧
      ∃ sides cutoff u', PreparesRoll ⟨3, .empty⟩ 0 [] die .equal two t sides cutoff u' ∧
        ((u.locals.get? Dice.lastName).isSome ↔
          ∃ count < 3, Chance.FirstMet sides (Dice.meets .equal cutoff) u'.chance count) := by
  intro die two t
  have hok : ((untilTwo.evaluate ⟨3, .empty⟩ 0 []).run.run t).1.toBool = true := by
    simp only [untilTwo, evaluate_binary, evaluate_literal, BinaryOp.leftOperand]
    decide +kernel
  have hundisturbed : Undisturbed ⟨3, .empty⟩ [] die two t :=
    ⟨by decide, by decide, .empty, .empty, fun _ h ↦ absurd h List.not_mem_nil⟩
  rcases hrun : (untilTwo.evaluate ⟨3, .empty⟩ 0 []).run.run t with ⟨error | v, u⟩
  · rw [hrun] at hok
    cases hok
  · obtain ⟨sides, cutoff, u', hprepares, -, -, hiff⟩ := lastDie_of_evaluate hrun
    exact ⟨v, u, rfl, hundisturbed, sides, cutoff, u', hprepares, hiff hundisturbed⟩

/-- A die is rolled until it shows four. The four comes from rolling until a two is met. -/
def untilFour : Expression :=
  .binary (.prefixed .die (.literal (.ofNat 6))) (.rollUntil .equal)
    (.binary (.literal (.ofNat 4)) .join untilTwo)

/-- The die that is kept need not be one of the rolls: if all dice show two, none of them shows four
up to the limit, and what is kept is the two that was rolled for the cutoff. -/
theorem lastDie_of_untilFour :
    let s : Session Script := .start (.ofFaces [2]) 3
    let bound : Expression := .binary (.literal (.ofNat 4)) .join untilTwo
    let t : Table Script := ⟨s.chance, s.store.locals, .empty⟩
    (s.evaluateExpression untilFour).1.toBool = true ∧
      (∃ u, PreparesRoll ⟨s.limit, s.store.saved⟩ 0 s.store.frames
        (.prefixed .die (.literal (.ofNat 6))) .equal bound t 6 (.ofNat 4) u ∧
        Chance.NeverMet 6 (Dice.meets .equal (.ofNat 4)) u.chance s.limit) ∧
      ((s.evaluateExpression untilFour).2.store.locals.get? Dice.lastName).map code = some "2" := by
  intro s bound t
  have hsize : ((literal (.ofNat 6)).evaluate ⟨s.limit, s.store.saved⟩ 0 s.store.frames).run.run
      { t with locals := t.locals.erase Dice.lastName } = (.ok (.number (.ofNat 6)), t) := by
    rw [evaluate_literal]
    rfl
  have hsides : Dice.sides (.ofNat 6) = .ok 6 :=
    Dice.sides_of_isNat (Binary64.isNat_ofNat (by decide)) (by decide) (by decide)
  have hbound :
      let run := (bound.evaluate ⟨s.limit, s.store.saved⟩ 0 s.store.frames).run.run t
      run.1.toOption.map (·.total.value) = some (.ofNat 4) ∧ run.2.chance = ⟨#[2], 1⟩ := by
    simp only [bound, untilTwo, evaluate_binary, evaluate_literal, BinaryOp.leftOperand]
    decide +kernel
  refine ⟨?_, ?_, ?_⟩
  · rw [Session.evaluateExpression, untilFour, untilTwo]
    simp only [evaluate_binary, evaluate_literal, BinaryOp.leftOperand]
    decide +kernel
  · rcases hrun : (bound.evaluate ⟨s.limit, s.store.saved⟩ 0 s.store.frames).run.run t
      with ⟨error | w, u⟩
    · rw [hrun] at hbound
      cases hbound.1
    · rw [hrun] at hbound
      obtain ⟨htotal, hchance⟩ := hbound
      have hfour : w.total.value = .ofNat 4 := Option.some.inj htotal
      have hcutoff : Dice.cutoff .equal 6 w.total.value = .ok (.ofNat 4) := by
        rw [hfour, Dice.cutoff_eq_ok_iff_ofFaces? (by decide) (by decide +kernel)]
        decide +kernel
      refine ⟨u, ⟨Or.inl rfl, hsize, hsides, hrun, hcutoff⟩, ?_⟩
      dsimp only at hchance
      rw [hchance]
      decide +kernel
  · rw [Session.evaluateExpression, untilFour, untilTwo]
    simp only [evaluate_binary, evaluate_literal, BinaryOp.leftOperand]
    decide +kernel

end Expression

end DiceNotation
