import DiceNotation.Chance.Script
import DiceNotation.Proofs.Footprint
import DiceNotation.Proofs.Potential

/-!
# What code means

An expression and what is read where it is written differ in their literals only: potentials are not
written, and a negative literal is written as a negation. Neither is noticed. Operators do not see
potentials; a negation is evaluated without a trace to what the literal stands for; and whether a
die is rolled until it meets a number depends on a die being there, not on how numbers are written.

So both evaluate like what they have in common, their *bare* form, in which all potentials are
dropped and all negative literals written out. The induction is on the evaluation of one expression
next to that of its bare form. The arguments that wait in frames are bare on one side as well, but
the variables are not: what a name stands for is the same on both sides but for potentials, and has
the same bare form.
-/

namespace DiceNotation

-- A property of all members is decided by going through them, whatever is imported.
attribute [local instance (high)] List.decidableBAll Option.decidableForallMem
  Option.decidableExistsMem

/-! ## Bare expressions

Expressions that are alike have the same bare form, and so has what is read back, unless a zero has
lost its sign. A negation is not a die, so the left operand of a roll is the same whether it is
chosen bare or not. -/

/-- A literal as it is evaluated: a negative one as a negation, without the potential. -/
def Number.bare (x : Number) : Expression :=
  if x.value.isFinite ∧ x.value.isNegative then .prefixed .negate (.literal (-x).plain)
  else .literal x.plain

namespace Expression

/-- The expression without potentials and negative literals. -/
def bare (e : Expression) : Expression := e.mapLiterals Number.bare

theorem bare_list (items : List Expression) : (list items).bare = list (items.map bare) :=
  mapLiterals_list Number.bare items

theorem bare_call (name : String) (arguments : List Expression) :
    (call name arguments).bare = call name (arguments.map bare) :=
  mapLiterals_call Number.bare name arguments

theorem bare_bare (e : Expression) : e.bare.bare = e.bare := by
  rw [bare, bare, mapLiterals_mapLiterals]
  refine mapLiterals_congr fun x _ ↦ ?_
  by_cases h : x.value.isFinite ∧ x.value.isNegative
  · have hpos : ¬((-x).plain.value.isFinite ∧ (-x).plain.value.isNegative) := by
      rintro ⟨-, hneg⟩
      have hpos := Binary64.isNegative_neg h.1 h.2
      exact absurd (hpos.symm.trans hneg) Bool.false_ne_true
    rw [Number.bare, if_pos h, mapLiterals, mapLiterals, Number.bare, if_neg hpos]
    rfl
  · rw [Number.bare, if_neg h]
    exact if_neg h

theorem Alike.bare_eq {e e' : Expression} (h : e.Alike e') : e.bare = e'.bare := by
  have hplain (e : Expression) : e.plain.bare = e.bare := by
    rw [plain, bare, mapLiterals_mapLiterals]
    rfl
  rw [← hplain e, ← hplain e', h]

theorem code_bare (e : Expression) : e.bare.code = e.code := by
  refine code_mapLiterals fun x _ ↦ ?_
  by_cases h : x.value.isFinite ∧ x.value.isNegative
  · rw [Number.bare, if_pos h]
    exact (Number.code_eq_negation h.1 h.2).symm
  · rw [Number.bare, if_neg h]
    rfl

theorem Spellable.bare_reread {e : Expression} (h : Spellable e)
    (hz : ∀ x, Within (.literal x) e → x.value ≠ -Binary64.zero) : e.reread.bare = e.bare := by
  rw [reread, bare, bare, mapLiterals_mapLiterals]
  refine mapLiterals_congr fun x hx ↦ ?_
  have hzero := hz x hx
  obtain ⟨value, potential⟩ := x
  rcases Binary64.finite_cases (h.isFinite_of_within hx) with
    ⟨n, hn, rfl, hneg⟩ | ⟨s, n, hn, rfl, hpos, hs⟩
  · have hmagnitude : (Binary64.finite false n hn).isNegative = false :=
      Binary64.isNegative_finite false n hn
    rw [Number.reread, if_pos hneg, Number.bare, if_pos ⟨rfl, hneg⟩, mapLiterals, mapLiterals,
      Number.bare, if_neg (by simp [Number.const, Binary64.abs, hmagnitude])]
    rfl
  · have hmagnitude : (Binary64.finite false n hn).isNegative = false :=
      Binary64.isNegative_finite false n hn
    obtain rfl : s = false := by
      rcases hs with hs | rfl
      · exact hs
      · cases s with
        | false => rfl
        | true => exact absurd rfl hzero
    rw [Number.reread, if_neg (by simp [hpos]), Number.bare, if_neg (by simp [hpos]), mapLiterals,
      Number.bare, if_neg (by simp [Number.const, Binary64.abs, hmagnitude])]
    rfl

theorem leftOperand_bare (op : BinaryOp) (left : Expression) :
    op.leftOperand left.bare = (op.leftOperand left).bare := by
  cases op with
  | rollUntil cmp =>
    cases left with
    | literal x =>
      change BinaryOp.leftOperand _ x.bare = x.bare
      rw [Number.bare]
      split <;> rfl
    | prefixed op operand => cases op <;> rfl
    | _ => rfl
  | _ => rfl

end Expression

/-! ## Tables that are alike

What a name stands for is the same in both but for potentials, and operators do the same to both. -/

variable {ρ : Type}

/-- The tables are the same but for the potentials in variables. -/
structure Table.Alike (t u : Table ρ) : Prop where
  chance : u.chance = t.chance
  locals : ∀ name, (u.locals.get? name).map Expression.plain
    = (t.locals.get? name).map Expression.plain
  trace : u.trace = t.trace

namespace Table.Alike

theorem refl (t : Table ρ) : Alike t t := ⟨rfl, fun _ ↦ rfl, rfl⟩

theorem symm {t u : Table ρ} (h : Alike t u) : Alike u t :=
  ⟨h.chance.symm, fun name ↦ (h.locals name).symm, h.trace.symm⟩

theorem trans {t u w : Table ρ} (h : Alike t u) (h' : Alike u w) : Alike t w :=
  ⟨h'.chance.trans h.chance, fun name ↦ (h'.locals name).trans (h.locals name),
    h'.trace.trans h.trace⟩

theorem coupling [Chance ρ] : Play.Coupling (ρ := ρ) Value.Alike Eq Table.Alike where
  likeness := Value.Alike.likeness
  alike := .eq
  chance h := h.chance.symm
  withChance h hcd := ⟨hcd.symm, h.locals, h.trace⟩
  insert := by
    intro t u name v w hvw _ h
    refine ⟨h.chance, fun other ↦ ?_, h.trace⟩
    rw [Bindings.get?_insert, Bindings.get?_insert]
    split
    · exact congrArg some (Expression.alike_ofValue hvw).symm
    · exact h.locals other
  erase := by
    intro t u name _ h
    refine ⟨h.chance, fun other ↦ ?_, h.trace⟩
    rw [Bindings.get?_erase, Bindings.get?_erase]
    split
    · rfl
    · exact h.locals other

theorem record (step : Trace.Step) (t u : Table ρ) (h : Alike t u) :
    Alike { t with trace := t.trace.push step } { u with trace := u.trace.push step } :=
  ⟨h.chance, h.locals, congrArg (·.push step) h.trace⟩

theorem resolve {t u : Table ρ} (h : Alike t u) (saved : Bindings Expression) (name : String) :
    Play.Matches Expression.Alike (Store.resolve saved t.locals name)
      (Store.resolve saved u.locals name) := by
  have hlocals := h.locals name
  rw [Store.resolve, Store.resolve]
  cases builtIn? name with
  | some e => exact .ok rfl
  | none =>
    dsimp only
    cases ht : t.locals.get? name with
    | none =>
      rw [ht] at hlocals
      rw [Option.map_eq_none_iff.mp hlocals]
      cases saved.get? name with
      | some e => exact .ok rfl
      | none => exact .error _
    | some e =>
      rw [ht] at hlocals
      obtain ⟨e', hu, he⟩ := Option.map_eq_some_iff.mp hlocals
      rw [hu]
      exact .ok he.symm

end Table.Alike

/-! ## Evaluations that are alike -/

namespace Play

/-- From tables that are alike, the plays come to the same failure or to values that are alike, and
leave tables alike. -/
def Alike (p q : Play ρ Value) : Prop :=
  Follows Table.Alike (fun _ ↦ False) Value.Alike p fun _ ↦ q

theorem alike_iff {p q : Play ρ Value} :
    Alike p q ↔ ∀ t u, Table.Alike t u →
      Matches Value.Alike (p.run.run t).1 (q.run.run u).1 ∧
        Table.Alike (p.run.run t).2 (q.run.run u).2 :=
  follows_iff

theorem Alike.symm {p q : Play ρ Value} (h : Alike p q) : Alike q p := by
  rw [alike_iff] at h ⊢
  intro t u htu
  obtain ⟨hmatches, hu'⟩ := h u t htu.symm
  refine ⟨?_, hu'.symm⟩
  generalize (p.run.run u).1 = outcome, (q.run.run t).1 = outcome' at hmatches
  cases hmatches with
  | ok h => exact .ok (Eq.symm h)
  | error e => exact .error e

theorem Alike.trans {p q r : Play ρ Value} (h : Alike p q) (h' : Alike q r) : Alike p r := by
  rw [alike_iff] at h h' ⊢
  intro t u htu
  obtain ⟨hmatches, hu⟩ := h t t (.refl t)
  obtain ⟨hmatches', hu'⟩ := h' t u htu
  refine ⟨?_, hu.trans hu'⟩
  generalize (p.run.run t).1 = outcome, (q.run.run t).1 = outcome' at hmatches hmatches'
  cases hmatches with
  | ok h =>
    generalize (r.run.run u).1 = outcome'' at hmatches'
    cases hmatches' with
    | ok h' => exact .ok (Eq.trans h h')
  | error e => exact hmatches'

end Play

namespace Expression

open Play

/-- The arguments of calls, without potentials and negative literals. -/
def bareFrames (frames : List (List Expression)) : List (List Expression) :=
  frames.map (List.map bare)

theorem bareFrames_bareFrames (frames : List (List Expression)) :
    bareFrames (bareFrames frames) = bareFrames frames := by
  have hframe : List.map bare ∘ List.map bare = List.map bare := by
    rw [List.map_comp_map]
    exact congrArg List.map (funext bare_bare)
  rw [bareFrames, bareFrames, List.map_map, hframe]

/-- A parameter stands for the bare form of its argument in bare frames. -/
theorem argument_bareFrames (frames : List (List Expression)) (i : Nat) :
    Store.argument (bareFrames frames) i
      = (Store.argument frames i).map fun (e, outer) ↦ (e.bare, bareFrames outer) := by
  cases frames with
  | nil => rfl
  | cons frame outer =>
    cases i with
    | zero =>
      change Except.error (RollError.misuse (.missingArgument 0 (frame.map bare).length)) = _
      rw [List.length_map]
      rfl
    | succ i =>
      rw [bareFrames, List.map_cons, Store.argument, Store.argument, List.getElem?_map,
        List.length_map]
      cases frame[i]? <;> rfl

variable {ρ : Type} [Chance ρ]

theorem evaluate_bare_literal (rules : Rules) (depth : Nat) (frames : List (List Expression))
    (x : Number) :
    ∃ y : Number, y.value = x.value ∧
      (x.bare.evaluate rules depth frames : Play ρ Value) = pure (.number y) := by
  by_cases h : x.value.isFinite ∧ x.value.isNegative
  · -- What is negated is a constant, but what it comes to has the value of the literal.
    have hvalue : (-(-x).plain).value = x.value := Binary64.neg_neg x.value
    have hnegation := evaluate_negation (ρ := ρ) rules depth frames
      (x := -(-x).plain) (hvalue ▸ h.1) (hvalue ▸ h.2)
    rw [Number.neg_neg] at hnegation
    rw [Number.bare, if_pos h]
    exact ⟨_, hvalue, hnegation⟩
  · rw [Number.bare, if_neg h]
    exact ⟨x.plain, rfl, evaluate_literal rules depth frames x.plain⟩

/-- **Only the bare form matters.** An expression and its bare form are evaluated alike. -/
theorem evaluate_bare (rules : Rules) (depth : Nat) (frames : List (List Expression))
    (e : Expression) :
    Play.Alike (e.evaluate rules depth frames : Play ρ Value)
      (e.bare.evaluate rules depth (bareFrames frames)) := by
  induction depth, frames, e using evaluation_induction with
  | layer depth frames e hpart hargument hnested =>
    have hresolve : ∀ name, Follows (Table.Alike (ρ := ρ)) (fun _ ↦ False) Expression.Alike
        (resolve rules name) fun _ ↦ resolve rules name :=
      fun name ↦ .resolve fun t u htu ↦ htu.resolve rules.saved name
    have hconclude : ∀ priority code {v w : Value}, v.Alike w →
        Follows (Table.Alike (ρ := ρ)) (fun _ ↦ False) Value.Alike (conclude priority code v)
          fun _ ↦ conclude priority code w :=
      fun priority code _ _ ↦ .conclude Value.Alike.likeness Table.Alike.record priority code
    -- Bodies that are alike have one bare form, and it is the one that both are evaluated like.
    have hbody : ∀ (arguments : Option (List Expression)) (body body' : Expression),
        body.Alike body' →
        Play.Alike (evaluateNested rules depth frames arguments body : Play ρ Value)
          (evaluateNested rules depth (bareFrames frames) (arguments.map (List.map bare))
            body') := by
      intro arguments body body' h
      have hframes : (arguments.map (List.map bare)).toList ++ bareFrames frames
          = bareFrames (arguments.toList ++ frames) := by
        cases arguments <;> rfl
      unfold evaluateNested
      rw [hframes]
      split
      · next hd =>
        have hfirst := hnested hd (arguments.toList ++ frames) body
        have hsecond := hnested hd (bareFrames (arguments.toList ++ frames)) body'
        rw [bareFrames_bareFrames, ← h.bare_eq] at hsecond
        exact hfirst.trans hsecond.symm
      · exact .misuse _
    cases e with
    | literal x =>
      obtain ⟨y, hvalue, hy⟩ :=
        evaluate_bare_literal (ρ := ρ) rules depth (bareFrames frames) x
      change Play.Alike _ (x.bare.evaluate rules depth (bareFrames frames))
      rw [hy, evaluate_literal]
      exact Follows.pure (congrArg (fun x ↦ Value.number (.const x)) hvalue.symm)
    | list items =>
      rw [bare_list, evaluate_list, evaluate_list]
      have hitems : List.Forall₂ (fun e e' ↦ Play.Alike (e.evaluate rules depth frames : Play ρ _)
          (e'.evaluate rules depth (bareFrames frames))) items (items.map bare) :=
        List.forall₂_map_right_iff.mpr (List.forall₂_same.mpr hpart)
      exact (Follows.mapM hitems).bind fun _ _ hvs ↦ .pure (Value.Alike.list hvs)
    | text s =>
      rw [evaluate_text]
      change Play.Alike _ ((text s).evaluate rules depth (bareFrames frames))
      rw [evaluate_text]
      exact Follows.pure rfl
    | reference name =>
      change Play.Alike _ ((reference name).evaluate rules depth (bareFrames frames))
      cases hname : parameter? name with
      | none =>
        rw [evaluate_reference _ _ _ hname, evaluate_reference _ _ _ hname]
        exact (hresolve name).bind fun body body' h ↦ hbody none body body' h
      | some i =>
        rw [evaluate_parameter _ _ _ hname, evaluate_parameter _ _ _ hname, evaluateArgument,
          evaluateArgument, argument_bareFrames]
        cases hx : Store.argument frames i with
        | error e => exact Follows.throw e
        | ok x => exact hargument i x.1 x.2 hx
    | call name arguments =>
      rw [bare_call]
      cases hname : parameter? name with
      | none =>
        rw [evaluate_call _ _ _ hname, evaluate_call _ _ _ hname]
        exact (hresolve name).bind fun body body' h ↦ hbody (some arguments) body body' h
      | some i =>
        rw [evaluate_call_parameter _ _ _ hname, evaluate_call_parameter _ _ _ hname]
        exact Follows.misuse _
    | prefixed op operand =>
      have hcode := code_bare (.prefixed op operand)
      have hoperand := hpart operand List.mem_cons_self
      change Play.Alike _ ((prefixed op operand.bare).evaluate rules depth (bareFrames frames))
      change code (prefixed op operand.bare) = _ at hcode
      rw [evaluate_prefixed, evaluate_prefixed, hcode]
      exact (Table.Alike.coupling.prefixOp op hoperand).bind fun _ _ ↦ hconclude _ _
    | binary left op right =>
      have hcode := code_bare (.binary left op right)
      have hleft := hpart (op.leftOperand left) List.mem_cons_self
      have hright := hpart right (List.mem_cons_of_mem _ List.mem_cons_self)
      change Play.Alike _
        ((binary left.bare op right.bare).evaluate rules depth (bareFrames frames))
      change code (binary left.bare op right.bare) = _ at hcode
      rw [evaluate_binary, evaluate_binary, hcode, leftOperand_bare]
      exact (Table.Alike.coupling.binaryOp op hleft hright).bind fun _ _ ↦ hconclude _ _
    | postfixed operand op =>
      have hcode := code_bare (.postfixed operand op)
      have hoperand := hpart operand List.mem_cons_self
      change Play.Alike _ ((postfixed operand.bare op).evaluate rules depth (bareFrames frames))
      change code (postfixed operand.bare op) = _ at hcode
      rw [evaluate_postfixed, evaluate_postfixed, hcode]
      exact (Table.Alike.coupling.postfixOp op hoperand).bind fun _ _ ↦ hconclude _ _

/-- What is read where an expression is written is evaluated like the expression. -/
theorem Spellable.evaluate_reread {e : Expression} (h : Spellable e)
    (hz : ∀ x, Within (.literal x) e → x.value ≠ -Binary64.zero) (rules : Rules) (depth : Nat)
    (frames : List (List Expression)) :
    Play.Alike (e.evaluate rules depth frames : Play ρ Value)
      (e.reread.evaluate rules depth frames) := by
  have hreread := evaluate_bare (ρ := ρ) rules depth frames e.reread
  rw [h.bare_reread hz] at hreread
  exact (evaluate_bare rules depth frames e).trans hreread.symm

end Expression

/-! ## Sessions -/

namespace Session

/-- Outcomes that only potentials tell apart: the same failure, or values that are alike after the
same steps, the same source of chance, and the same variables but for the one that keeps the input.
Values and variables are equal as well, unless they do not even equal themselves, as is the case if
a number in them is absent. -/
structure SameOutcome (first second : Except RollError Evaluation × Session ρ) : Prop where
  result : Play.Matches
    (fun r r' ↦ r.value.Alike r'.value ∧ (r.value == r'.value) = (r.value == r.value) ∧
      r.trace = r'.trace) first.1 second.1
  chance : first.2.chance = second.2.chance
  locals : ∀ name ≠ inputName,
    Option.Rel (fun x x' ↦ x.Alike x' ∧ (x == x') = (x == x))
      (first.2.store.locals.get? name) (second.2.store.locals.get? name)

theorem rel_of_map_plain_eq {x x' : Option Expression}
    (h : x'.map Expression.plain = x.map Expression.plain) :
    Option.Rel (fun x x' ↦ x.Alike x' ∧ (x == x') = (x == x)) x x' := by
  cases x with
  | none =>
    rw [Option.map_eq_none_iff.mp h]
    exact .none
  | some x =>
    obtain ⟨x', rfl, hx⟩ := Option.map_eq_some_iff.mp h
    have halike : x.Alike x' := hx.symm
    exact .some ⟨halike, halike.beq_eq x⟩

variable [Chance ρ]

/-- **Code keeps its meaning.** In every session, an expression and what is read where it is written
have outcomes that only potentials tell apart. -/
theorem evaluateExpression_read_code (s : Session ρ) {e : Expression} (h : e.Spellable)
    (hz : ∀ x, Expression.Within (.literal x) e → x.value ≠ -Binary64.zero) :
    ∃ e', Expression.read e.code = .ok e' ∧
      SameOutcome (s.evaluateExpression e) (s.evaluateExpression e') := by
  refine ⟨e.reread, h.spells.readAt_eq 0, ?_⟩
  obtain ⟨hmatches, hlocals⟩ := Play.alike_iff.mp
    (h.evaluate_reread hz ⟨s.limit, s.store.saved⟩ 0 s.store.frames)
    ⟨s.chance, s.store.locals, .empty⟩ _ (.refl _)
  rw [evaluateExpression, evaluateExpression]
  generalize (e.evaluate ⟨s.limit, s.store.saved⟩ 0 s.store.frames).run.run
    ⟨s.chance, s.store.locals, .empty⟩ = run at hmatches hlocals
  generalize (e.reread.evaluate ⟨s.limit, s.store.saved⟩ 0 s.store.frames).run.run
    ⟨s.chance, s.store.locals, .empty⟩ = run' at hmatches hlocals
  obtain ⟨outcome, t⟩ := run
  obtain ⟨outcome', t'⟩ := run'
  cases hmatches with
  | error error =>
    exact ⟨.error error, hlocals.chance.symm,
      fun name _ ↦ rel_of_map_plain_eq (hlocals.locals name)⟩
  | @ok v v' hv =>
    refine ⟨.ok ⟨hv, hv.beq_eq v, hlocals.trace.symm⟩, hlocals.chance.symm, fun name hname ↦ ?_⟩
    refine rel_of_map_plain_eq ?_
    dsimp only
    simp only [Store.get?_setVariable, if_neg hname]
    split
    · exact congrArg some (Expression.alike_ofValue hv).symm
    · exact hlocals.locals name

/-- A die and a negative number, with potentials that are not written. -/
def penalized : Expression :=
  .binary (.prefixed .die (.literal ⟨6, 20⟩)) .join (.literal ⟨-3, 5⟩)

theorem evaluateExpression_read_code_penalized :
    penalized.Spellable ∧
      (∀ x, Expression.Within (.literal x) penalized → x.value ≠ -Binary64.zero) ∧
      ∃ e', Expression.read penalized.code = .ok e' ∧
        SameOutcome ((start (Script.ofFaces [4]) 1000).evaluateExpression penalized)
          ((start (Script.ofFaces [4]) 1000).evaluateExpression e') := by
  have hspellable : penalized.Spellable :=
    .binary _ (.prefixed _ (.literal (by decide +kernel))) (.literal (by decide +kernel))
  have hz : ∀ x, Expression.Within (.literal x) penalized → x.value ≠ -Binary64.zero := by
    rintro x (_ | ⟨_ | ⟨_, _ | ⟨_, ⟨⟩⟩⟩, hx⟩)
    · rcases hx with _ | ⟨_ | ⟨_, ⟨⟩⟩, _ | ⟨⟨⟩, _⟩⟩
      decide +kernel
    · rcases hx with _ | ⟨⟨⟩, _⟩
      decide +kernel
  exact ⟨hspellable, hz, evaluateExpression_read_code _ hspellable hz⟩

/-- A session in which a variable stands for a number that is absent. -/
def withAbsent : Session Script :=
  { start (.ofFaces []) 1000 with
    store := Store.empty.setVariable "x" (.literal (.const .nan)) }

/-- A number that is absent does not equal itself, and so the two values are not always equal. -/
theorem beq_eq_false_of_absent :
    (Expression.reference "x").Spellable ∧
      (∀ x, Expression.Within (.literal x) (.reference "x") → x.value ≠ -Binary64.zero) ∧
      ∃ e', Expression.read (Expression.reference "x").code = .ok e' ∧
        ∃ r r', (withAbsent.evaluateExpression (.reference "x")).1 = .ok r ∧
          (withAbsent.evaluateExpression e').1 = .ok r' ∧ (r.value == r'.value) = false := by
  have hspellable : (Expression.reference "x").Spellable :=
    .reference ⟨by decide, by decide, by decide, by decide⟩
  have hz : ∀ x, Expression.Within (.literal x) (.reference "x") → x.value ≠ -Binary64.zero := by
    rintro x (_ | ⟨⟨⟩, _⟩)
  have hname : parameter? "x" = none := by decide
  have hrun : (withAbsent.evaluateExpression (.reference "x")).1
      = .ok ⟨.reference "x", .number (.const .nan), .empty⟩ := by
    have hx : Store.resolve withAbsent.store.saved withAbsent.store.locals "x"
        = .ok (.literal (.const .nan)) := rfl
    rw [evaluateExpression, Expression.evaluate_reference _ _ _ hname, Play.run_bind,
      Play.run_resolve, hx]
    dsimp only
    rw [Expression.evaluateNested, if_pos (by decide), Expression.evaluate_literal]
    rfl
  exact ⟨hspellable, hz, .reference "x", hspellable.spells.readAt_eq 0, _, _, hrun, hrun, rfl⟩

end Session

end DiceNotation
