import DiceNotation.Chance.Script
import DiceNotation.Proofs.Occurrences
import DiceNotation.Proofs.WrittenValues
import DiceNotation.Session
import Mathlib.Data.List.Forall2

/-!
# Recorded steps

What the trace of an evaluation holds: one step for each operation of the expression, in the order
in which operations are completed (`Expression.steps`). An operation leaves no step if its source
text is that of its value. The evaluator finds this out by comparing the two texts, and the question
is which operations that can be.

An operation is written in parentheses, and the only values that are written so are negative
numbers. Behind its parenthesis, such a number has a minus sign and then a digit. Of operations only
negations have a minus sign there, as no operand of another operator begins with one, and of
negations only those of a literal have a digit behind it. So nothing is left out but negations that
come to a negative number.

That the steps of operands come in order, and each once, is the rule for plays one behind the other
(`Play.Records.bind`).
-/

namespace DiceNotation

-- A property of all members is decided by going through them, whatever is imported.
attribute [local instance (high)] List.decidableBAll Option.decidableForallMem
  Option.decidableExistsMem

/-! ## The first character of a code

The text of a number that is not negative begins with a digit or a letter. No code begins with a
minus sign, and only that of a literal may begin with something else than a bracket or a quote. -/

/-- The characters that the code of an expression other than a literal can begin with. -/
def Expression.openers : List Char := ['(', '[', '\x7b', '"']

theorem Binary64.exists_text_eq_cons {x : Binary64} (h : x.isNegative = false) :
    ∃ c rest, x.text.toList = c :: rest ∧ c ≠ '-' ∧ c ∉ Expression.openers := by
  cases x with
  | nan => exact ⟨'N', ['a', 'N'], rfl, by decide⟩
  | infinite s =>
    cases s with
    | false => exact ⟨'i', ['n', 'f'], rfl, by decide⟩
    | true =>
      rw [isNegative, lt, rank?_zero] at h
      simp [rank?, overflow_pos] at h
  | finite s n hn =>
    rcases finite_cases (x := .finite s n hn) rfl with ⟨_, _, -, hneg⟩ | ⟨_, _, _, heq, -, hs⟩
    · rw [h] at hneg
      cases hneg
    · cases heq
      obtain ⟨c, rest, hc, hdigit, -⟩ := (isNumeral_magnitudeText n).exists_munch
      have hplain : ∀ d ∈ '-' :: Expression.openers, d.isDigit = false := by decide
      have hnot : c ∉ '-' :: Expression.openers := by
        intro hmem
        rw [hplain c hmem] at hdigit
        cases hdigit
      rw [List.mem_cons, not_or] at hnot
      exact ⟨c, rest, (toList_text_finite hn hs).trans hc, hnot⟩

namespace Expression

theorem exists_code_eq_cons (e : Expression) :
    ∃ c rest, e.code.toList = c :: rest ∧ c ≠ '-' ∧ (c ∈ openers ∨ ∃ x, e = .literal x) := by
  have hopener {c : Char} (rest : List Char) (htext : e.code.toList = c :: rest)
      (hc : c ∈ openers) :
      ∃ c rest, e.code.toList = c :: rest ∧ c ≠ '-' ∧ (c ∈ openers ∨ ∃ x, e = .literal x) :=
    ⟨c, rest, htext, (by decide : ∀ c ∈ openers, c ≠ '-') c hc, .inl hc⟩
  cases e with
  | literal x =>
    cases hneg : x.value.isNegative with
    | true =>
      refine ⟨'(', ('-' :: (-x.value).text.toList) ++ [')'], ?_, by decide, .inr ⟨x, rfl⟩⟩
      rw [code, Number.code, if_pos hneg]
      simp
    | false =>
      obtain ⟨c, rest, htext, hc, -⟩ := Binary64.exists_text_eq_cons hneg
      refine ⟨c, rest, ?_, hc, .inr ⟨x, rfl⟩⟩
      rw [code, Number.code, if_neg (by simp [hneg])]
      exact htext
  | list items => exact hopener _ (toList_code_list items) (by decide)
  | text s => exact hopener _ (toList_code_text s) (by decide)
  | reference name => exact hopener _ (toList_code_reference name) (by decide)
  | call name arguments => exact hopener _ (toList_code_call name arguments) (by decide)
  | prefixed op operand => exact hopener _ (toList_code_prefixed op operand) (by decide)
  | binary left op right => exact hopener _ (toList_code_binary left op right) (by decide)
  | postfixed operand op => exact hopener _ (toList_code_postfixed operand op) (by decide)

/-! ## Operations that are written like their value -/

/-- The expression is an operation, of an operator of this priority. -/
def HasPriority (e : Expression) (priority : Priority) : Prop :=
  ∃ symbol, e.operator? = some (symbol, priority)

variable {e : Expression} {priority : Priority}

/-- An operation is written in parentheses. -/
theorem HasPriority.exists_code_eq_paren (he : e.HasPriority priority) :
    ∃ rest, e.code.toList = '(' :: rest := by
  obtain ⟨symbol, he⟩ := he
  cases e with
  | prefixed op operand => exact ⟨_, toList_code_prefixed op operand⟩
  | binary left op right => exact ⟨_, toList_code_binary left op right⟩
  | postfixed operand op => exact ⟨_, toList_code_postfixed operand op⟩
  | _ => cases he

theorem HasPriority.eq_negation_of_code_eq_minus (he : e.HasPriority priority) {rest : List Char}
    (h : e.code.toList = '(' :: '-' :: rest) :
    ∃ operand, e = .prefixed .negate operand ∧ operand.code.toList ++ [')'] = rest := by
  have hoperand (operand : Expression) (tail : List Char) :
      operand.code.toList ++ tail ≠ '-' :: rest := by
    obtain ⟨c, rest', htext, hc, -⟩ := operand.exists_code_eq_cons
    rw [htext]
    rintro ⟨⟩
    exact hc rfl
  obtain ⟨symbol, he⟩ := he
  cases e with
  | prefixed op operand =>
    rw [toList_code_prefixed] at h
    cases op with
    | negate =>
      cases h
      exact ⟨operand, rfl, rfl⟩
    | _ => cases h
  | binary left op right =>
    rw [toList_code_binary] at h
    exact absurd (List.cons.inj h).2 (hoperand left _)
  | postfixed operand op =>
    rw [toList_code_postfixed] at h
    exact absurd (List.cons.inj h).2 (hoperand operand _)
  | _ => cases he

/-- An operation can have the code of a finite value only if the one is the negation of a literal
and the other a negative number. -/
theorem HasPriority.eq_negation_of_code_eq (he : e.HasPriority priority) {v : Value}
    (hv : v.isFinite = true) (h : e.code = v.code) :
    ∃ x y, e = .prefixed .negate (.literal x) ∧ v = .number y ∧ y.value.isNegative = true := by
  obtain ⟨rest, hparen⟩ := he.exists_code_eq_paren
  -- The value is written like an expression that is no operation.
  rw [← code_ofValue] at h
  cases v with
  | list items =>
    rw [h, ofValue_list, toList_code_list] at hparen
    cases hparen
  | text s =>
    rw [h, ofValue, toList_code_text] at hparen
    cases hparen
  | number y =>
    rw [ofValue, code] at h
    cases hneg : y.value.isNegative with
    | true =>
      rw [Number.code_eq_negation hv hneg] at h
      have hcode := toList_code_prefixed .negate (literal (-y))
      rw [← h] at hcode
      obtain ⟨operand, rfl, hoperand⟩ := he.eq_negation_of_code_eq_minus hcode
      have hpos : (-y).value.isNegative = false := Binary64.isNegative_neg hv hneg
      obtain ⟨c, tail, htext, -, hopener⟩ := Binary64.exists_text_eq_cons hpos
      obtain ⟨d, tail', htext', -, hliteral⟩ := operand.exists_code_eq_cons
      rw [code, Number.code, if_neg (by simp [hpos]), htext, htext'] at hoperand
      obtain rfl : d = c := (List.cons.inj hoperand).1
      obtain ⟨x, rfl⟩ := hliteral.resolve_left hopener
      exact ⟨x, y, rfl, rfl, hneg⟩
    | false =>
      obtain ⟨c, tail, htext, -, hopener⟩ := Binary64.exists_text_eq_cons hneg
      rw [h, Number.code, if_neg (by simp [hneg]), htext] at hparen
      cases hparen
      exact absurd (by decide) hopener

/-! ## The steps of an expression -/

/-- Whether the expression is the negation of a positive literal, as a negative number is
written. -/
def isNegativeNumeral : Expression → Bool
  | .prefixed .negate (.literal x) => Binary64.lt 0 x.value
  | _ => false

mutual

/-- The operations of an expression that leave a step, in the order in which they are completed:
from left to right, each behind those in its operands. Left out are negations of positive literals,
and dice that are rolled until they meet a number, of which only the size is evaluated. What names
stand for is not looked into. -/
def steps : Expression → List Expression
  | .list items => stepsOfAll items
  | .prefixed op operand =>
    operand.steps ++
      if isNegativeNumeral (.prefixed op operand) then [] else [.prefixed op operand]
  | .binary (.prefixed .die size) (.rollUntil cmp) right =>
    size.steps ++ right.steps ++ [.binary (.prefixed .die size) (.rollUntil cmp) right]
  | .binary left op right => left.steps ++ right.steps ++ [.binary left op right]
  | .postfixed operand op => operand.steps ++ [.postfixed operand op]
  | .literal _ | .text _ | .reference _ | .call .. => []

/-- The operations of several expressions that leave a step, one expression behind the other. -/
def stepsOfAll : List Expression → List Expression
  | [] => []
  | e :: rest => e.steps ++ stepsOfAll rest

end

theorem stepsOfAll_eq_flatMap (es : List Expression) : stepsOfAll es = es.flatMap steps := by
  induction es with
  | nil => rfl
  | cons e es ih => rw [stepsOfAll, ih, List.flatMap_cons]

theorem steps_binary (left : Expression) (op : BinaryOp) (right : Expression) :
    (binary left op right).steps
      = (op.leftOperand left).steps ++ right.steps ++ [.binary left op right] := by
  unfold BinaryOp.leftOperand
  split
  · rw [steps]
  · next h =>
    rw [steps]
    exact fun size cmp hleft hop ↦ h cmp size hop hleft

/-- The step of the trace is that of an operation: it has the priority of the operation, and says
what the code of the operation comes to. -/
structure IsStep (e : Expression) (step : Trace.Step) : Prop where
  priority : e.HasPriority step.priority
  text : ∃ shown, step.text = e.code ++ " => " ++ shown

end Expression

/-! ## Plays that record steps

A play that leaves the trace alone records nothing, and one that fails has nothing to show for it.
Checks record nothing, so the rest of a play records what the play does. -/

variable {ρ : Type} {α β : Type}

/-- Whenever the play comes to a result, it has recorded one step for each of the operations, in
their order, and nothing else. -/
def Play.Records (operations : List Expression) (p : Play ρ α) : Prop :=
  ∀ t a t', p.run.run t = (.ok a, t') →
    ∃ steps, t'.trace.toList = t.trace.toList ++ steps ∧
      List.Forall₂ Expression.IsStep operations steps

namespace Play.Records

variable {operations operations' : List Expression}

theorem of_trace_eq {p : Play ρ α} (h : ∀ t, (p.run.run t).2.trace = t.trace) :
    Records [] p := by
  intro t a t' hrun
  refine ⟨[], ?_, .nil⟩
  rw [List.append_nil, ← h t, hrun]

theorem pure (a : α) : Records [] (pure a : Play ρ α) := of_trace_eq fun _ ↦ rfl

theorem throw (e : RollError) : Records operations (throw e : Play ρ α) := by
  rintro t a t' ⟨⟩

theorem misuse (m : Misuse) : Records operations (misuse m : Play ρ α) := throw _

theorem check {p : Play ρ α} (h : p.IsCheck) : Records [] p := by
  obtain ⟨e | a, rfl⟩ := h
  · exact throw _
  · exact pure _

/-- **One play behind the other** records the steps of the one and then those of the other. -/
theorem bind {p : Play ρ α} {f : α → Play ρ β} (h : Records operations p)
    (hf : ∀ a, Records operations' (f a)) : Records (operations ++ operations') (p >>= f) := by
  intro t b t'' hrun
  rw [run_bind] at hrun
  rcases hp : p.run.run t with ⟨error | a, t'⟩
  · rw [hp] at hrun
    cases hrun
  · rw [hp] at hrun
    obtain ⟨first, hfirst, hsteps⟩ := h t a t' hp
    obtain ⟨rest, hrest, hsteps'⟩ := hf a t' b t'' hrun
    refine ⟨first ++ rest, ?_, List.rel_append hsteps hsteps'⟩
    rw [hrest, hfirst, List.append_assoc]

theorem before {p : Play ρ α} {f : α → Play ρ β} (h : Records operations p)
    (hf : ∀ a, Records [] (f a)) : Records operations (p >>= f) := by
  rw [← List.append_nil operations]
  exact h.bind hf

theorem behind {p : Play ρ α} {f : α → Play ρ β} (h : Records [] p)
    (hf : ∀ a, Records operations (f a)) : Records operations (p >>= f) := h.bind hf

theorem checked {p : Play ρ α} {f : α → Play ρ β} (h : p.IsCheck)
    (hf : ∀ a, Records operations (f a)) : Records operations (p >>= f) := (check h).behind hf

theorem mapM {γ : Type} {items : List γ} {operations : γ → List Expression} {f : γ → Play ρ α}
    (h : ∀ a ∈ items, Records (operations a) (f a)) :
    Records (items.flatMap operations) (items.mapM f) := by
  induction items with
  | nil => exact pure []
  | cons a items ih =>
    obtain ⟨hitem, hitems⟩ := List.forall_mem_cons.mp h
    rw [List.flatMap_cons, List.mapM_cons]
    exact hitem.bind fun _ ↦ (ih hitems).before fun _ ↦ pure _

theorem random (choice : StateM ρ α) : Records [] (random choice) := of_trace_eq fun _ ↦ rfl

theorem random? (choice : StateM ρ (Option α)) : Records [] (random? choice) := by
  refine (random choice).behind fun a ↦ ?_
  cases a with
  | none => exact throw _
  | some a => exact pure a

theorem setVariable (name : String) (v : Value) :
    Records (ρ := ρ) [] (setVariable name v) := of_trace_eq fun _ ↦ rfl

theorem clearVariable (name : String) : Records (ρ := ρ) [] (clearVariable name) :=
  of_trace_eq fun _ ↦ rfl

/-! ## Operators

An operator plays each operand once, the left one before the right one, and records nothing
itself. -/

variable [Chance ρ] {limit : Nat} {left right operand : Play ρ Value}
  (hl : Records operations left) (hr : Records operations' right)

theorem prefixOp (op : PrefixOp) (h : Records operations operand) :
    Records operations (op.apply limit operand) := by
  cases op with
  | die =>
    exact h.before fun _ ↦ checked (Dice.isCheck_sidesOf _) fun _ ↦
      checked (.requireChoice _) fun _ ↦ (random _).behind fun _ ↦ pure _
  | pickOne =>
    exact h.before fun _ ↦ checked (.requireChoice _) fun _ ↦
      checked (Pick.isCheck_requireItems _ _) fun _ ↦ random? _
  | negate | size | total => exact h.before fun _ ↦ pure _

include hl hr

omit [Chance ρ] in
theorem arithmetic {f : Number → Number → Play ρ Number} (hf : ∀ x y, Records [] (f x y)) :
    Records (operations ++ operations') (arithmetic f left right) :=
  hl.bind fun _ ↦ hr.before fun _ ↦ (hf _ _).behind fun _ ↦ pure _

theorem binaryOp (op : BinaryOp) :
    Records (operations ++ operations') (op.apply limit left right) := by
  cases op with
  | dice =>
    refine hl.bind fun count ↦ hr.before fun size ↦ ?_
    dsimp only
    split
    · exact misuse _
    · split
      · exact throw _
      · exact checked (Dice.isCheck_sidesOf _) fun _ ↦ (random _).behind fun _ ↦ pure _
  | rollUntil cmp =>
    refine (clearVariable _).behind fun _ ↦ ?_
    refine hl.bind fun size ↦ checked (Dice.isCheck_sidesOf size) fun sides ↦
      hr.before fun bound ↦ checked ⟨_, rfl⟩ fun cutoff ↦ checked (.requireChoice _) fun _ ↦
      (random _).behind ?_
    rintro ⟨dice, _ | die⟩
    · exact pure _
    · exact (setVariable _ _).behind fun _ ↦ pure _
  | pick =>
    exact hl.bind fun _ ↦ hr.before fun _ ↦ checked (Pick.isCheck_count _ _) fun _ ↦
      checked (Pick.isCheck_requireItems _ _) fun _ ↦ (random? _).behind fun _ ↦
      (setVariable _ _).behind fun _ ↦ pure _
  | pickReplacing =>
    exact hl.bind fun _ ↦ hr.before fun _ ↦ checked (Pick.isCheck_count _ _) fun _ ↦
      checked (Pick.isCheck_requireItems _ _) fun _ ↦ (random? _).behind fun _ ↦ pure _
  | join | subtract => exact hl.bind fun _ ↦ hr.before fun _ ↦ pure _
  | multiply =>
    simp only [BinaryOp.apply]
    exact hl.arithmetic hr fun _ _ ↦ pure _
  | divide => exact hl.arithmetic hr fun _ _ ↦ check (isCheck_quotient _ _)
  | power =>
    simp only [BinaryOp.apply]
    exact hl.arithmetic hr fun _ _ ↦ pure _

omit hl hr

theorem postfixOp (op : PostfixOp) (h : Records operations operand) :
    Records operations (op.apply operand) := by
  cases op with
  | shuffle => exact h.before fun _ ↦ (random _).behind fun _ ↦ pure _

end Play.Records

/-! ## Evaluations

The opposite of a number is negative exactly if the number is positive. So the negation of a literal
records its step unless the literal is positive, and every other operation always does. -/

theorem Binary64.isNegative_neg_eq (x : Binary64) : (-x).isNegative = Binary64.lt 0 x := by
  rw [isNegative, lt, lt, rank?_neg, rank?_zero]
  cases x.rank? with
  | none => rfl
  | some r => simp

theorem Play.Records.conclude {e : Expression} {priority : Priority} (he : e.HasPriority priority)
    {v : Value} (h : v.isFinite = true → e.code ≠ v.code) :
    Records (ρ := ρ) [e] (conclude priority e.code v) := by
  unfold Play.conclude
  split
  · exact misuse _
  · next hv =>
    have hv : v.isFinite = true := by simpa using hv
    rw [if_pos (h hv)]
    rintro t a t' ⟨⟩
    exact ⟨[_], Trace.toList_push _ _, .cons ⟨he, _, rfl⟩ .nil⟩

theorem Play.Records.conclude_of_ne {e : Expression} {priority : Priority}
    (he : e.HasPriority priority) (hne : ∀ x, e ≠ .prefixed .negate (.literal x)) (v : Value) :
    Records (ρ := ρ) [e] (Play.conclude priority e.code v) := by
  refine conclude he fun hv hcode ↦ ?_
  obtain ⟨x, -, heq, -⟩ := he.eq_negation_of_code_eq hv hcode
  exact hne x heq

namespace Expression

open Play

variable [Chance ρ] (rules : Rules) (depth : Nat) (frames : List (List Expression))

theorem records_evaluate_negation (x : Number) :
    Records (prefixed .negate (literal x)).steps
      ((prefixed .negate (literal x)).evaluate rules depth frames : Play ρ Value) := by
  have hvalue : ((prefixed .negate (literal x)).evaluate rules depth frames : Play ρ Value)
      = conclude .negative (prefixed .negate (literal x)).code (.number (-x)) := by
    rw [evaluate_prefixed, evaluate_literal]
    rfl
  have hneg : (-x).value.isNegative = Binary64.lt 0 x.value := Binary64.isNegative_neg_eq x.value
  rw [hvalue, steps, steps, List.nil_append, isNegativeNumeral]
  split
  · next hpos =>
    rw [hpos] at hneg
    -- The number is written like the operation, or it is not finite.
    cases hfinite : (Value.number (-x)).isFinite with
    | true =>
      have hcode := Number.code_eq_negation hfinite hneg
      rw [x.neg_neg] at hcode
      rw [conclude_eq_pure hfinite hcode.symm]
      exact .pure _
    | false =>
      rw [conclude, hfinite]
      exact .misuse _
  · next hpos =>
    refine .conclude ⟨_, rfl⟩ fun hfinite hcode ↦ ?_
    obtain ⟨_, y, -, hy, hyneg⟩ := HasPriority.eq_negation_of_code_eq ⟨_, rfl⟩ hfinite hcode
    cases hy
    rw [hneg] at hyneg
    exact hpos hyneg

/-- **An evaluation records its steps**, each operation once and in order. -/
theorem records_evaluate {e : Expression} (he : e.Everywhere fun e ↦ e.name? = none) :
    Records e.steps (e.evaluate rules depth frames : Play ρ Value) := by
  induction depth, frames, e using evaluation_induction with
  | layer depth frames e hpart =>
    have hpart : ∀ e' ∈ e.parts,
        Records e'.steps (e'.evaluate rules depth frames : Play ρ Value) :=
      fun e' he' ↦ hpart e' he' (he.of_mem_parts he')
    cases e with
    | literal x =>
      rw [evaluate_literal]
      exact .pure _
    | list items =>
      rw [evaluate_list, steps, stepsOfAll_eq_flatMap]
      exact (Records.mapM hpart).before fun _ ↦ .pure _
    | text s =>
      rw [evaluate_text]
      exact .pure _
    | reference name => cases he.self
    | call name arguments => cases he.self
    | prefixed op operand =>
      by_cases hx : ∃ x, prefixed op operand = .prefixed .negate (.literal x)
      · obtain ⟨x, heq⟩ := hx
        rw [heq]
        exact records_evaluate_negation rules depth frames x
      · rw [not_exists] at hx
        have hnumeral : isNegativeNumeral (prefixed op operand) = false := by
          unfold isNegativeNumeral
          split
          · next x heq => exact absurd heq (hx x)
          · rfl
        rw [evaluate_prefixed, steps, hnumeral]
        exact ((hpart operand List.mem_cons_self).prefixOp op).bind
          (.conclude_of_ne ⟨_, rfl⟩ hx)
    | binary left op right =>
      have hleft := hpart (op.leftOperand left) List.mem_cons_self
      have hright := hpart right (List.mem_cons_of_mem _ List.mem_cons_self)
      rw [evaluate_binary, steps_binary]
      exact (hleft.binaryOp hright op).bind (.conclude_of_ne ⟨_, rfl⟩ nofun)
    | postfixed operand op =>
      rw [evaluate_postfixed, steps]
      exact ((hpart operand List.mem_cons_self).postfixOp op).bind
        (.conclude_of_ne ⟨_, rfl⟩ nofun)

end Expression

/-! ## Sessions -/

namespace Session

variable [Chance ρ]

/-- **The trace is complete and in order.** An expression without references and calls that has a
value leaves exactly the steps of its operations in the trace, each operation's own at its place,
whatever the session is. -/
theorem evaluateExpression_trace {s : Session ρ} {e : Expression}
    (he : e.Everywhere fun e ↦ e.name? = none) {r : Evaluation}
    (h : (s.evaluateExpression e).1 = .ok r) :
    List.Forall₂ Expression.IsStep e.steps r.trace.toList := by
  have hrecords : Play.Records e.steps
      (e.evaluate ⟨s.limit, s.store.saved⟩ 0 s.store.frames : Play ρ Value) :=
    Expression.records_evaluate _ _ _ he
  rw [evaluateExpression] at h
  rcases hrun : (e.evaluate ⟨s.limit, s.store.saved⟩ 0 s.store.frames).run.run
    ⟨s.chance, s.store.locals, .empty⟩ with ⟨error | v, t⟩
  · rw [hrun] at h
    cases h
  · rw [hrun] at h
    cases h
    obtain ⟨steps, htrace, hsteps⟩ := hrecords _ _ _ hrun
    rw [htrace]
    exact hsteps

/-- A number, a die that is rolled until it shows four, and the negation of zero: two operations
that leave a step, and two that leave none. -/
def mixed : Expression :=
  .list [.prefixed .negate (.literal (.ofNat 3)),
    .binary (.prefixed .die (.literal (.ofNat 6))) (.rollUntil .equal) (.literal (.ofNat 4)),
    .prefixed .negate (.literal (.ofNat 0))]

theorem evaluateExpression_trace_mixed :
    (mixed.Everywhere fun e ↦ e.name? = none) ∧
      mixed.steps.map Expression.code = ["((d6)u=4)", "(-0)"] ∧
      ∃ r, ((start (Script.ofFaces [1, 4]) 1000).evaluateExpression mixed).1 = .ok r ∧
        List.Forall₂ Expression.IsStep mixed.steps r.trace.toList := by
  have hmixed : mixed.Everywhere fun e ↦ e.name? = none := by decide
  have hok : ((start (Script.ofFaces [1, 4]) 1000).evaluateExpression mixed).1.toBool = true := by
    rw [evaluateExpression, mixed]
    simp only [Expression.evaluate_list, Expression.evaluate_prefixed, Expression.evaluate_binary,
      Expression.evaluate_literal, BinaryOp.leftOperand, List.mapM_cons, List.mapM_nil]
    decide +kernel
  refine ⟨hmixed, by decide +kernel, ?_⟩
  rcases hr : ((start (Script.ofFaces [1, 4]) 1000).evaluateExpression mixed).1 with error | r
  · rw [hr] at hok
    cases hok
  · exact ⟨r, rfl, evaluateExpression_trace hmixed hr⟩

end Session

end DiceNotation
