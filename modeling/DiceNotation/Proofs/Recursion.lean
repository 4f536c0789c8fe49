import DiceNotation.Evaluation

/-!
# The recursion of evaluation

How the value of an expression depends on other evaluations, one equation for each kind of
expression, and the induction that goes with it. What matters for both is not the expression alone
but the place where it stands: its depth and the calls that are open there. An argument is
evaluated at the same depth and may be larger than the parameter that it stands for, but fewer
calls are open around it.
-/

namespace DiceNotation

theorem Store.argument_eq_ok_iff {frames outer : List (List Expression)} {i : Nat}
    {e : Expression} :
    Store.argument frames i = .ok (e, outer) ↔
      ∃ frame, frames = frame :: outer ∧ 0 < i ∧ frame[i - 1]? = some e := by
  cases frames with
  | nil => simp [Store.argument]
  | cons frame rest =>
    cases i with
    | zero => simp [Store.argument]
    | succ i =>
      rw [Store.argument, Nat.add_sub_cancel]
      constructor
      · intro h
        cases hi : frame[i]? with
        | none => rw [hi] at h; cases h
        | some e' => rw [hi] at h; cases h; exact ⟨frame, rfl, Nat.succ_pos i, hi⟩
      · rintro ⟨_, ⟨⟩, -, hi⟩
        rw [hi]

theorem Play.liftExcept_ok_bind {ρ α β : Type} (a : α) (f : α → Play ρ β) :
    (liftExcept (Except.ok a : Except RollError α) : Play ρ α) >>= f = f a := rfl

variable {ρ : Type} [Chance ρ]

namespace Expression

/-! ## Equations -/

/-- The outermost layer of evaluation: what is done with an expression, given how its parts are
evaluated, how the argument that a parameter stands for is, and how what a name stands for is,
with the arguments if it is called. -/
def layer (rules : Rules) (part : Expression → Play ρ Value) (argument : Nat → Play ρ Value)
    (nested : Option (List Expression) → Expression → Play ρ Value) : Expression → Play ρ Value
  | .literal x => pure (.number x)
  | .list items => do
    let items ← items.mapM part
    return .list items
  | .text s => pure (.text s)
  | .reference name =>
    match parameter? name with
    | some i => argument i
    | none => do
      let body ← Play.resolve rules name
      nested none body
  | .call name arguments =>
    match parameter? name with
    | some _ => Play.misuse (.parameterCalled name)
    | none => do
      let body ← Play.resolve rules name
      nested (some arguments) body
  | .prefixed op operand => do
    let v ← op.apply rules.limit (part operand)
    Play.conclude op.priority (code (.prefixed op operand)) v
  | .binary left op right => do
    let v ← op.apply rules.limit (part (op.leftOperand left)) (part right)
    Play.conclude op.priority (code (.binary left op right)) v
  | .postfixed operand op => do
    let v ← op.apply (part operand)
    Play.conclude op.priority (code (.postfixed operand op)) v

variable (rules : Rules) (depth : Nat) (frames : List (List Expression))

/-- Evaluates the argument that a parameter stands for, outside of the innermost call. -/
def evaluateArgument (i : Nat) : Play ρ Value := do
  let (e, outer) ← liftExcept (Store.argument frames i)
  e.evaluate rules depth outer

/-- Evaluates what a name stands for one level deeper, and inside one more call if the name is
called. -/
def evaluateNested (arguments : Option (List Expression)) (body : Expression) : Play ρ Value :=
  if depth < deepest then body.evaluate rules (depth + 1) (arguments.toList ++ frames)
  else Play.misuse .nestedTooDeep

theorem evaluateAll_eq_mapM (es : List Expression) :
    (evaluateAll rules depth frames es : Play ρ (List Value))
      = es.mapM fun e ↦ e.evaluate rules depth frames := by
  induction es with
  | nil => rw [evaluateAll, List.mapM_nil]
  | cons e es ih => rw [evaluateAll, List.mapM_cons, ih]

theorem evaluate_eq_layer (e : Expression) :
    (e.evaluate rules depth frames : Play ρ Value)
      = e.layer rules (fun e ↦ e.evaluate rules depth frames) (evaluateArgument rules depth frames)
          (evaluateNested rules depth frames) := by
  cases e with
  | list items => rw [evaluate, evaluateAll_eq_mapM, layer]
  | reference name =>
    rw [evaluate, layer]
    cases parameter? name with
    | none => rfl
    | some i =>
      dsimp only
      rw [evaluateArgument]
      split <;> rename_i hx <;> rw [hx] <;> rfl
  | call name arguments =>
    rw [evaluate, layer]
    cases parameter? name <;> rfl
  | _ => rw [evaluate, layer]

theorem evaluate_literal (x : Number) :
    ((literal x).evaluate rules depth frames : Play ρ Value) = pure (.number x) :=
  evaluate_eq_layer rules depth frames _

theorem evaluate_text (s : String) :
    ((text s).evaluate rules depth frames : Play ρ Value) = pure (.text s) :=
  evaluate_eq_layer rules depth frames _

theorem evaluate_list (items : List Expression) :
    ((list items).evaluate rules depth frames : Play ρ Value)
      = (items.mapM fun e ↦ e.evaluate rules depth frames) >>= fun vs ↦ pure (.list vs) :=
  evaluate_eq_layer rules depth frames _

theorem evaluate_parameter {name : String} {i : Nat} (h : parameter? name = some i) :
    ((reference name).evaluate rules depth frames : Play ρ Value)
      = evaluateArgument rules depth frames i := by
  rw [evaluate_eq_layer, layer, h]

theorem evaluate_reference {name : String} (h : parameter? name = none) :
    ((reference name).evaluate rules depth frames : Play ρ Value)
      = Play.resolve rules name >>= evaluateNested rules depth frames none := by
  rw [evaluate_eq_layer, layer, h]

theorem evaluate_call {name : String} (h : parameter? name = none) (arguments : List Expression) :
    ((call name arguments).evaluate rules depth frames : Play ρ Value)
      = Play.resolve rules name >>= evaluateNested rules depth frames (some arguments) := by
  rw [evaluate_eq_layer, layer, h]

theorem evaluate_call_parameter {name : String} {i : Nat} (h : parameter? name = some i)
    (arguments : List Expression) :
    ((call name arguments).evaluate rules depth frames : Play ρ Value)
      = Play.misuse (.parameterCalled name) := by
  rw [evaluate_eq_layer, layer, h]

theorem evaluate_prefixed (op : PrefixOp) (operand : Expression) :
    ((prefixed op operand).evaluate rules depth frames : Play ρ Value)
      = op.apply rules.limit (operand.evaluate rules depth frames) >>=
          Play.conclude op.priority (code (prefixed op operand)) :=
  evaluate_eq_layer rules depth frames _

theorem evaluate_binary (left : Expression) (op : BinaryOp) (right : Expression) :
    ((binary left op right).evaluate rules depth frames : Play ρ Value)
      = op.apply rules.limit ((op.leftOperand left).evaluate rules depth frames)
          (right.evaluate rules depth frames) >>=
          Play.conclude op.priority (code (binary left op right)) :=
  evaluate_eq_layer rules depth frames _

theorem evaluate_postfixed (operand : Expression) (op : PostfixOp) :
    ((postfixed operand op).evaluate rules depth frames : Play ρ Value)
      = op.apply (operand.evaluate rules depth frames) >>=
          Play.conclude op.priority (code (postfixed operand op)) :=
  evaluate_eq_layer rules depth frames _

/-! ## Induction -/

/-- The expressions that are evaluated for an expression where it stands. -/
def parts : Expression → List Expression
  | .list items => items
  | .prefixed _ operand => [operand]
  | .binary left op right => [op.leftOperand left, right]
  | .postfixed operand _ => [operand]
  | _ => []

theorem sizeOf_lt_of_mem_parts {e e' : Expression} (h : e' ∈ e.parts) : sizeOf e' < sizeOf e := by
  cases e with
  | list items =>
    have : sizeOf e' < sizeOf items := List.sizeOf_lt_of_mem h
    rw [list.sizeOf_spec]
    omega
  | prefixed op operand =>
    obtain rfl := List.mem_singleton.mp h
    rw [prefixed.sizeOf_spec]
    omega
  | binary left op right =>
    have := op.sizeOf_leftOperand_le left
    rw [binary.sizeOf_spec]
    obtain rfl | h := List.mem_cons.mp h
    · omega
    · obtain rfl := List.mem_singleton.mp h
      omega
  | postfixed operand op =>
    obtain rfl := List.mem_singleton.mp h
    rw [postfixed.sizeOf_spec]
    omega
  | _ => exact absurd h List.not_mem_nil

/-- **Induction along evaluation.** What holds of an expression at its place as soon as it holds of
everything that is evaluated for it, at the places where that is evaluated, holds of all
expressions. -/
theorem evaluation_induction {motive : Nat → List (List Expression) → Expression → Prop}
    (layer : ∀ depth frames e, (∀ e' ∈ e.parts, motive depth frames e') →
      (∀ i e' outer, Store.argument frames i = .ok (e', outer) → motive depth outer e') →
      (depth < deepest → ∀ frames' e', motive (depth + 1) frames' e') → motive depth frames e)
    (depth : Nat) (frames : List (List Expression)) (e : Expression) :
    motive depth frames e := by
  refine layer depth frames e (fun e' h ↦ ?_) (fun i e' outer h ↦ ?_) (fun h frames' e' ↦ ?_)
  · have := sizeOf_lt_of_mem_parts h
    exact evaluation_induction layer depth frames e'
  -- The argument may be larger than the parameter, but fewer calls are open around it.
  · have := Store.length_lt_of_argument h
    exact evaluation_induction layer depth outer e'
  · exact evaluation_induction layer (depth + 1) frames' e'
termination_by (deepest - depth, frames.length, sizeOf e)

end Expression

end DiceNotation
