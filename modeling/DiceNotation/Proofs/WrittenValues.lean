import DiceNotation.Proofs.Recursion
import DiceNotation.Proofs.RoundTrip
import DiceNotation.Session

/-!
# Values written and evaluated

The code of a value is source text that evaluates to it again. No name occurs in it and nothing is
rolled, so it does so in every session, whatever names stand for, whatever calls are open and even
if no random choices are allowed. A negative number is written as a negation, which is an
operation. It is recorded as little as a literal is: what its text says is what it comes to.

What is read back differs from the value only where no comparison sees it: negative zero has lost
its sign, and each number the potential that it had.
-/

namespace DiceNotation

namespace Value

/-! ## Values with other numbers -/

/-- **Induction on values**, through the items of lists. -/
theorem induction {motive : Value → Prop} (number : ∀ x, motive (.number x))
    (list : ∀ items, (∀ v ∈ items, motive v) → motive (.list items))
    (text : ∀ s, motive (.text s)) : (v : Value) → motive v
  | .number x => number x
  | .list items => list items fun v _ ↦ induction number list text v
  | .text s => text s

mutual

/-- The value with another number in place of every number. -/
def mapNumbers (f : Number → Number) : Value → Value
  | .number x => .number (f x)
  | .list items => .list (mapAllNumbers f items)
  | .text s => .text s

/-- The values with other numbers in place of their numbers. -/
def mapAllNumbers (f : Number → Number) : List Value → List Value
  | [] => []
  | item :: rest => mapNumbers f item :: mapAllNumbers f rest

end

theorem mapNumbers_list (f : Number → Number) (items : List Value) :
    mapNumbers f (.list items) = .list (items.map (mapNumbers f)) := by
  have hitems : mapAllNumbers f items = items.map (mapNumbers f) :=
    eq_map_of_cons rfl (fun _ _ ↦ rfl) items
  rw [mapNumbers, hitems]

theorem isFinite_list {items : List Value} :
    (list items).isFinite = true ↔ ∀ v ∈ items, v.isFinite = true := by
  change allFinite items = true ↔ _
  induction items with
  | nil => simp [allFinite]
  | cons item rest ih => rw [allFinite, Bool.and_eq_true, ih, List.forall_mem_cons]

theorem codes_map {f : Value → Value} {items : List Value}
    (h : ∀ v ∈ items, (f v).code = v.code) : codes (items.map f) = codes items := by
  rw [codes_eq_intercalate, codes_eq_intercalate, List.map_map]
  exact congrArg (String.intercalate ",") (List.map_congr_left h)

theorem listEquals_map {f : Value → Value} {items : List Value}
    (h : ∀ v ∈ items, equals (f v) v = true) : listEquals (items.map f) items = true := by
  induction items with
  | nil => rfl
  | cons item rest ih =>
    obtain ⟨hitem, hrest⟩ := List.forall_mem_cons.mp h
    rw [List.map_cons, listEquals, hitem, ih hrest, Bool.and_self]

end Value

/-! ## Negations

The code of a negative number is that of a negation, and the negation is evaluated like the literal
of the number: without a step, as its code says already what it comes to. -/

theorem Binary64.isNegative_neg {x : Binary64} (h : x.isFinite = true)
    (hneg : x.isNegative = true) : (-x).isNegative = false := by
  rcases finite_cases h with ⟨n, hn, rfl, -⟩ | ⟨s, n, hn, rfl, hpos, -⟩
  · exact isNegative_finite false n hn
  · rw [hpos] at hneg
    cases hneg

theorem Number.code_eq_negation {x : Number} (h : x.value.isFinite = true)
    (hneg : x.value.isNegative = true) :
    x.code = Expression.code (.prefixed .negate (.literal (-x))) := by
  have hpos : ¬((-x).value.isNegative = true) := by
    change ¬((-x.value).isNegative = true)
    simp [Binary64.isNegative_neg h hneg]
  rw [Number.code, if_pos hneg, Expression.code, Expression.code, Number.code, if_neg hpos]
  rfl

theorem Play.conclude_eq_pure {ρ : Type} {priority : Priority} {code : String} {v : Value}
    (h : v.isFinite = true) (hcode : code = v.code) :
    (conclude priority code v : Play ρ Value) = pure v := by
  rw [conclude, if_neg (by simp [h]), if_neg (not_not_intro hcode)]

namespace Expression

variable {ρ : Type} [Chance ρ] (rules : Rules) (depth : Nat) (frames : List (List Expression))

theorem evaluate_negation {x : Number} (h : x.value.isFinite = true)
    (hneg : x.value.isNegative = true) :
    ((prefixed .negate (literal (-x))).evaluate rules depth frames : Play ρ Value)
      = pure (.number x) := by
  have hnegate : (Value.number (-x)).negate = .number x := congrArg Value.number x.neg_neg
  rw [evaluate_prefixed, evaluate_literal]
  change Play.conclude PrefixOp.negate.priority (code (prefixed .negate (literal (-x))))
    (Value.number (-x)).negate = _
  rw [hnegate]
  exact Play.conclude_eq_pure h (Number.code_eq_negation h hneg).symm

end Expression

/-! ## Numbers read back

A negative number is restored from a negation, and the sign of zero is lost. -/

namespace Number

/-- What the literal of a number is read back as comes to this number. -/
def restored (x : Number) : Number :=
  if x.value.isNegative then -const x.value.abs else const x.value.abs

variable {x : Number} (h : x.value.isFinite = true)

include h

theorem restored_cases :
    (x.reread = .prefixed .negate (.literal (-x.restored)) ∧ x.value.isNegative = true ∧
      x.restored.value = x.value) ∨ x.reread = .literal x.restored := by
  obtain ⟨value, potential⟩ := x
  rcases Binary64.finite_cases h with ⟨n, hn, rfl, hneg⟩ | ⟨s, n, hn, rfl, hneg, hs⟩
  · left
    rw [reread, restored, if_pos hneg, if_pos hneg, neg_neg]
    exact ⟨rfl, hneg, rfl⟩
  · right
    rw [reread, restored, hneg, if_neg Bool.false_ne_true, if_neg Bool.false_ne_true]

theorem restored_beq : (x.restored == x) = true := by
  obtain ⟨value, potential⟩ := x
  rcases Binary64.finite_cases h with ⟨n, hn, rfl, hneg⟩ | ⟨s, n, hn, rfl, hneg, hs⟩
  · rw [restored, if_pos hneg]
    exact Binary64.finite_beq_finite hn hn (.inl rfl)
  · rw [restored, hneg, if_neg Bool.false_ne_true]
    exact Binary64.finite_beq_finite hn hn (hs.imp_left Eq.symm)

theorem code_restored : x.restored.code = x.code := by
  rcases restored_cases h with ⟨-, -, hvalue⟩ | hreread
  · rw [code, code, hvalue]
  · have hcode := Expression.code_reread_literal h
    rwa [hreread, Expression.code] at hcode

theorem evaluate_reread {ρ : Type} [Chance ρ] (rules : Rules) (depth : Nat)
    (frames : List (List Expression)) :
    (x.reread.evaluate rules depth frames : Play ρ Value) = pure (.number x.restored) := by
  rcases restored_cases h with ⟨hreread, hneg, hvalue⟩ | hreread
  · rw [hreread]
    exact Expression.evaluate_negation rules depth frames (hvalue ▸ h) (hvalue ▸ hneg)
  · rw [hreread]
    exact Expression.evaluate_literal rules depth frames _

end Number

/-! ## Values read back

A value is written like the expression that evaluates to it. That expression is evaluated without
doing anything, and so it is when it has been read back. -/

namespace Expression

theorem ofValue_list (items : List Value) :
    ofValue (.list items) = .list (items.map ofValue) := by
  have hitems : ofValues items = items.map ofValue :=
    Value.eq_map_of_cons rfl (fun _ _ ↦ rfl) items
  rw [ofValue, hitems]

theorem code_ofValue (v : Value) : (ofValue v).code = v.code := by
  induction v using Value.induction with
  | number x => rfl
  | list items ih =>
    have hitems : codes (items.map ofValue) = Value.codes items := by
      rw [codes_eq_intercalate, Value.codes_eq_intercalate, List.map_map]
      exact congrArg (String.intercalate ",") (List.map_congr_left ih)
    rw [ofValue_list, code, hitems]
    rfl
  | text s => rfl

theorem spellable_ofValue {v : Value} (h : v.isFinite = true) : Spellable (ofValue v) := by
  induction v using Value.induction with
  | number x => exact .literal h
  | list items ih =>
    rw [ofValue_list]
    refine .list fun e he ↦ ?_
    obtain ⟨v, hv, rfl⟩ := List.mem_map.mp he
    exact ih v hv (Value.isFinite_list.mp h v hv)
  | text s => exact .text s

end Expression

namespace Value

theorem mapM_eq_pure {m : Type → Type} [Monad m] [LawfulMonad m] {α β : Type} {f : α → m β}
    {g : α → β} {items : List α} (h : ∀ a ∈ items, f a = pure (g a)) :
    items.mapM f = pure (items.map g) := by
  induction items with
  | nil => rw [List.mapM_nil, List.map_nil]
  | cons a items ih =>
    obtain ⟨ha, hitems⟩ := List.forall_mem_cons.mp h
    rw [List.mapM_cons, ha, ih hitems, pure_bind, pure_bind, List.map_cons]

/-- The expression of a value is evaluated to the value, without doing anything. -/
theorem evaluate_ofValue {ρ : Type} [Chance ρ] (v : Value) (rules : Rules) (depth : Nat)
    (frames : List (List Expression)) :
    ((Expression.ofValue v).evaluate rules depth frames : Play ρ Value) = pure v := by
  induction v using induction with
  | number x => exact Expression.evaluate_literal rules depth frames x
  | list items ih =>
    have hitems := mapM_eq_pure (m := Play ρ) ih
    rw [List.map_id'] at hitems
    rw [Expression.ofValue_list, Expression.evaluate_list, List.mapM_map]
    exact congrArg (fun p : Play ρ (List Value) ↦ p >>= fun vs ↦ pure (list vs)) hitems
  | text s => exact Expression.evaluate_text rules depth frames s

/-- What the code of a value is evaluated to. -/
def restored (v : Value) : Value := v.mapNumbers Number.restored

theorem restored_beq {v : Value} (h : v.isFinite = true) : (v.restored == v) = true := by
  change equals v.restored v = true
  induction v using induction with
  | number x => exact Number.restored_beq h
  | list items ih =>
    rw [restored, mapNumbers_list, equals]
    exact listEquals_map fun v hv ↦ ih v hv (isFinite_list.mp h v hv)
  | text s => exact beq_self_eq_true s

theorem code_restored {v : Value} (h : v.isFinite = true) : v.restored.code = v.code := by
  induction v using induction with
  | number x => exact Number.code_restored h
  | list items ih =>
    have hitems : codes (items.map restored) = codes items :=
      codes_map fun v hv ↦ ih v hv (isFinite_list.mp h v hv)
    rw [restored, mapNumbers_list, code, code]
    exact congrArg (fun s ↦ "[" ++ s ++ "]") hitems
  | text s => rfl

theorem evaluate_reread {v : Value} (h : v.isFinite = true) {ρ : Type} [Chance ρ] (rules : Rules)
    (depth : Nat) (frames : List (List Expression)) :
    ((Expression.ofValue v).reread.evaluate rules depth frames : Play ρ Value)
      = pure v.restored := by
  induction v using induction with
  | number x => exact Number.evaluate_reread h rules depth frames
  | list items ih =>
    have hitems := mapM_eq_pure (m := Play ρ) fun v hv ↦ ih v hv (isFinite_list.mp h v hv)
    rw [Expression.ofValue_list, Expression.reread, Expression.mapLiterals_list,
      Expression.evaluate_list, List.mapM_map, List.mapM_map, restored, mapNumbers_list]
    exact congrArg (fun p : Play ρ (List Value) ↦ p >>= fun vs ↦ pure (list vs)) hitems
  | text s => exact Expression.evaluate_text rules depth frames s

/-- The code of a value is read as the expression of the value. -/
theorem read_code_eq_reread {v : Value} (h : v.isFinite = true) :
    Expression.read v.code = .ok (Expression.ofValue v).reread := by
  rw [← Expression.code_ofValue]
  exact (Expression.spellable_ofValue h).spells.readAt_eq 0

end Value

/-! ## Sessions -/

/-- **Values come back.** In every session the code of a value is evaluated, without any step and
any draw, to a value that equals it and has the same code. -/
theorem Session.evaluate_value_code {v : Value} (h : v.isFinite = true) :
    ∃ r : Evaluation, (r.value == v) = true ∧ r.value.code = v.code ∧ r.trace = .empty ∧
      ∀ {ρ : Type} [Chance ρ] (s : Session ρ),
        ∃ s', s.evaluate v.code = (.ok r, s') ∧ s'.chance = s.chance := by
  refine ⟨⟨(Expression.ofValue v).reread, v.restored, .empty⟩, Value.restored_beq h,
    Value.code_restored h, rfl, fun s ↦ ?_⟩
  rw [evaluate, Value.read_code_eq_reread h]
  dsimp only
  rw [evaluateExpression, Value.evaluate_reread h]
  exact ⟨_, rfl, rfl⟩

/-- A negative number whose potential is another one, negative zero, and a text of the characters
that quoting is about. -/
theorem Session.evaluate_value_code_awkward :
    let v := Value.list [.number ⟨-(1 / 3), 6⟩, .list [.number (-Number.zero)], .text "\"\\\x7d"]
    v.isFinite = true ∧
      ∃ r : Evaluation, (r.value == v) = true ∧ r.value.code = v.code ∧ r.trace = .empty ∧
        ∀ {ρ : Type} [Chance ρ] (s : Session ρ),
          ∃ s', s.evaluate v.code = (.ok r, s') ∧ s'.chance = s.chance := by
  intro v
  have hfinite : v.isFinite = true := by decide +kernel
  exact ⟨hfinite, evaluate_value_code hfinite⟩

end DiceNotation
