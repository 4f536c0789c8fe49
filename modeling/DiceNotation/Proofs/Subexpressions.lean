import DiceNotation.Expression

/-!
# Expressions in expressions

What an expression is built from and what stands somewhere in it, with the induction that goes with
it, and properties of all that stands in an expression (`Everywhere`), which can be decided if they
can be decided for each expression.
-/

namespace DiceNotation.Expression

/-- The items, arguments or operands that an expression is built from. -/
def children : Expression → List Expression
  | .list items => items
  | .call _ arguments => arguments
  | .prefixed _ operand => [operand]
  | .binary left _ right => [left, right]
  | .postfixed operand _ => [operand]
  | _ => []

/-- The expression stands somewhere in another one, or is that one itself. -/
inductive Within (x : Expression) : Expression → Prop
  | self : Within x x
  | child {e e' : Expression} (he : e ∈ e'.children) (h : Within x e) : Within x e'

theorem sizeOf_lt_of_mem_children {e e' : Expression} (h : e' ∈ e.children) :
    sizeOf e' < sizeOf e := by
  cases e with
  | list items =>
    have : sizeOf e' < sizeOf items := List.sizeOf_lt_of_mem h
    rw [list.sizeOf_spec]
    omega
  | call name arguments =>
    have : sizeOf e' < sizeOf arguments := List.sizeOf_lt_of_mem h
    rw [call.sizeOf_spec]
    omega
  | prefixed op operand =>
    obtain rfl := List.mem_singleton.mp h
    rw [prefixed.sizeOf_spec]
    omega
  | binary left op right =>
    rw [binary.sizeOf_spec]
    obtain rfl | h := List.mem_cons.mp h
    · omega
    · obtain rfl := List.mem_singleton.mp h
      omega
  | postfixed operand op =>
    obtain rfl := List.mem_singleton.mp h
    rw [postfixed.sizeOf_spec]
    omega
  | _ => exact absurd h List.not_mem_nil

/-- **Induction on expressions.** What holds of an expression as soon as it holds of all that the
expression is built from holds of every expression. -/
theorem induction {motive : Expression → Prop}
    (step : ∀ e, (∀ c ∈ e.children, motive c) → motive e) (e : Expression) : motive e := by
  refine step e fun c hc ↦ ?_
  have := sizeOf_lt_of_mem_children hc
  exact induction step c
termination_by sizeOf e

/-! ## Properties of all that stands in an expression

A property holds everywhere in an expression if it holds of the expression and everywhere in what
that is built from. -/

/-- The property holds of everything that stands somewhere in the expression. -/
def Everywhere (P : Expression → Prop) (e : Expression) : Prop := ∀ x, Within x e → P x

namespace Everywhere

variable {P : Expression → Prop} {e c : Expression}

theorem self (h : e.Everywhere P) : P e := h e .self

theorem of_mem_children (h : e.Everywhere P) (hc : c ∈ e.children) : c.Everywhere P :=
  fun x hx ↦ h x (.child hc hx)

end Everywhere

theorem everywhere_iff {P : Expression → Prop} {e : Expression} :
    e.Everywhere P ↔ P e ∧ ∀ c ∈ e.children, c.Everywhere P := by
  constructor
  · exact fun h ↦ ⟨h.self, fun _ hc ↦ h.of_mem_children hc⟩
  · rintro ⟨he, hchildren⟩ x (_ | ⟨hc, hx⟩)
    · exact he
    · exact hchildren _ hc x hx

theorem Everywhere.of_children_eq_nil {P : Expression → Prop} {e : Expression} (he : P e)
    (h : e.children = []) : e.Everywhere P :=
  everywhere_iff.mpr ⟨he, fun _ hc ↦ absurd (h ▸ hc) List.not_mem_nil⟩

/-! ## Tests of all that stands in an expression -/

mutual

/-- Whether a test succeeds for everything that stands somewhere in the expression. -/
def passes (test : Expression → Bool) : Expression → Bool
  | .literal x => test (.literal x)
  | .list items => test (.list items) && allPass test items
  | .text s => test (.text s)
  | .reference name => test (.reference name)
  | .call name arguments => test (.call name arguments) && allPass test arguments
  | .prefixed op operand => test (.prefixed op operand) && operand.passes test
  | .binary left op right =>
    test (.binary left op right) && (left.passes test && right.passes test)
  | .postfixed operand op => test (.postfixed operand op) && operand.passes test

/-- Whether a test succeeds for everything that stands somewhere in the expressions. -/
def allPass (test : Expression → Bool) : List Expression → Bool
  | [] => true
  | e :: es => e.passes test && allPass test es

end

theorem allPass_eq_all (test : Expression → Bool) (es : List Expression) :
    allPass test es = es.all (passes test) := by
  induction es with
  | nil => rfl
  | cons e es ih => rw [allPass, List.all_cons, ih]

theorem passes_eq (test : Expression → Bool) (e : Expression) :
    e.passes test = (test e && e.children.all (passes test)) := by
  cases e with
  | list items => rw [passes, allPass_eq_all, children]
  | call name arguments => rw [passes, allPass_eq_all, children]
  | _ => simp [passes, children]

theorem passes_iff {test : Expression → Bool} {e : Expression} :
    e.passes test = true ↔ e.Everywhere fun x ↦ test x = true := by
  induction e using Expression.induction with
  | step e ih =>
    rw [passes_eq, Bool.and_eq_true, List.all_eq_true, everywhere_iff]
    exact and_congr_right fun _ ↦ forall₂_congr ih

instance {P : Expression → Prop} [DecidablePred P] (e : Expression) : Decidable (e.Everywhere P) :=
  decidable_of_iff (e.passes (fun x ↦ decide (P x)) = true)
    (passes_iff.trans (by simp only [decide_eq_true_eq]))

/-! ## What stands in single expressions -/

/-- The name that an expression refers to. -/
def name? : Expression → Option String
  | .reference name => some name
  | .call name _ => some name
  | _ => none

/-- The expression is not a literal of an infinite or absent number. -/
def IsFinite : Expression → Prop
  | .literal x => x.value.isFinite = true
  | _ => True

end DiceNotation.Expression
