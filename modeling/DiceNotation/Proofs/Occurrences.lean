import DiceNotation.Proofs.Recursion
import DiceNotation.Proofs.Subexpressions

/-!
# What an evaluation can come to

An evaluation comes to more than what stands in its expression: to what stands in the variables and
the saved functions that names refer to, and in the arguments that wait in frames. A property of
everything that stands in all of these holds wherever the evaluation goes, provided that it holds of
the built-in dice as far as they are named.
-/

namespace DiceNotation

variable {P : Expression → Prop}

/-- The property holds everywhere in what names stand for. -/
def Bindings.Everywhere (P : Expression → Prop) (b : Bindings Expression) : Prop :=
  ∀ name e, b.get? name = some e → e.Everywhere P

namespace Bindings.Everywhere

variable {b : Bindings Expression}

theorem empty : (empty : Bindings Expression).Everywhere P := by
  rintro name e ⟨⟩

theorem insert (h : b.Everywhere P) {e : Expression} (he : e.Everywhere P) (name : String) :
    (b.insert name e).Everywhere P := by
  intro other e' he'
  rw [get?_insert] at he'
  split at he'
  · cases he'
    exact he
  · exact h other e' he'

theorem erase (h : b.Everywhere P) (name : String) : (b.erase name).Everywhere P := by
  intro other e' he'
  rw [get?_erase] at he'
  split at he'
  · cases he'
  · exact h other e' he'

end Bindings.Everywhere

/-- The property holds everywhere in the arguments of the calls that are open. -/
def Store.InFrames (P : Expression → Prop) (frames : List (List Expression)) : Prop :=
  ∀ frame ∈ frames, ∀ e ∈ frame, e.Everywhere P

/-- The property holds of everything that stands somewhere in the store. -/
structure Store.Everywhere (P : Expression → Prop) (s : Store) : Prop where
  saved : s.saved.Everywhere P
  locals : s.locals.Everywhere P
  frames : InFrames P s.frames

namespace Store

theorem Everywhere.empty : Store.empty.Everywhere P where
  saved := .empty
  locals := .empty
  frames _ h := absurd h List.not_mem_nil

theorem InFrames.argument {frames outer : List (List Expression)} {i : Nat} {e : Expression}
    (h : InFrames P frames) (harg : Store.argument frames i = .ok (e, outer)) :
    e.Everywhere P ∧ InFrames P outer := by
  obtain ⟨frame, rfl, -, hi⟩ := argument_eq_ok_iff.mp harg
  obtain ⟨hframe, houter⟩ := List.forall_mem_cons.mp h
  exact ⟨hframe e (List.mem_of_getElem? hi), houter⟩

theorem eq_die_of_builtIn? {name : String} {e : Expression} (h : builtIn? name = some e) :
    ∃ n ≤ 6, e = .prefixed .die (.literal (.ofNat n)) := by
  unfold builtIn? at h
  split at h
  · cases h
    exact ⟨6, Nat.le_refl 6, rfl⟩
  · split at h
    · cases h
      exact ⟨2, by decide, rfl⟩
    · cases h

/-- What a name stands for is a built-in die or has been stored. -/
theorem everywhere_of_resolve {saved locals : Bindings Expression} {name : String}
    {body : Expression} (hsaved : saved.Everywhere P) (hlocals : locals.Everywhere P)
    (hbuiltIn : ∀ e, builtIn? name = some e → e.Everywhere P)
    (h : resolve saved locals name = .ok body) : body.Everywhere P := by
  rw [resolve] at h
  split at h
  · next e he =>
    cases h
    exact hbuiltIn _ he
  · split at h
    · next e he =>
      cases h
      exact hlocals name _ he
    · split at h
      · next e he =>
        cases h
        exact hsaved name _ he
      · cases h

end Store

/-- A property of all that stands in an expression holds in all that is evaluated for it where it
stands. -/
theorem Expression.Everywhere.of_mem_parts {e e' : Expression} (h : e.Everywhere P)
    (he' : e' ∈ e.parts) : e'.Everywhere P := by
  cases e with
  | list items => exact h.of_mem_children he'
  | prefixed op operand => exact h.of_mem_children he'
  | postfixed operand op => exact h.of_mem_children he'
  | binary left op right =>
    have hleft : left.Everywhere P := h.of_mem_children List.mem_cons_self
    have hright : right.Everywhere P :=
      h.of_mem_children (List.mem_cons_of_mem _ List.mem_cons_self)
    obtain rfl | he' := List.mem_cons.mp he'
    · -- The size of a die that is rolled until it meets a number stands in the left operand.
      unfold BinaryOp.leftOperand
      split
      · exact hleft.of_mem_children List.mem_cons_self
      · exact hleft
    · exact List.mem_singleton.mp he' ▸ hright
  | _ => exact absurd he' List.not_mem_nil

end DiceNotation
