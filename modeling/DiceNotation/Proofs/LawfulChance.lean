import DiceNotation.Chance.Generator
import DiceNotation.Chance.Script

/-!
# Sources that keep to their ranges

What can be said of a choice whatever state the source is in (`Chance.Always`), and the sources that
answer a question for a number below a bound by one, if there are any, and that put items into
another order without losing or repeating one (`Chance.IsLawful`). A source that shuffles by
exchanging items does so in any case, even if it does not keep to its ranges: an exchange with a
place outside of the items is none.
-/

namespace DiceNotation

variable {ρ α β : Type}

namespace Chance

/-- Whatever state the source is in, what the choice comes to has the property. -/
def Always (P : α → Prop) (choice : StateM ρ α) : Prop := ∀ c, P (choice.run c).1

namespace Always

variable {P : α → Prop} {Q : β → Prop}

theorem pure {a : α} (h : P a) : Always P (pure a : StateM ρ α) := fun _ ↦ h

theorem bind {choice : StateM ρ α} {rest : α → StateM ρ β} (h : Always P choice)
    (hr : ∀ a, P a → Always Q (rest a)) : Always Q (choice >>= rest) :=
  fun c ↦ hr _ (h c) _

theorem trivial (choice : StateM ρ α) : Always (fun _ ↦ True) choice := fun _ ↦ True.intro

end Always

/-- A source that keeps to the ranges it is asked about, and that neither loses nor repeats items
that it shuffles. -/
structure IsLawful (ρ : Type) [Chance ρ] : Prop where
  below {bound : Nat} (h : 0 < bound) : Always (· < bound) (below bound : StateM ρ Nat)
  shuffle {α : Type} (items : List α) : Always (·.Perm items) (shuffle items : StateM ρ (List α))

end Chance

/-! ## Exchanges -/

theorem swapIfInBounds_perm (items : Array α) (i j : Nat) :
    (items.swapIfInBounds i j).Perm items := by
  rw [Array.swapIfInBounds_def]
  split
  · split
    · exact Array.swap_perm _ _
    · exact .refl _
  · exact .refl _

theorem always_exchangeDown_perm (choose : Nat → StateM ρ Nat) (last : Nat) (items : Array α) :
    Chance.Always (·.Perm items) (exchangeDown choose last items) := by
  induction last generalizing items with
  | zero => exact .pure (.refl _)
  | succ last ih =>
    refine (Chance.Always.trivial _).bind fun place _ ↦ ?_
    intro c
    exact (ih _ c).trans (swapIfInBounds_perm items _ _)

theorem always_exchangeAll_perm (choose : Nat → StateM ρ Nat) (items : List α) :
    Chance.Always (·.Perm items) (exchangeAll choose items) :=
  (always_exchangeDown_perm choose _ _).bind fun _ h ↦ .pure h.toList

/-! ## Sources -/

theorem Script.isLawful : Chance.IsLawful Script where
  below h := (Chance.Always.trivial _).bind fun face _ ↦ .pure (Nat.mod_lt face h)
  shuffle items := always_exchangeAll_perm _ items

theorem Generator.isLawful : Chance.IsLawful Generator where
  below h := (Chance.Always.trivial _).bind fun _ _ ↦ (Chance.Always.trivial _).bind fun _ _ ↦
    .pure (Nat.mod_lt _ h)
  shuffle items := always_exchangeAll_perm _ items

end DiceNotation
