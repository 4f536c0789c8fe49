import DiceNotation.Chance
import Mathlib.Data.List.Forall2

/-!
# Random choices in lockstep

Two sources of random choices can be compared choice by choice. As long as they answer every
question the same (`Chance.Alike`), every act of chance comes out the same on both, and what is
drawn from two pools of related items is related. That the items do not have to be the same is due
to shuffling: a source shuffles items of any type, pairs of related items for example.
-/

namespace DiceNotation.Chance

variable {ρ σ α β γ δ : Type}

/-- From sources that are alike, two choices come out related and leave sources alike. -/
def Agree (C : ρ → σ → Prop) (V : α → β → Prop) (choice : StateM ρ α) (choice' : StateM σ β) :
    Prop :=
  ∀ c d, C c d →
    V (choice.run c).1 (choice'.run d).1 ∧ C (choice.run c).2 (choice'.run d).2

namespace Agree

variable {C : ρ → σ → Prop} {V : α → β → Prop} {W : γ → δ → Prop}

theorem pure {a : α} {b : β} (h : V a b) : Agree C V (pure a) (pure b) := fun _ _ hcd ↦ ⟨h, hcd⟩

theorem bind {choice : StateM ρ α} {choice' : StateM σ β} {rest : α → StateM ρ γ}
    {rest' : β → StateM σ δ} (h : Agree C V choice choice')
    (hr : ∀ a b, V a b → Agree C W (rest a) (rest' b)) :
    Agree C W (choice >>= rest) (choice' >>= rest') := by
  intro c d hcd
  obtain ⟨hab, hcd'⟩ := h c d hcd
  exact hr _ _ hab _ _ hcd'

theorem bind_eq {choice : StateM ρ α} {choice' : StateM σ α} {rest : α → StateM ρ γ}
    {rest' : α → StateM σ δ} (h : Agree C Eq choice choice')
    (hr : ∀ a, Agree C W (rest a) (rest' a)) : Agree C W (choice >>= rest) (choice' >>= rest') :=
  h.bind fun a _ hab ↦ hab ▸ hr a

end Agree

/-- Two sources that answer every question the same as long as they are alike. -/
structure Alike [Chance ρ] [Chance σ] (C : ρ → σ → Prop) : Prop where
  below (bound : Nat) : Agree C Eq (below bound) (below bound)
  fraction : Agree C Eq fraction fraction
  shuffle {α : Type} (items : List α) : Agree C Eq (shuffle items) (shuffle items)

namespace Alike

theorem eq [Chance ρ] : Alike (ρ := ρ) Eq where
  below _ := by rintro c _ rfl; exact ⟨rfl, rfl⟩
  fraction := by rintro c _ rfl; exact ⟨rfl, rfl⟩
  shuffle _ := by rintro c _ rfl; exact ⟨rfl, rfl⟩

variable [Chance ρ] [Chance σ] {C : ρ → σ → Prop} (h : Alike C)

include h

/-! ## Rolling -/

theorem rollDie (sides : Nat) : Agree C Eq (rollDie sides) (rollDie sides) := by
  rw [Chance.rollDie, Chance.rollDie]
  split
  · exact h.fraction.bind_eq fun _ ↦ .pure rfl
  · exact (h.below sides).bind_eq fun _ ↦ .pure rfl

theorem rollDice (sides count : Nat) :
    Agree C Eq (rollDice sides count) (rollDice sides count) := by
  induction count with
  | zero => exact .pure rfl
  | succ count ih => exact (h.rollDie sides).bind_eq fun _ ↦ ih.bind_eq fun _ ↦ .pure rfl

theorem rollUntil (sides : Nat) (met : Number → Bool) (limit : Nat) :
    Agree C Eq (rollUntil sides met limit) (rollUntil sides met limit) := by
  induction limit with
  | zero => exact .pure rfl
  | succ limit ih =>
    refine (h.rollDie sides).bind_eq fun die ↦ ?_
    split
    · exact .pure rfl
    · exact ih.bind_eq fun _ ↦ .pure rfl

/-! ## Drawing

The same place is drawn from pools of the same size, so that items that have been drawn are related,
and so is what is left. -/

variable {V : α → β → Prop} {pool : List α} {pool' : List β}

omit h in
theorem isEmpty_eq_of_length_eq (hlength : pool.length = pool'.length) :
    pool.isEmpty = pool'.isEmpty := by
  rw [Bool.eq_iff_iff, List.isEmpty_iff_length_eq_zero, List.isEmpty_iff_length_eq_zero, hlength]

theorem place? (hlength : pool.length = pool'.length) :
    Agree C (Option.Rel fun i j ↦ i.val = j.val) (place? pool) (place? pool') := by
  rw [Chance.place?, Chance.place?, isEmpty_eq_of_length_eq hlength, hlength]
  split
  · exact .pure .none
  · refine (h.below _).bind_eq fun i ↦ .pure ?_
    by_cases hi : i < pool'.length
    · simp only [dif_pos hi]
      exact .some rfl
    · simp only [dif_neg hi]
      exact .none

theorem draw? (hpool : List.Forall₂ V pool pool') :
    Agree C (Option.Rel V) (draw? pool) (draw? pool') := by
  refine (h.place? hpool.length_eq).bind fun place place' hplace ↦ .pure ?_
  cases hplace with
  | none => exact .none
  | @some i j hij =>
    obtain ⟨i, hi⟩ := i
    obtain ⟨j, hj⟩ := j
    obtain rfl : i = j := hij
    exact .some (hpool.get hi hj)

theorem drawReplacing? (hpool : List.Forall₂ V pool pool') (count : Nat) :
    Agree C (Option.Rel (List.Forall₂ V)) (drawReplacing? pool count)
      (drawReplacing? pool' count) := by
  induction count with
  | zero => exact .pure (.some .nil)
  | succ count ih =>
    refine (h.draw? hpool).bind fun item item' hitem ↦ ?_
    cases hitem with
    | none => exact .pure .none
    | some hitem =>
      refine ih.bind fun items items' hitems ↦ .pure ?_
      cases hitems with
      | none => exact .none
      | some hitems => exact .some (.cons hitem hitems)

omit h in
theorem forall₂_eraseIdx (hpool : List.Forall₂ V pool pool') (i : Nat) :
    List.Forall₂ V (pool.eraseIdx i) (pool'.eraseIdx i) := by
  induction hpool generalizing i with
  | nil => exact .nil
  | cons hitem hrest ih =>
    cases i with
    | zero => exact hrest
    | succ i => exact .cons hitem (ih i)

theorem drawOut? (hpool : List.Forall₂ V pool pool') (count : Nat) :
    Agree C (Option.Rel fun p q ↦ List.Forall₂ V p.1 q.1 ∧ List.Forall₂ V p.2 q.2)
      (drawOut? count pool) (drawOut? count pool') := by
  induction count generalizing pool pool' with
  | zero => exact .pure (.some ⟨.nil, hpool⟩)
  | succ count ih =>
    refine (h.place? hpool.length_eq).bind fun place place' hplace ↦ ?_
    cases hplace with
    | none => exact .pure .none
    | @some i j hij =>
      obtain ⟨i, hi⟩ := i
      obtain ⟨j, hj⟩ := j
      obtain rfl : i = j := hij
      refine (ih (forall₂_eraseIdx hpool i)).bind fun drawn drawn' hdrawn ↦ .pure ?_
      cases hdrawn with
      | none => exact .none
      | some hdrawn => exact .some ⟨.cons (hpool.get hi hj) hdrawn.1, hdrawn.2⟩

/-! ## Shuffling

Lists of related items are the two sides of one list of pairs. A source shuffles the pairs as it
shuffles each side, so related items come into the same order. -/

omit h in
theorem exists_pairs_of_forall₂ (hpool : List.Forall₂ V pool pool') :
    ∃ pairs : List { p : α × β // V p.1 p.2 },
      pool = pairs.map (·.1.1) ∧ pool' = pairs.map (·.1.2) := by
  induction hpool with
  | nil => exact ⟨[], rfl, rfl⟩
  | @cons a b _ _ hab _ ih =>
    obtain ⟨pairs, rfl, rfl⟩ := ih
    exact ⟨⟨(a, b), hab⟩ :: pairs, rfl, rfl⟩

theorem shuffle_forall₂ (hpool : List.Forall₂ V pool pool') :
    Agree C (List.Forall₂ V) (Chance.shuffle pool) (Chance.shuffle pool') := by
  obtain ⟨pairs, rfl, rfl⟩ := exists_pairs_of_forall₂ hpool
  rw [shuffle_map, shuffle_map, map_eq_pure_bind, map_eq_pure_bind]
  refine (h.shuffle pairs).bind_eq fun pairs ↦ .pure ?_
  rw [List.forall₂_map_left_iff, List.forall₂_map_right_iff, List.forall₂_same]
  exact fun p _ ↦ p.2

theorem passes (hpool : List.Forall₂ V pool pool') (count : Nat) :
    Agree C (List.Forall₂ V) (passes pool count) (passes pool' count) := by
  induction count with
  | zero => exact .pure .nil
  | succ count ih =>
    exact (h.shuffle_forall₂ hpool).bind fun _ _ hpass ↦ ih.bind fun _ _ hrest ↦
      .pure (List.rel_append hpass hrest)

theorem pick? (hpool : List.Forall₂ V pool pool') (count : Nat) :
    Agree C (Option.Rel fun p q ↦ List.Forall₂ V p.1 q.1 ∧ List.Forall₂ V p.2 q.2)
      (pick? pool count) (pick? pool' count) := by
  rw [Chance.pick?, Chance.pick?, hpool.length_eq]
  refine (h.passes hpool _).bind fun first first' hfirst ↦
    (h.drawOut? hpool _).bind fun drawn drawn' hdrawn ↦ .pure ?_
  cases hdrawn with
  | none => exact .none
  | some hdrawn => exact .some ⟨List.rel_append hfirst hdrawn.1, hdrawn.2⟩

end Alike

end DiceNotation.Chance
