import DiceNotation.Proofs.Faults
import DiceNotation.Proofs.SingleOperations
import DiceNotation.Proofs.WholeNumbers
import Mathlib.Data.List.Perm.Basic

/-!
# Picking without putting back

What is picked from a list, and what is left of it (`Pick.Picked`). Items are picked in passes over
the list. All passes but the last one are shuffles of the whole list. The last one takes one item
after the other out of the list until none is missing, and together with the items that stay behind
it is a permutation of the list, too. So no item is lost or comes from elsewhere, and one that the
list has several times is picked so many times in each pass.

A source of chance has to keep to its ranges for this, and so what the acts of chance come to is
said for any state of the source (`Chance.Always`).
-/

namespace DiceNotation

variable {ρ α : Type}

namespace Pick

/-- How many passes over a list of that length it takes to pick so many items, counting the last
one, which need not be whole. -/
def rounds (count length : Nat) : Nat := (count + length - 1) / length

/-- So many items picked from a list without putting any back, and what is left of the list. -/
structure Picked (pool : List α) (count : Nat) (picked left : List α) : Prop where
  length_eq : picked.length = count
  passes : ∃ (passes : List (List α)) (last : List α), picked = passes.flatten ++ last ∧
    passes.length = rounds count pool.length - 1 ∧ (∀ pass ∈ passes, pass.Perm pool) ∧
      (last ++ left).Perm pool
  sublist : left.Sublist pool
  eq_pool : count = 0 → left = pool
  eq_nil : 0 < count → pool.length ∣ count → left = []

theorem rounds_sub_one {count length : Nat} (h : 0 < count → 0 < length) :
    rounds count length - 1 = (count - 1) / length := by
  rw [rounds]
  obtain rfl | hcount := Nat.eq_zero_or_pos count
  · rcases Nat.eq_zero_or_pos length with rfl | hlength
    · rfl
    · rw [Nat.zero_add, Nat.div_eq_of_lt (Nat.sub_lt hlength Nat.one_pos), Nat.zero_sub,
        Nat.zero_div]
  · rw [show count + length - 1 = count - 1 + length by omega, Nat.add_div_right _ (h hcount),
      Nat.succ_sub_one]

end Pick

namespace Chance

/-- So many items that have been drawn out of a pool, and what is left of it. -/
structure DrawnOut (pool : List α) (count : Nat) (items left : List α) : Prop where
  length_eq : items.length = count
  perm : (items ++ left).Perm pool
  sublist : left.Sublist pool

variable [Chance ρ] (hρ : IsLawful ρ)

include hρ

theorem always_place? {pool : List α} (h : pool ≠ []) :
    Always (fun place ↦ ∃ i, place = some i)
      (place? pool : StateM ρ (Option (Fin pool.length))) := by
  rw [place?, if_neg (by simpa using h)]
  refine (hρ.below (List.length_pos_iff.mpr h)).bind fun i hi ↦ .pure ?_
  rw [dif_pos hi]
  exact ⟨_, rfl⟩

/-- Items are drawn out as long as there are enough. Each one leaves the pool, in which the order of
the others stays. -/
theorem always_drawOut? {count : Nat} {pool : List α} (h : count ≤ pool.length) :
    Always (fun drawn ↦ ∃ items left, drawn = some (items, left) ∧ DrawnOut pool count items left)
      (drawOut? count pool : StateM ρ (Option (List α × List α))) := by
  induction count generalizing pool with
  | zero => exact .pure ⟨[], pool, rfl, rfl, .refl pool, .refl pool⟩
  | succ count ih =>
    rw [drawOut?]
    refine (always_place? hρ (List.length_pos_iff.mp (by omega))).bind ?_
    rintro _ ⟨i, rfl⟩
    have herased : (pool.eraseIdx i).length = pool.length - 1 := List.length_eraseIdx_of_lt i.isLt
    refine (ih (by omega)).bind ?_
    rintro _ ⟨items, left, rfl, hdrawn⟩
    refine .pure ⟨pool.get i :: items, left, rfl, ?_, ?_, ?_⟩
    · rw [List.length_cons, hdrawn.length_eq]
    · exact (hdrawn.perm.cons _).trans (List.getElem_cons_eraseIdx_perm i.isLt)
    · exact hdrawn.sublist.trans (List.eraseIdx_sublist pool i)

theorem always_passes (pool : List α) (count : Nat) :
    Always (fun picked ↦ ∃ passes : List (List α), picked = passes.flatten ∧
      passes.length = count ∧ ∀ pass ∈ passes, pass.Perm pool)
      (passes pool count : StateM ρ (List α)) := by
  induction count with
  | zero => exact .pure ⟨[], rfl, rfl, fun _ h ↦ absurd h List.not_mem_nil⟩
  | succ count ih =>
    refine (hρ.shuffle pool).bind fun pass hpass ↦ ih.bind ?_
    rintro _ ⟨passes, rfl, hlength, hpasses⟩
    refine .pure ⟨pass :: passes, rfl, ?_, List.forall_mem_cons.mpr ⟨hpass, hpasses⟩⟩
    rw [List.length_cons, hlength]

omit [Chance ρ] hρ in
theorem length_flatten_of_perm {pool : List α} {passes : List (List α)}
    (h : ∀ pass ∈ passes, pass.Perm pool) :
    passes.flatten.length = passes.length * pool.length := by
  induction passes with
  | nil => exact (Nat.zero_mul _).symm
  | cons pass passes ih =>
    rw [List.forall_mem_cons] at h
    rw [List.flatten_cons, List.length_append, h.1.length_eq, ih h.2, List.length_cons,
      Nat.succ_mul, Nat.add_comm]

/-- **Picking neither loses nor repeats an item** before the list is used up. -/
theorem always_pick? {pool : List α} {count : Nat} (h : 0 < count → pool ≠ []) :
    Always (fun drawn ↦ ∃ picked left, drawn = some (picked, left) ∧
      Pick.Picked pool count picked left)
      (pick? pool count : StateM ρ (Option (List α × List α))) := by
  have hlength (hcount : 0 < count) : 0 < pool.length := List.length_pos_iff.mpr (h hcount)
  let whole := (count - 1) / pool.length
  have hwhole : whole * pool.length ≤ count - 1 := Nat.div_mul_le_self _ _
  refine (always_passes hρ pool whole).bind ?_
  rintro _ ⟨passes, rfl, hpasses, hpass⟩
  have hdraw : count - whole * pool.length ≤ pool.length := Careful.sub_whole_passes_le hlength
  refine (always_drawOut? hρ hdraw).bind ?_
  rintro _ ⟨last, left, rfl, hdrawn⟩
  have hflatten : passes.flatten.length = whole * pool.length := by
    rw [length_flatten_of_perm hpass, hpasses]
  have htaken : last.length = count - whole * pool.length := hdrawn.length_eq
  have hleft : last.length + left.length = pool.length := by
    rw [← List.length_append]
    exact hdrawn.perm.length_eq
  refine .pure ⟨passes.flatten ++ last, left, rfl, ?_, ⟨passes, last, rfl, ?_, hpass, hdrawn.perm⟩,
    hdrawn.sublist, fun hcount ↦ ?_, fun hcount hdvd ↦ ?_⟩
  · rw [List.length_append, hflatten, htaken]
    omega
  · rw [hpasses, Pick.rounds_sub_one hlength]
  · exact hdrawn.sublist.eq_of_length (by omega)
  -- The last pass takes at least one item, and leaves as many as a whole pass would still take.
  · have hmissing : pool.length ∣ left.length := by
      rw [← Nat.dvd_add_right hdvd, show count + left.length = (whole + 1) * pool.length by
        rw [Nat.succ_mul]; omega]
      exact Nat.dvd_mul_left _ _
    exact List.eq_nil_of_length_eq_zero (Nat.eq_zero_of_dvd_of_lt hmissing (by omega))

end Chance

/-! ## The operation -/

theorem Pick.count_of_isNat {limit n : Nat} {x : Binary64} (h : x.floor.IsNat n) (hn : n ≤ limit)
    (hlimit : limit ≤ Count.largest) : (count limit x : Play ρ Nat) = pure n := by
  have hzero : (0 : Binary64).IsNat 0 := Binary64.isNat_ofNat (Nat.zero_le _)
  have hpositive : Binary64.le 0 x.floor = true := by
    rw [hzero.le_eq h, decide_eq_true_eq]
    exact Nat.zero_le n
  rw [count, hpositive, h.ofNat_lt_eq_false hn, h.toNat_eq (Nat.le_trans hn hlimit)]
  rfl

namespace Expression

variable [Chance ρ] {rules : Rules} {depth : Nat} {frames : List (List Expression)}
  {left right : Expression} {t t₁ t₂ : Table ρ} {number pool : Value} {count : Nat}

/-- **Picking without putting back loses and invents nothing.** Over a source that keeps to its
ranges, a number of items within the limit is picked from any list that is not empty, and none from
any list. The items that are left are kept in a variable. Two loops over a list that shrinks come to
the same. -/
theorem performs_pick (hρ : Chance.IsLawful ρ)
    (hleft : (left.evaluate rules depth frames).run.run t = (.ok number, t₁))
    (hright : (right.evaluate rules depth frames).run.run t₁ = (.ok pool, t₂))
    (hcount : number.total.value.floor.IsNat count) (hle : count ≤ rules.limit)
    (hlimit : rules.limit ≤ Count.largest) (hpool : 0 < count → pool.items ≠ []) :
    ∃ picked rest u, Pick.Picked pool.items count picked rest ∧
      u.locals = t₂.locals.insert Pick.leftName (.ofValue (.list rest)) ∧
      Performs rules depth frames left .pick right t (.list picked) u ∧
      (BinaryOp.pick.applyCarefully rules.limit (left.evaluate rules depth frames)
        (right.evaluate rules depth frames)).run.run t = (.ok (.list picked), u) := by
  obtain ⟨picked, rest, hdrawn, hpicked⟩ := Chance.always_pick? hρ hpool t₂.chance
  let c := ((Chance.pick? pool.items count).run t₂.chance).2
  let u : Table ρ :=
    { t₂ with chance := c, locals := t₂.locals.insert Pick.leftName (.ofValue (.list rest)) }
  have hrequired : (Pick.requireItems pool.items count : Play ρ Unit) = pure () := by
    rw [Pick.requireItems, if_neg]
    rintro ⟨hpos, hempty⟩
    exact hpool hpos (List.isEmpty_iff.mp hempty)
  have happlied : (BinaryOp.pick.apply rules.limit (left.evaluate rules depth frames)
      (right.evaluate rules depth frames)).run.run t = (.ok (.list picked), u) := by
    have hpick : (Play.random? (Chance.pick? pool.items count)).run.run t₂ =
        (.ok (picked, rest), { t₂ with chance := c }) :=
      Play.run_random?_of_eq_some (Prod.ext hdrawn rfl)
    simp only [BinaryOp.apply, Pick.several]
    rw [Play.run_bind_of_ok hleft, Play.run_bind_of_ok hright,
      Pick.count_of_isNat hcount hle hlimit, pure_bind, hrequired, pure_bind,
      Play.run_bind_of_ok hpick]
    rfl
  refine ⟨picked, rest, u, hpicked, rfl, .of_applied happlied, ?_⟩
  have hcareful : BinaryOp.pick.applyCarefully rules.limit (left.evaluate rules depth frames)
      (right.evaluate rules depth frames) = BinaryOp.pick.apply rules.limit
        (left.evaluate rules depth frames) (right.evaluate rules depth frames) :=
    (Play.Coincide.binaryOp hρ .pick (.refl _) (.refl _)).eq
  rw [hcareful, happlied]

/-- Five of two items are two passes over both, and one item of a third pass. -/
theorem performs_pick_fiveOfTwo :
    let five : Expression := .literal (.ofNat 5)
    let pair : Expression := .list [.literal (.ofNat 7), .literal (.ofNat 8)]
    let pool : Value := .list [.number (.ofNat 7), .number (.ofNat 8)]
    let t : Table Script := ⟨.ofFaces [2, 1], .empty, .empty⟩
    Chance.IsLawful Script ∧
      (five.evaluate ⟨5, .empty⟩ 0 []).run.run t = (.ok (.number (.ofNat 5)), t) ∧
      (pair.evaluate ⟨5, .empty⟩ 0 []).run.run t = (.ok pool, t) ∧
      (Number.ofNat 5).value.floor.IsNat 5 ∧ 5 ≤ Count.largest ∧ pool.items ≠ [] ∧
      ∃ picked rest u, Pick.Picked pool.items 5 picked rest ∧
        u.locals = t.locals.insert Pick.leftName (.ofValue (.list rest)) ∧
        Performs ⟨5, .empty⟩ 0 [] five .pick pair t (.list picked) u := by
  intro five pair pool t
  have hfive : (five.evaluate ⟨5, .empty⟩ 0 []).run.run t = (.ok (.number (.ofNat 5)), t) := by
    rw [evaluate_literal]
    rfl
  have hpair : (pair.evaluate ⟨5, .empty⟩ 0 []).run.run t = (.ok pool, t) := by
    rw [evaluate_list]
    simp only [List.mapM_cons, List.mapM_nil, evaluate_literal]
    rfl
  have hcount : (Number.ofNat 5).value.floor.IsNat 5 := (Binary64.isNat_ofNat (by decide)).floor
  have hpool : pool.items ≠ [] := nofun
  obtain ⟨picked, rest, u, hpicked, hlocals, hperforms, -⟩ :=
    performs_pick Script.isLawful hfive hpair hcount (Nat.le_refl 5) (by decide) fun _ ↦ hpool
  exact ⟨Script.isLawful, hfive, hpair, hcount, by decide, hpool, picked, rest, u, hpicked, hlocals,
    hperforms⟩

end Expression

end DiceNotation
