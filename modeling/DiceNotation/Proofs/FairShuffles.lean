import DiceNotation.Proofs.Draws
import DiceNotation.Proofs.Finiteness
import DiceNotation.Proofs.LawfulChance
import DiceNotation.Proofs.ScriptedRolls
import Mathlib.Data.List.Forall2
import Mathlib.Logic.ExistsUnique

/-!
# Fair shuffles

A shuffle by exchanges asks for a place once for every place but the first, from the last one down,
and what it makes of the answers does not depend on the source (`exchangeAll_eq_map`). Fairness can
therefore be said of the answers alone: items that are all different come into each of their orders
by exactly one choice of places (`existsUnique_exchanged`), so that places which are equally likely
make the orders equally likely.

The choice is found from the back. The item that belongs at the last place stands at some place up
to there, which has to be the one that is chosen, as no later exchange comes back to the last place;
and once it has been exchanged, one place less is left to be put in order.
-/

namespace DiceNotation

variable {ρ α : Type}

/-! ## Exchanges with given places

An exchange leaves other places alone, and brings the item at a place up to its own to that place.
What is exchanged up to a place leaves the places behind it alone. -/

/-- The places that are exchanged with others, in their order. -/
def placesDown : (last : Nat) → List Nat
  | 0 => []
  | last + 1 => (last + 1) :: placesDown last

/-- Chooses a place for each of the given ones, up to that one. -/
def choosePlaces (choose : Nat → StateM ρ Nat) (places : List Nat) : StateM ρ (List Nat) :=
  places.mapM fun place ↦ choose (place + 1)

/-- Exchanges places with others that have been drawn for them. -/
def exchangedDown : (last : Nat) → Array α → (draws : List Nat) → Array α
  | last + 1, items, place :: draws =>
    exchangedDown last (items.swapIfInBounds (last + 1) place) draws
  | _, items, _ => items

/-- The items after they have been exchanged with the places that have been drawn. -/
def exchanged (items : List α) (draws : List Nat) : List α :=
  (exchangedDown (items.length - 1) items.toArray draws).toList

/-- The draws for a shuffle of so many items: one for each place but the first, from the last one
down, of a place up to that one. -/
def AreDraws (count : Nat) (draws : List Nat) : Prop :=
  List.Forall₂ (· ≤ ·) draws (placesDown (count - 1))

theorem length_placesDown (last : Nat) : (placesDown last).length = last := by
  induction last with
  | zero => rfl
  | succ last ih => rw [placesDown, List.length_cons, ih]

theorem exchangeDown_eq_map (choose : Nat → StateM ρ Nat) (last : Nat) (items : Array α) :
    exchangeDown choose last items
      = exchangedDown last items <$> choosePlaces choose (placesDown last) := by
  induction last generalizing items with
  | zero =>
    rw [exchangeDown, placesDown, choosePlaces, List.mapM_nil, map_pure]
    rfl
  | succ last ih =>
    rw [exchangeDown, placesDown, choosePlaces, List.mapM_cons, map_bind]
    refine bind_congr fun place ↦ ?_
    rw [ih, map_bind, map_eq_pure_bind]
    rfl

/-- **What a shuffle makes of the answers of its source** does not depend on the source. -/
theorem exchangeAll_eq_map (choose : Nat → StateM ρ Nat) (items : List α) :
    exchangeAll choose items
      = exchanged items <$> choosePlaces choose (placesDown (items.length - 1)) := by
  rw [exchangeAll, exchangeDown_eq_map, ← map_eq_pure_bind, Functor.map_map]
  rfl

theorem getElem?_swapIfInBounds_of_ne (items : Array α) {i j k : Nat} (hi : i ≠ k) (hj : j ≠ k) :
    (items.swapIfInBounds i j)[k]? = items[k]? := by
  rw [Array.swapIfInBounds_def]
  split
  · split
    · rw [Array.getElem?_swap, if_neg hj, if_neg hi]
    · rfl
  · rfl

theorem getElem?_swapIfInBounds_self {items : Array α} {i j : Nat} (hi : i < items.size)
    (hj : j ≤ i) : (items.swapIfInBounds i j)[i]? = items[j]? := by
  have hj' : j < items.size := Nat.lt_of_le_of_lt hj hi
  rw [Array.swapIfInBounds_def, dif_pos hi, dif_pos hj', Array.getElem?_swap,
    ← Array.getElem?_eq_getElem hi, ← Array.getElem?_eq_getElem hj', if_pos rfl]
  split
  · next heq => rw [heq]
  · rfl

theorem getElem?_exchangedDown {last : Nat} {draws : List Nat}
    (h : List.Forall₂ (· ≤ ·) draws (placesDown last)) {i : Nat} (hi : last < i)
    (items : Array α) : (exchangedDown last items draws)[i]? = items[i]? := by
  induction last generalizing items draws with
  | zero => rfl
  | succ last ih =>
    obtain ⟨place, draws, hplace, hdraws, rfl⟩ := List.forall₂_cons_right_iff.mp h
    rw [exchangedDown, ih hdraws (by omega),
      getElem?_swapIfInBounds_of_ne items (by omega) (by omega)]

/-! ## Orders

The item that belongs at the last place stands at exactly one place, somewhere up to there. Once it
has been exchanged, the orders differ up to the place before; in the end they differ in the first
place at most, and so not at all. -/

/-- The target is another order of items that are all different, and differs from them up to a place
only. -/
structure DiffersUpTo (last : Nat) (items target : Array α) : Prop where
  nodup : items.toList.Nodup
  perm : target.toList.Perm items.toList
  agree : ∀ i, last < i → items[i]? = target[i]?
  bound : last ≤ items.size - 1

theorem eq_of_perm_of_agree {items target : List α} (h : target.Perm items)
    (hagree : ∀ i, items[i + 1]? = target[i + 1]?) : items = target := by
  rcases items with _ | ⟨x, xs⟩
  · exact h.eq_nil.symm
  · rcases target with _ | ⟨y, ys⟩
    · exact h.symm.eq_nil
    · obtain rfl : xs = ys := List.ext_getElem? hagree
      obtain rfl := List.singleton_perm_singleton.mp ((List.perm_append_right_iff xs).mp h)
      rfl

namespace DiffersUpTo

variable {last : Nat} {items target : Array α}

theorem size_eq (h : DiffersUpTo last items target) : target.size = items.size :=
  h.perm.length_eq

theorem eq (h : DiffersUpTo 0 items target) : items = target := by
  refine Array.toList_inj.mp (eq_of_perm_of_agree h.perm fun i ↦ ?_)
  rw [Array.getElem?_toList, Array.getElem?_toList]
  exact h.agree (i + 1) (Nat.succ_pos i)

theorem place_eq (h : DiffersUpTo last items target) {i j : Nat} (hi : i < items.size)
    (hij : items[i]? = items[j]?) : i = j := by
  rw [← Array.getElem?_toList, ← Array.getElem?_toList] at hij
  exact (List.getElem?_inj hi h.nodup).mp hij

theorem exists_place (h : DiffersUpTo (last + 1) items target) :
    ∃ place ≤ last + 1, items[place]? = target[last + 1]? := by
  have hlast : last + 1 < target.size := by
    have := h.size_eq
    have := h.bound
    omega
  have hmem : target[last + 1] ∈ items.toList :=
    h.perm.mem_iff.mp (Array.mem_toList_iff.mpr (Array.getElem_mem hlast))
  obtain ⟨place, hplace⟩ := List.mem_iff_getElem?.mp hmem
  rw [Array.getElem?_toList, ← Array.getElem?_eq_getElem hlast] at hplace
  refine ⟨place, Nat.le_of_not_lt fun hbehind ↦ ?_, hplace⟩
  -- Behind the last place there are other items of the target.
  rw [h.agree place hbehind, ← Array.getElem?_toList, ← Array.getElem?_toList] at hplace
  have hnodup : target.toList.Nodup := h.perm.nodup_iff.mpr h.nodup
  have := (List.getElem?_inj hlast hnodup).mp hplace.symm
  omega

theorem exchange (h : DiffersUpTo (last + 1) items target) {place : Nat} (hplace : place ≤ last + 1)
    (hitem : items[place]? = target[last + 1]?) :
    DiffersUpTo last (items.swapIfInBounds (last + 1) place) target := by
  have hlast : last + 1 < items.size := by
    have := h.bound
    omega
  have hperm := (swapIfInBounds_perm items (last + 1) place).toList
  refine ⟨hperm.nodup_iff.mpr h.nodup, h.perm.trans hperm.symm, fun i hi ↦ ?_, ?_⟩
  · obtain rfl | hbehind := Nat.eq_or_lt_of_le (Nat.succ_le_of_lt hi)
    · rw [getElem?_swapIfInBounds_self hlast hplace, hitem]
    · rw [getElem?_swapIfInBounds_of_ne items (by omega) (by omega), h.agree i hbehind]
  · rw [Array.size_swapIfInBounds]
    omega

end DiffersUpTo

/-- **The places are found from the back**, and there is only one way to choose them. -/
theorem DiffersUpTo.existsUnique_draws {last : Nat} {items target : Array α}
    (h : DiffersUpTo last items target) :
    ∃! draws, List.Forall₂ (· ≤ ·) draws (placesDown last) ∧
      exchangedDown last items draws = target := by
  induction last generalizing items with
  | zero =>
    refine ⟨[], ⟨.nil, h.eq⟩, ?_⟩
    rintro draws ⟨hdraws, -⟩
    exact List.forall₂_nil_right_iff.mp hdraws
  | succ last ih =>
    obtain ⟨place, hplace, hitem⟩ := h.exists_place
    obtain ⟨draws, ⟨hdraws, htarget⟩, hunique⟩ := ih (h.exchange hplace hitem)
    refine ⟨place :: draws, ⟨.cons hplace hdraws, htarget⟩, ?_⟩
    rintro _ ⟨hall, htarget'⟩
    obtain ⟨place', draws', hplace', hdraws', rfl⟩ := List.forall₂_cons_right_iff.mp hall
    have hlast : last + 1 < items.size := by
      have := h.bound
      omega
    rw [exchangedDown] at htarget'
    -- The last place keeps what its exchange brought there.
    have hkept : items[place']? = target[last + 1]? := by
      rw [← htarget', getElem?_exchangedDown hdraws' (Nat.lt_succ_self last),
        getElem?_swapIfInBounds_self hlast hplace']
    obtain rfl : place' = place := h.place_eq (by omega) (hkept.trans hitem.symm)
    rw [hunique draws' ⟨hdraws', htarget'⟩]

/-- **Every order of different items comes of exactly one choice of places.** -/
theorem existsUnique_exchanged {items target : List α} (hnodup : items.Nodup)
    (hperm : target.Perm items) :
    ∃! draws, AreDraws items.length draws ∧ exchanged items draws = target := by
  have hdiffers : DiffersUpTo (items.length - 1) items.toArray target.toArray := by
    refine ⟨hnodup, hperm, fun i hi ↦ ?_, Nat.le_refl _⟩
    have hlength := hperm.length_eq
    rw [List.getElem?_toArray, List.getElem?_toArray, List.getElem?_eq_none (by omega),
      List.getElem?_eq_none (by omega)]
  obtain ⟨draws, ⟨hdraws, htarget⟩, hunique⟩ := hdiffers.existsUnique_draws
  refine ⟨draws, ⟨hdraws, congrArg Array.toList htarget⟩, ?_⟩
  rintro draws' ⟨hdraws', htarget'⟩
  exact hunique draws' ⟨hdraws', Array.toList_inj.mp htarget'⟩

/-! ## The places that a script chooses

Places are chosen one after the other. Counting the draws changes nothing else, and there is one for
each place. -/

theorem run_choosePlaces_cons {choose : Nat → StateM ρ Nat} {place j : Nat}
    {places draws : List Nat} {c c' c'' : ρ} (hplace : (choose (place + 1)).run c = (j, c'))
    (hplaces : (choosePlaces choose places).run c' = (draws, c'')) :
    (choosePlaces choose (place :: places)).run c = (j :: draws, c'') := by
  have hrest : (places.mapM fun place ↦ choose (place + 1)).run c' = (draws, c'') := hplaces
  rw [choosePlaces, List.mapM_cons, StateT.run_bind, hplace]
  change ((_ >>= fun draws ↦ pure (j :: draws) : StateM ρ (List Nat))).run c' = _
  rw [StateT.run_bind, hrest]
  rfl

theorem Tally.run_choosePlaces [Chance ρ] {places draws : List Nat} {c c' : ρ} {k : Nat}
    (h : (choosePlaces Chance.below places).run c = (draws, c')) :
    (choosePlaces Chance.below places).run (⟨c, k⟩ : Tally ρ)
      = (draws, ⟨c', k + places.length⟩) := by
  induction places generalizing c draws k with
  | nil =>
    cases h
    rfl
  | cons place places ih =>
    obtain ⟨j, c₁, hplace⟩ : ∃ j c₁, (Chance.below (place + 1)).run c = (j, c₁) := ⟨_, _, rfl⟩
    obtain ⟨rest, c₂, hplaces⟩ :
        ∃ rest c₂, (choosePlaces Chance.below places).run c₁ = (rest, c₂) := ⟨_, _, rfl⟩
    obtain ⟨rfl, rfl⟩ := Prod.mk.inj (h.symm.trans (run_choosePlaces_cons hplace hplaces))
    rw [List.length_cons, Nat.add_comm places.length 1, ← Nat.add_assoc]
    refine run_choosePlaces_cons ?_ (ih hplaces)
    change ((((Chance.below (place + 1)).run c).1, _) : Nat × Tally ρ) = _
    rw [hplace]

theorem Script.run_choosePlaces (s : Script) (last : Nat) :
    ∃ draws, (choosePlaces Chance.below (placesDown last)).run s = (draws, s.advance last) ∧
      List.Forall₂ (· ≤ ·) draws (placesDown last) := by
  induction last generalizing s with
  | zero => exact ⟨[], by rw [s.advance_zero]; rfl, .nil⟩
  | succ last ih =>
    obtain ⟨draws, hplaces, hdraws⟩ := ih (s.advance 1)
    rw [s.advance_advance, Nat.add_comm 1 last] at hplaces
    have hplace : (max (s.face 0) 1 - 1) % (last + 2) ≤ last + 1 :=
      Nat.le_of_lt_succ (Nat.mod_lt _ (Nat.succ_pos _))
    exact ⟨_, run_choosePlaces_cons (s.run_below _) hplaces, .cons hplace hdraws⟩

/-- A script shuffles items by these draws: they are its answers for the places, it has moved on by
as many faces and a count of its draws by as much, and what comes out is an order of the items. -/
structure Script.ShufflesBy (s : Script) (items : List α) (draws : List Nat) : Prop where
  answers : (choosePlaces Chance.below (placesDown (items.length - 1))).run s
    = (draws, s.advance (items.length - 1))
  areDraws : AreDraws items.length draws
  perm : (exchanged items draws).Perm items
  run : (Chance.shuffle items).run s = (exchanged items draws, s.advance (items.length - 1))
  counted : ∀ k, (Chance.shuffle items).run (⟨s, k⟩ : Tally Script)
    = (exchanged items draws, ⟨s.advance (items.length - 1), k + (items.length - 1)⟩)

theorem Script.exists_shufflesBy (s : Script) (items : List α) :
    ∃ draws, s.ShufflesBy items draws := by
  obtain ⟨draws, hanswers, hdraws⟩ := s.run_choosePlaces (items.length - 1)
  have hrun : (Chance.shuffle items).run s
      = (exchanged items draws, s.advance (items.length - 1)) := by
    change (exchangeAll Chance.below items).run s = _
    rw [exchangeAll_eq_map, StateT.run_map, hanswers]
    rfl
  refine ⟨draws, hanswers, hdraws, ?_, hrun, fun k ↦ ?_⟩
  · have hperm := Script.isLawful.shuffle items s
    rwa [hrun] at hperm
  · change (exchangeAll Chance.below items).run _ = _
    rw [exchangeAll_eq_map, StateT.run_map, Tally.run_choosePlaces hanswers, length_placesDown]
    rfl

/-! ## The operation

The items of the operand are shuffled with what the operand has left, and a finite operand comes to
a finite value. -/

section Operation

variable [Chance ρ]

theorem PostfixOp.run_shuffle_eq_ok_iff {operand : Play ρ Value} {t u : Table ρ} {w : Value} :
    (PostfixOp.shuffle.apply operand).run.run t = (.ok w, u) ↔
      ∃ v t', operand.run.run t = (.ok v, t') ∧
        w = .list ((Chance.shuffle v.items).run t'.chance).1 ∧
        u = { t' with chance := ((Chance.shuffle v.items).run t'.chance).2 } := by
  rw [PostfixOp.apply, Play.run_bind_eq_ok_iff]
  refine exists_congr fun v ↦ exists_congr fun t' ↦ and_congr_right fun _ ↦ ?_
  rw [Play.run_bind_of_ok (Play.run_random _ _), Play.run_pure_eq_ok_iff, eq_comm (a := w),
    eq_comm (a := u)]

end Operation

variable {rules : Rules} {depth : Nat} {frames : List (List Expression)} {e : Expression}
  {t t' u : Table Script} {v w : Value}

theorem Expression.exists_shufflesBy_of_evaluate
    (h : ((postfixed e .shuffle).evaluate rules depth frames).run.run t = (.ok w, u)) :
    ∃ v t' draws, (e.evaluate rules depth frames).run.run t = (.ok v, t') ∧
      t'.chance.ShufflesBy v.items draws ∧ w = .list (exchanged v.items draws) ∧
      u.chance = t'.chance.advance (v.items.length - 1) := by
  rw [evaluate_postfixed] at h
  obtain ⟨u', happlied, hchance, -⟩ := Play.exists_of_run_bind_conclude h
  obtain ⟨v, t', he, rfl, rfl⟩ := PostfixOp.run_shuffle_eq_ok_iff.mp happlied
  obtain ⟨draws, hdraws⟩ := t'.chance.exists_shufflesBy v.items
  rw [hdraws.run] at hchance ⊢
  exact ⟨v, t', draws, he, hdraws, rfl, hchance⟩

theorem Expression.exists_evaluate_shuffle
    (he : (e.evaluate rules depth frames).run.run t = (.ok v, t')) (hv : v.isFinite = true) :
    ∃ w u, ((postfixed e .shuffle).evaluate rules depth frames).run.run t = (.ok w, u) := by
  obtain ⟨draws, hdraws⟩ := t'.chance.exists_shufflesBy v.items
  have happlied := PostfixOp.run_shuffle_eq_ok_iff.mpr ⟨v, t', he, rfl, rfl⟩
  have hfinite : (Value.list ((Chance.shuffle v.items).run t'.chance).1).isFinite = true := by
    rw [hdraws.run]
    exact Value.isFinite_list.mpr fun item hitem ↦
      Value.isFinite_of_mem_items hv (hdraws.perm.mem_iff.mp hitem)
  obtain ⟨trace, hrun⟩ := Play.run_bind_conclude happlied hfinite PostfixOp.shuffle.priority
    (code (postfixed e .shuffle))
  rw [evaluate_postfixed]
  exact ⟨_, _, hrun⟩

/-- **Scripted shuffles are fair.** Whatever the script and the items are, the items come out in
some order, and it takes a draw for each of them but one. If the items are all different, each of
their orders comes of exactly one sequence of draws. An operand that is shuffled comes to an order
of its items, which it does if they are finite, and it is the order that draws of this kind bring
its items into. -/
theorem Script.shuffle_fair :
    (∀ {α : Type} (s : Script) (items : List α), ∃ draws, s.ShufflesBy items draws) ∧
      (∀ {α : Type} {items target : List α}, items.Nodup → target.Perm items →
        ∃! draws, AreDraws items.length draws ∧ exchanged items draws = target) ∧
      ∀ (rules : Rules) (depth : Nat) (frames : List (List Expression)) (e : Expression)
        (t : Table Script),
        (∀ v t', (e.evaluate rules depth frames).run.run t = (.ok v, t') → v.isFinite = true →
          ∃ w u, ((Expression.postfixed e .shuffle).evaluate rules depth frames).run.run t
            = (.ok w, u)) ∧
          ∀ w u, ((Expression.postfixed e .shuffle).evaluate rules depth frames).run.run t
              = (.ok w, u) →
            ∃ v t' draws, (e.evaluate rules depth frames).run.run t = (.ok v, t') ∧
              t'.chance.ShufflesBy v.items draws ∧ w = .list (exchanged v.items draws) ∧
              (exchanged v.items draws).Perm v.items ∧
              u.chance = t'.chance.advance (v.items.length - 1) := by
  refine ⟨exists_shufflesBy, existsUnique_exchanged, fun _ _ _ _ _ ↦
    ⟨fun _ _ ↦ Expression.exists_evaluate_shuffle, fun w u h ↦ ?_⟩⟩
  obtain ⟨v, t', draws, he, hdraws, hw, hchance⟩ := Expression.exists_shufflesBy_of_evaluate h
  exact ⟨v, t', draws, he, hdraws, hw, hdraws.perm, hchance⟩

/-- Three comes to the front of one and two only if it is exchanged with two before it is exchanged
with one. -/
theorem Script.shuffle_fair_threeFirst :
    let s : Script := ⟨#[0, 7], 1⟩
    let e : Expression := .list [.literal (.ofNat 1), .literal (.ofNat 2)]
    let t : Table Script := ⟨s, .empty, .empty⟩
    (∃ draws, s.ShufflesBy [1, 2, 3] draws) ∧ [1, 2, 3].Nodup ∧ [3, 1, 2].Perm [1, 2, 3] ∧
      (∀ draws, AreDraws 3 draws → exchanged [1, 2, 3] draws = [3, 1, 2] → draws = [1, 0]) ∧
      ∃ v w u, (e.evaluate ⟨10, .empty⟩ 0 []).run.run t = (.ok v, t) ∧ v.isFinite = true ∧
        ((Expression.postfixed e .shuffle).evaluate ⟨10, .empty⟩ 0 []).run.run t = (.ok w, u) := by
  intro s e t
  obtain ⟨hscript, horders, hoperation⟩ := shuffle_fair
  have hnodup : [1, 2, 3].Nodup := by decide
  have hperm : [3, 1, 2].Perm [1, 2, 3] := by decide
  have hdraws : AreDraws 3 [1, 0] := .cons (by decide) (.cons (by decide) .nil)
  have he : (e.evaluate ⟨10, .empty⟩ 0 []).run.run t
      = (.ok (.list [.number (.ofNat 1), .number (.ofNat 2)]), t) := by
    rw [Expression.evaluate_list, List.mapM_cons, List.mapM_cons, List.mapM_nil,
      Expression.evaluate_literal, Expression.evaluate_literal]
    rfl
  have hone : (Binary64.ofNat 1).IsNat 1 := Binary64.isNat_ofNat (by decide)
  have htwo : (Binary64.ofNat 2).IsNat 2 := Binary64.isNat_ofNat (by decide)
  have hfinite : (Value.list [.number (.ofNat 1), .number (.ofNat 2)]).isFinite = true := by
    refine Value.isFinite_list.mpr (List.forall_mem_cons.mpr ⟨hone.isFinite_eq, ?_⟩)
    exact List.forall_mem_singleton.mpr htwo.isFinite_eq
  obtain ⟨w, u, hw⟩ := (hoperation ⟨10, .empty⟩ 0 [] e t).1 _ t he hfinite
  refine ⟨hscript s _, hnodup, hperm, fun draws hdraws' htarget ↦ ?_, _, w, u, he, hfinite, hw⟩
  exact (horders hnodup hperm).unique ⟨hdraws', htarget⟩ ⟨hdraws, by decide⟩

end DiceNotation
