import DiceNotation.Proofs.LawfulChance
import DiceNotation.Text.Count

/-!
# Careful acts of chance

The acts of chance once more, as a machine takes them: with words for numbers, and in steps of which
some cannot be taken everywhere. There is no choice below zero, no item outside of a pool, no
negative difference and no word behind the largest. An act that comes to such a step comes to
nothing (`Careful`). Items that are not put back are picked in two loops, one for whole passes over
the pool and one for the items of the last pass; a loop that would go round more often than there
are items to pick comes to nothing as well.

From a lawful source none of this happens, and the acts come out as those they were written after
(`Careful.Surely`). Where the steps of an act have to be prepared by its caller, this is a
hypothesis: a die has as many sides as a word can tell, and nothing is picked from an empty pool.
-/

namespace DiceNotation

/-- A choice that may come to nothing, where a machine could not go on. -/
abbrev Careful (ρ : Type) := OptionT (StateM ρ)

namespace Careful

variable {ρ α β : Type}

/-! ## Steps -/

/-- A choice that comes to something in any case. -/
def choose (choice : StateM ρ α) : Careful ρ α := OptionT.lift choice

theorem choose_pure (a : α) : choose (pure a : StateM ρ α) = pure a := rfl

theorem choose_bind (choice : StateM ρ α) (rest : α → StateM ρ β) :
    choose (choice >>= rest) = choose choice >>= fun a ↦ choose (rest a) := rfl

/-- The word behind a word. -/
def next (n : Nat) : Careful ρ Nat := if n < Count.largest then pure (n + 1) else failure

/-- How much larger the one word is than the other. -/
def difference (m n : Nat) : Careful ρ Nat := if n ≤ m then pure (m - n) else failure

/-- The item at a place of the pool. -/
def item (pool : List α) (place : Nat) : Careful ρ α := OptionT.mk (return pool[place]?)

/-- Takes the item at a place out of the pool. -/
def remove (pool : List α) (place : Nat) : Careful ρ (α × List α) := do
  let a ← item pool place
  return (a, pool.eraseIdx place)

theorem next_eq {n : Nat} (h : n < Count.largest) : (next n : Careful ρ Nat) = pure (n + 1) :=
  if_pos h

theorem difference_eq {m n : Nat} (h : n ≤ m) :
    (difference m n : Careful ρ Nat) = pure (m - n) :=
  if_pos h

theorem item_eq {pool : List α} {place : Nat} (h : place < pool.length) :
    (item pool place : Careful ρ α) = pure pool[place] := by
  rw [item, List.getElem?_eq_getElem h]
  rfl

theorem remove_eq {pool : List α} {place : Nat} (h : place < pool.length) :
    (remove pool place : Careful ρ (α × List α)) = pure (pool[place], pool.eraseIdx place) := by
  rw [remove, item_eq h, pure_bind]

variable [Chance ρ]

/-- A number below the bound. -/
def below (bound : Nat) : Careful ρ Nat :=
  if 0 < bound then choose (Chance.below bound) else failure

theorem below_eq {bound : Nat} (h : 0 < bound) :
    (below bound : Careful ρ Nat) = choose (Chance.below bound) :=
  if_pos h

/-! ## Acts -/

/-- Rolls a die. -/
def rollDie (sides : Nat) : Careful ρ Number :=
  if sides ≤ 1 then do
    let x ← choose Chance.fraction
    return ⟨x, 1⟩
  else do
    let face ← below sides
    let shown ← next face
    return ⟨.ofNat shown, .ofNat sides⟩

/-- Rolls a die `count` times. -/
def rollDice (sides : Nat) : (count : Nat) → Careful ρ (List Number)
  | 0 => pure []
  | count + 1 => do
    let die ← rollDie sides
    let dice ← rollDice sides count
    return die :: dice

/-- Rolls a die until a roll is met, but at most `limit` times. -/
def rollUntil (sides : Nat) (met : Number → Bool) :
    (limit : Nat) → Careful ρ (List Number × Option Number)
  | 0 => pure ([], none)
  | limit + 1 => do
    let die ← rollDie sides
    if met die then return ([], some die)
    else
      let (dice, last) ← rollUntil sides met limit
      return (die :: dice, last)

/-- Draws an item, which stays in the pool. -/
def draw (pool : List α) : Careful ρ α := do
  let place ← below pool.length
  item pool place

/-- Draws `count` items, each of which stays in the pool. -/
def drawReplacing (pool : List α) : (count : Nat) → Careful ρ (List α)
  | 0 => pure []
  | count + 1 => do
    let item ← draw pool
    let items ← drawReplacing pool count
    return item :: items

/-- Picks whole passes over the pool as long as more items are missing than there are in it. -/
def passes (pool : List α) (count : Nat) : (rounds : Nat) → (picked : List α) → Careful ρ (List α)
  | 0, _ => failure
  | rounds + 1, picked =>
    if pool.isEmpty then pure picked
    else do
      let missing ← difference count picked.length
      if pool.length < missing then
        let pass ← choose (Chance.shuffle pool)
        passes pool count rounds (picked ++ pass)
      else return picked

/-- Picks items out of the pool until there are `count`. -/
def fill (count : Nat) : (rounds : Nat) → (picked pool : List α) → Careful ρ (List α × List α)
  | 0, _, _ => failure
  | rounds + 1, picked, pool =>
    if picked.length < count then do
      let place ← below pool.length
      let (item, pool) ← remove pool place
      fill count rounds (picked ++ [item]) pool
    else return (picked, pool)

/-- Picks `count` items without putting any back: the items, and what is left of the pool. -/
def pick (pool : List α) (count : Nat) : Careful ρ (List α × List α) := do
  let picked ← passes pool count (count + 1) []
  fill count (count + 1) picked pool

/-! ## Acts that come to something

An act surely comes to something if it does from every state of a lawful source, and what it comes
to has a property. The rules for binds carry the property from one step to the next. -/

/-- Both acts come to the same, which is something that has the property. -/
def Surely (P : α → Prop) (act act' : Careful ρ α) : Prop :=
  ∀ c, ∃ a c', P a ∧ act.run.run c = (some a, c') ∧ act'.run.run c = (some a, c')

/-- Both acts come to the same, which is something. -/
abbrev ComesOut (act act' : Careful ρ α) : Prop := Surely (fun _ ↦ True) act act'

namespace Surely

variable {P : α → Prop} {Q : β → Prop} {act act' : Careful ρ α} {rest rest' : α → Careful ρ β}

omit [Chance ρ]

theorem mono {P' : α → Prop} (h : Surely P act act') (hP : ∀ a, P a → P' a) :
    Surely P' act act' := by
  intro c
  obtain ⟨a, c', ha, hact⟩ := h c
  exact ⟨a, c', hP a ha, hact⟩

theorem pure {a : α} (h : P a) : Surely P (pure a : Careful ρ α) (pure a) :=
  fun c ↦ ⟨a, c, h, rfl, rfl⟩

theorem choose {choice : StateM ρ α} (h : Chance.Always P choice) :
    Surely P (Careful.choose choice) (Careful.choose choice) :=
  fun c ↦ ⟨_, _, h c, rfl, rfl⟩

theorem run_bind {c c' : ρ} {a : α} (h : act.run.run c = (some a, c')) :
    (act >>= rest).run.run c = (rest a).run.run c' := by
  rw [OptionT.run_bind, Option.elimM, StateT.run_bind, h]
  rfl

theorem bind (h : Surely P act act') (hr : ∀ a, P a → Surely Q (rest a) (rest' a)) :
    Surely Q (act >>= rest) (act' >>= rest') := by
  intro c
  obtain ⟨a, c', ha, hact, hact'⟩ := h c
  obtain ⟨b, c'', hb, hrest, hrest'⟩ := hr a ha c'
  exact ⟨b, c'', hb, (run_bind hact).trans hrest, (run_bind hact').trans hrest'⟩

end Surely

omit [Chance ρ] in
theorem mk_bind {choice : StateM ρ (Option α)} {go : Option α → StateM ρ (Option β)}
    {rest : α → Careful ρ β} (hnone : go none = pure none)
    (hsome : ∀ a, go (some a) = (rest a).run) :
    OptionT.mk (choice >>= go) = (OptionT.mk choice : Careful ρ α) >>= rest := by
  refine OptionT.ext ?_
  rw [OptionT.run_bind, Option.elimM]
  refine bind_congr fun drawn ↦ ?_
  rcases drawn with _ | a
  · exact hnone
  · exact hsome a

omit [Chance ρ] in
theorem mk_map (choice : StateM ρ (Option α)) (f : α → β) :
    OptionT.mk (choice >>= fun a ↦ return a.map f)
      = (OptionT.mk choice : Careful ρ α) >>= fun a ↦ pure (f a) :=
  mk_bind rfl fun _ ↦ rfl

section Lawful

variable (hρ : Chance.IsLawful ρ)

include hρ

theorem surely_below {bound : Nat} (h : 0 < bound) :
    Surely (· < bound) (below bound : Careful ρ Nat) (choose (Chance.below bound)) := by
  rw [below_eq h]
  exact .choose (hρ.below h)

/-! ## Rolling

The face of a die is a word, since the die has one more side than there are faces below it. -/

variable {sides : Nat} (hsides : sides ≤ Count.largest)

include hsides

theorem comesOut_rollDie : ComesOut (rollDie sides : Careful ρ Number)
    (choose (Chance.rollDie sides)) := by
  unfold rollDie Chance.rollDie
  split
  · rw [choose_bind]
    exact (Surely.choose (.trivial _)).bind fun x _ ↦ .pure trivial
  · next h =>
    rw [choose_bind]
    refine (surely_below hρ (by omega)).bind fun face hface ↦ ?_
    rw [next_eq (by omega), pure_bind]
    exact .pure trivial

theorem comesOut_rollDice (count : Nat) : ComesOut
    (rollDice sides count : Careful ρ (List Number)) (choose (Chance.rollDice sides count)) := by
  induction count with
  | zero => exact .pure trivial
  | succ count ih =>
    rw [rollDice, Chance.rollDice, choose_bind]
    exact (comesOut_rollDie hρ hsides).bind fun die _ ↦ ih.bind fun dice _ ↦ .pure trivial

theorem comesOut_rollUntil (met : Number → Bool) (limit : Nat) : ComesOut
    (rollUntil sides met limit : Careful ρ (List Number × Option Number))
    (choose (Chance.rollUntil sides met limit)) := by
  induction limit with
  | zero => exact .pure trivial
  | succ limit ih =>
    rw [rollUntil, Chance.rollUntil, choose_bind]
    refine (comesOut_rollDie hρ hsides).bind fun die _ ↦ ?_
    split
    · exact .pure trivial
    · exact ih.bind fun _ _ ↦ .pure trivial

omit hsides

/-! ## Drawing -/

variable {pool : List α}

theorem surely_place {P : β → Prop} (h : pool ≠ []) {rest : Nat → Careful ρ β}
    {rest' : Fin pool.length → Careful ρ β}
    (hr : ∀ i (hi : i < pool.length), Surely P (rest i) (rest' ⟨i, hi⟩)) :
    Surely P (below pool.length >>= rest) (OptionT.mk (Chance.place? pool) >>= rest') := by
  have hplace : (OptionT.mk (Chance.place? pool) : Careful ρ (Fin pool.length))
      = choose (Chance.below pool.length) >>= fun i ↦
          OptionT.mk (return if h : i < pool.length then some ⟨i, h⟩ else none) := by
    rw [Chance.place?, if_neg (by simpa using h)]
    rfl
  rw [hplace, bind_assoc]
  refine (surely_below hρ (List.length_pos_iff.mpr h)).bind fun i hi ↦ ?_
  rw [dif_pos hi]
  exact hr i hi

theorem comesOut_draw (h : pool ≠ []) :
    ComesOut (draw pool : Careful ρ α) (OptionT.mk (Chance.draw? pool)) := by
  rw [draw, Chance.draw?, mk_map]
  refine surely_place hρ h fun i hi ↦ ?_
  rw [item_eq hi]
  exact .pure trivial

theorem comesOut_drawReplacing {count : Nat} (h : 0 < count → pool ≠ []) :
    ComesOut (drawReplacing pool count : Careful ρ (List α))
      (OptionT.mk (Chance.drawReplacing? pool count)) := by
  induction count with
  | zero => exact .pure trivial
  | succ count ih =>
    have hpool := h (Nat.succ_pos count)
    have hdraw : (OptionT.mk (Chance.drawReplacing? pool (count + 1)) : Careful ρ (List α))
        = OptionT.mk (Chance.draw? pool) >>= fun item ↦
            OptionT.mk (Chance.drawReplacing? pool count) >>= fun items ↦ pure (item :: items) :=
      mk_bind rfl fun item ↦ congrArg OptionT.run (mk_map _ (item :: ·))
    rw [hdraw]
    exact (comesOut_draw hρ hpool).bind fun item _ ↦ (ih fun _ ↦ hpool).bind fun items _ ↦
      .pure trivial

/-! ## Picking

The first loop goes round as often as there are whole passes, and leaves no more for the last pass
than there is in the pool. The second one goes round once for each item that is still missing. -/

theorem surely_passes {count whole rounds : Nat} {picked : List α} (hrounds : whole < rounds)
    (hpicked : picked.length ≤ count)
    (hwhole : (count - picked.length - 1) / pool.length = whole) :
    Surely (·.length = picked.length + whole * pool.length)
      (passes pool count rounds picked : Careful ρ (List α))
      (choose (Chance.passes pool whole) >>= fun rest ↦ pure (picked ++ rest)) := by
  induction whole generalizing rounds picked with
  | zero =>
    obtain ⟨rounds, rfl⟩ := Nat.exists_eq_add_of_lt hrounds
    rw [passes, Chance.passes, choose_pure, pure_bind, List.append_nil]
    split
    · exact .pure (by omega)
    · next hpool =>
      have hlength : 0 < pool.length := List.length_pos_iff.mpr (by simpa using hpool)
      have hmissing : count - picked.length - 1 < pool.length :=
        (Nat.div_eq_zero_iff_lt hlength).mp hwhole
      rw [difference_eq hpicked, pure_bind, if_neg (by omega)]
      exact .pure (by omega)
  | succ whole ih =>
    obtain ⟨rounds, rfl⟩ := Nat.exists_eq_add_of_lt hrounds
    have hmissing : pool.length ≤ count - picked.length - 1 := by
      refine Nat.le_of_not_lt fun h ↦ ?_
      rw [Nat.div_eq_of_lt h] at hwhole
      omega
    have hlength : 0 < pool.length := by
      refine Nat.pos_of_ne_zero fun h ↦ ?_
      rw [h, Nat.div_zero] at hwhole
      omega
    have hpool : ¬pool.isEmpty = true := by simpa using List.length_pos_iff.mp hlength
    rw [passes, if_neg hpool, difference_eq hpicked, pure_bind, if_pos (by omega), Chance.passes]
    simp only [choose_bind, bind_assoc, choose_pure, pure_bind, ← List.append_assoc]
    refine (Surely.choose (hρ.shuffle pool)).bind fun pass hpass ↦ ?_
    have hpassed : (picked ++ pass).length = picked.length + pool.length := by
      rw [List.length_append, hpass.length_eq]
    have hone : count - (picked ++ pass).length - 1 = count - picked.length - 1 - pool.length := by
      omega
    rw [Nat.div_eq_sub_div hlength hmissing, ← hone] at hwhole
    refine (ih (by omega) (by omega) (by omega)).mono fun picked' hpicked' ↦ ?_
    rw [hpicked', hpassed, Nat.succ_mul]
    omega

theorem comesOut_fill {count missing rounds : Nat} {picked : List α} (hrounds : missing < rounds)
    (hcount : picked.length + missing = count) (hpool : missing ≤ pool.length) :
    ComesOut (fill count rounds picked pool : Careful ρ (List α × List α))
      (OptionT.mk (Chance.drawOut? missing pool) >>= fun drawn ↦
        pure (picked ++ drawn.1, drawn.2)) := by
  induction missing generalizing rounds picked pool with
  | zero =>
    obtain ⟨rounds, rfl⟩ := Nat.exists_eq_add_of_lt hrounds
    have hnothing : (OptionT.mk (Chance.drawOut? 0 pool) : Careful ρ (List α × List α))
        = pure ([], pool) := rfl
    rw [fill, if_neg (by omega), hnothing, pure_bind, List.append_nil]
    exact .pure trivial
  | succ missing ih =>
    obtain ⟨rounds, rfl⟩ := Nat.exists_eq_add_of_lt hrounds
    have hdraw : (OptionT.mk (Chance.drawOut? (missing + 1) pool) : Careful ρ (List α × List α))
        = OptionT.mk (Chance.place? pool) >>= fun i ↦
            OptionT.mk (Chance.drawOut? missing (pool.eraseIdx i)) >>= fun drawn ↦
              pure (pool.get i :: drawn.1, drawn.2) :=
      mk_bind rfl fun i ↦ congrArg OptionT.run
        (mk_map _ fun drawn : List α × List α ↦ (pool.get i :: drawn.1, drawn.2))
    rw [fill, if_pos (by omega), hdraw]
    simp only [bind_assoc, pure_bind]
    refine surely_place hρ (List.length_pos_iff.mp (by omega)) fun i hi ↦ ?_
    rw [remove_eq hi, pure_bind]
    have hpicked : (picked ++ [pool[i]]).length = picked.length + 1 := List.length_append
    have herased : (pool.eraseIdx i).length = pool.length - 1 := List.length_eraseIdx_of_lt hi
    have hfill : ComesOut
        (fill count (missing + 1 + rounds) (picked ++ [pool[i]]) (pool.eraseIdx i) :
          Careful ρ (List α × List α)) _ :=
      ih (by omega) (by omega) (by omega)
    simp only [List.append_assoc, List.singleton_append] at hfill
    exact hfill

omit [Chance ρ] hρ in
theorem sub_whole_passes_le {count length : Nat} (h : 0 < count → 0 < length) :
    count - (count - 1) / length * length ≤ length := by
  obtain rfl | hcount := Nat.eq_zero_or_pos count
  · omega
  · have : count - 1 < (count - 1) / length * length + length := Nat.lt_div_mul_add (h hcount)
    omega

/-- The two loops come to what picking comes to. -/
theorem comesOut_pick {count : Nat} (h : 0 < count → pool ≠ []) :
    ComesOut (pick pool count : Careful ρ (List α × List α))
      (OptionT.mk (Chance.pick? pool count)) := by
  let whole := (count - 1) / pool.length
  have hpick : (OptionT.mk (Chance.pick? pool count) : Careful ρ (List α × List α))
      = choose (Chance.passes pool whole) >>= fun first ↦
          OptionT.mk (Chance.drawOut? (count - whole * pool.length) pool) >>= fun drawn ↦
            pure (first ++ drawn.1, drawn.2) := by
    simp only [← mk_map]
    rfl
  have hwhole : whole * pool.length ≤ count - 1 := Nat.div_mul_le_self _ _
  have hrest : count - whole * pool.length ≤ pool.length :=
    sub_whole_passes_le fun hcount ↦ List.length_pos_iff.mpr (h hcount)
  have hrounds : whole < count + 1 :=
    Nat.lt_succ_of_le (Nat.le_trans (Nat.div_le_self _ _) (Nat.sub_le _ _))
  have hpasses : Surely _ (passes pool count (count + 1) [] : Careful ρ (List α)) _ :=
    surely_passes hρ hrounds (Nat.zero_le _) rfl
  simp only [List.nil_append, bind_pure] at hpasses
  rw [pick, hpick]
  refine hpasses.bind fun picked hpicked ↦ ?_
  rw [List.length_nil, Nat.zero_add] at hpicked
  exact comesOut_fill hρ (by omega) (by omega) hrest

-- Without an item in the pool there is no choice to be made.
example : ((pick ([] : List Nat) 1).run.run (Script.ofFaces [1])).1 = none := rfl

end Lawful

end Careful

end DiceNotation
