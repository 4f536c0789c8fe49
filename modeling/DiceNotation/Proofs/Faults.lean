import DiceNotation.Proofs.CallStack
import DiceNotation.Proofs.CarefulChance
import DiceNotation.Proofs.Finiteness
import DiceNotation.Session

/-!
# Evaluation without faults

An evaluation that asks for a choice below zero, looks for an item outside of a pool, takes a larger
number from a smaller one or goes behind the largest word has nowhere to go on. What prevents this
stands far from where it would happen: the number of sides and of items is checked by the operator,
and the depth goes down where a name is left that it went up for.

Here the evaluator is written once more with all these steps made carefully. Operators make careful
acts of chance, and the depth is a counter that goes down only if it is not zero; a step that
cannot be taken ends the evaluation with an internal error, which no operator raises on its own and
none keeps back. Over a lawful source careful evaluation comes to what evaluation comes to, and that
is never an internal error (`Session.evaluateExpression_not_fault`). So no such step was attempted.

Both halves of this are about the same pairs of plays, a careful one and the one it stands for
(`Play.Coincide`). Whether faults are tolerated is a parameter: the plays are the same whatever
their operands do, also if those are out of rounds, and they do not fault if their operands do not.
-/

namespace DiceNotation

variable {ρ : Type} {α β : Type}

/-! ## Careful operators

They are the operators with careful acts of chance in the place of the acts. -/

section Operators

variable [Chance ρ]

namespace Careful

/-- Rolls one die of the given size. -/
def rollOne (limit : Nat) (size : Play ρ Value) : Play ρ Value := do
  let sides ← Dice.sidesOf (← size)
  Play.requireChoice limit
  let die ← Play.random? (rollDie sides).run
  return .number die

/-- Rolls several dice of the given size. -/
def roll (limit : Nat) (count size : Play ρ Value) : Play ρ Value := do
  let count ← count
  let size ← size
  let count := count.total.value.floor
  if !Binary64.le 1 count then Play.misuse .noDice
  else if (Binary64.ofNat limit).lt count then throw (.limitExceeded limit)
  else
    let sides ← Dice.sidesOf size
    let dice ← Play.random? (rollDice sides (count.toNat Count.largest)).run
    return .list (dice.map .number)

/-- Rolls a die of the given size until it meets the cutoff. -/
def repeatRoll (limit : Nat) (cmp : Comparison) (size bound : Play ρ Value) : Play ρ Value := do
  Play.clearVariable Dice.lastName
  let sides ← Dice.sidesOf (← size)
  let bound ← bound
  let cutoff ← liftExcept (Dice.cutoff cmp sides bound.total.value)
  Play.requireChoice limit
  let (dice, last) ←
    Play.random? (rollUntil sides (fun die ↦ cmp.holds die.value cutoff) limit).run
  match last with
  | some die => Play.setVariable Dice.lastName (.number die)
  | none => pure ()
  return .list (dice.map .number)

/-- Picks one item. -/
def one (limit : Nat) (pool : Play ρ Value) : Play ρ Value := do
  let pool := (← pool).items
  Play.requireChoice limit
  Pick.requireItems pool 1
  Play.random? (draw pool).run

/-- Picks several items without putting any back. -/
def several (limit : Nat) (number pool : Play ρ Value) : Play ρ Value := do
  let number ← number
  let pool := (← pool).items
  let count ← Pick.count limit number.total.value
  Pick.requireItems pool count
  let (picked, left) ← Play.random? (pick pool count).run
  Play.setVariable Pick.leftName (.list left)
  return .list picked

/-- Picks several items, putting each one back. -/
def replacing (limit : Nat) (number pool : Play ρ Value) : Play ρ Value := do
  let number ← number
  let pool := (← pool).items
  let count ← Pick.count limit number.total.value
  Pick.requireItems pool count
  let picked ← Play.random? (drawReplacing pool count).run
  return .list picked

end Careful

/-- What a prefix operator computes, carefully. -/
def PrefixOp.applyCarefully (limit : Nat) (op : PrefixOp) (operand : Play ρ Value) :
    Play ρ Value :=
  match op with
  | .die => Careful.rollOne limit operand
  | .pickOne => Careful.one limit operand
  | op => op.apply limit operand

/-- What a binary operator computes, carefully. -/
def BinaryOp.applyCarefully (limit : Nat) (op : BinaryOp) (left right : Play ρ Value) :
    Play ρ Value :=
  match op with
  | .dice => Careful.roll limit left right
  | .rollUntil cmp => Careful.repeatRoll limit cmp left right
  | .pick => Careful.several limit left right
  | .pickReplacing => Careful.replacing limit left right
  | op => op.apply limit left right

/-- The outermost layer of evaluation, with careful operators. -/
def Expression.layerCarefully (rules : Rules) (part : Expression → Play ρ Value)
    (argument : Nat → Play ρ Value)
    (nested : Option (List Expression) → Expression → Play ρ Value) : Expression → Play ρ Value
  | .prefixed op operand => do
    let v ← op.applyCarefully rules.limit (part operand)
    Play.conclude op.priority (code (.prefixed op operand)) v
  | .binary left op right => do
    let v ← op.applyCarefully rules.limit (part (op.leftOperand left)) (part right)
    Play.conclude op.priority (code (.binary left op right)) v
  | e => e.layer rules part argument nested

end Operators

/-! ## Plays without faults

Nothing has to be known about a play if faults are tolerated. If they are not, one that cannot fail
and a choice that comes to something are without faults. -/

/-- The failure is a fault of the evaluator. -/
def RollError.IsFault (e : RollError) : Prop := ∃ text, e = .internal text

namespace Play

/-- A result that has the property, or a failure that is no fault, unless faults are tolerated. -/
inductive Sound (tolerated : Prop) (P : α → Prop) : Except RollError α → Prop
  | ok {a : α} (h : P a) : Sound tolerated P (.ok a)
  | error {e : RollError} (h : e.IsFault → tolerated) : Sound tolerated P (.error e)

/-- Both plays are the same, and they end soundly. -/
def Coincide (tolerated : Prop) (P : α → Prop) (p q : Play ρ α) : Prop :=
  ∀ t, p.run.run t = q.run.run t ∧ Sound tolerated P (q.run.run t).1

/-- Both plays are the same, and do not end with a fault, unless faults are tolerated. -/
abbrev Same (tolerated : Prop) (p q : Play ρ α) : Prop := Coincide tolerated (fun _ ↦ True) p q

namespace Coincide

variable {tolerated : Prop} {P : α → Prop} {Q : β → Prop} {p q : Play ρ α} {f g : α → Play ρ β}

theorem eq (h : Coincide tolerated P p q) : p = q :=
  ExceptT.ext (funext fun t ↦ (h t).1)

theorem right (h : Coincide tolerated P p q) : Coincide tolerated P q q := fun t ↦ ⟨rfl, (h t).2⟩

theorem refl (p : Play ρ α) : Same True p p := by
  intro t
  refine ⟨rfl, ?_⟩
  rcases (p.run.run t).1 with e | a
  · exact .error fun _ ↦ trivial
  · exact .ok trivial

theorem pure {a : α} (h : P a) : Coincide tolerated P (pure a : Play ρ α) (pure a) :=
  fun _ ↦ ⟨rfl, .ok h⟩

theorem throw {e : RollError} (h : ¬e.IsFault) :
    Coincide tolerated P (throw e : Play ρ α) (throw e) :=
  fun _ ↦ ⟨rfl, .error fun hfault ↦ absurd hfault h⟩

theorem misuse (m : Misuse) : Coincide tolerated P (misuse m : Play ρ α) (misuse m) :=
  throw (by rintro ⟨_, ⟨⟩⟩)

theorem bind (h : Coincide tolerated P p q) (hf : ∀ a, P a → Coincide tolerated Q (f a) (g a)) :
    Coincide tolerated Q (p >>= f) (q >>= g) := by
  intro t
  obtain ⟨hpq, hsound⟩ := h t
  rw [run_bind, run_bind, hpq]
  generalize q.run.run t = first at hsound
  obtain ⟨outcome, t'⟩ := first
  rcases hsound with ha | hfault
  · exact hf _ ha t'
  · exact ⟨rfl, .error hfault⟩

theorem of_ok (h : ∀ t, ∃ a, (p.run.run t).1 = .ok a) : Same tolerated p p := by
  intro t
  obtain ⟨a, ha⟩ := h t
  rw [ha]
  exact ⟨rfl, .ok trivial⟩

theorem lifted {x : Except RollError α} (h : ∀ e, x = .error e → ¬e.IsFault) :
    Same tolerated (liftExcept x : Play ρ α) (liftExcept x) := by
  rcases x with e | a
  · exact throw (h e rfl)
  · exact pure trivial

theorem mapM {items : List α} {f g : α → Play ρ β}
    (h : ∀ a ∈ items, Same tolerated (f a) (g a)) :
    Same tolerated (items.mapM f) (items.mapM g) := by
  induction items with
  | nil => exact pure trivial
  | cons a items ih =>
    rw [List.forall_mem_cons] at h
    rw [List.mapM_cons, List.mapM_cons]
    exact h.1.bind fun _ _ ↦ (ih h.2).bind fun _ _ ↦ pure trivial

theorem random? {act : Careful ρ α} {choice : StateM ρ (Option α)}
    (h : Careful.Surely P act (OptionT.mk choice)) :
    Coincide tolerated P (random? act.run) (random? choice) := by
  intro t
  obtain ⟨a, c, ha, hact, hchoice⟩ := h t.chance
  have hchosen : (Play.random? choice).run.run t = _ := run_random?_of_eq_some hchoice
  rw [run_random?_of_eq_some hact, hchosen]
  exact ⟨rfl, .ok ha⟩

theorem random {act : Careful ρ α} {choice : StateM ρ α}
    (h : Careful.Surely P act (.choose choice)) :
    Coincide tolerated P (Play.random? act.run) (Play.random choice) :=
  random? h

/-! ### Checks -/

theorem sidesOf (size : Value) :
    Coincide tolerated (· ≤ Count.largest) (Dice.sidesOf size : Play ρ Nat)
      (Dice.sidesOf size) := by
  unfold Dice.sidesOf Dice.sides
  split
  · next n h =>
    split at h
    · cases h
      exact .pure (Binary64.toNat_le _ _)
    · cases h
  · exact .misuse _

theorem requireChoice (limit : Nat) :
    Same tolerated (Play.requireChoice limit : Play ρ Unit)
      (Play.requireChoice limit) := by
  unfold Play.requireChoice
  split
  · exact throw (by rintro ⟨_, ⟨⟩⟩)
  · exact pure trivial

theorem pickCount (limit : Nat) (x : Binary64) :
    Same tolerated (Pick.count limit x : Play ρ Nat) (Pick.count limit x) := by
  unfold Pick.count
  split
  · exact misuse _
  · split
    · exact throw (by rintro ⟨_, ⟨⟩⟩)
    · exact pure trivial

theorem requireItems (pool : List Value) (count : Nat) :
    Coincide tolerated (fun _ ↦ 0 < count → pool ≠ [])
      (Pick.requireItems pool count : Play ρ Unit) (Pick.requireItems pool count) := by
  unfold Pick.requireItems
  split
  · exact misuse _
  · next h =>
    refine pure fun hcount hpool ↦ h ⟨hcount, ?_⟩
    rw [hpool]
    rfl

theorem cutoff (cmp : Comparison) (sides : Nat) (x : Binary64) :
    Same tolerated (liftExcept (Dice.cutoff cmp sides x) : Play ρ Binary64)
      (liftExcept (Dice.cutoff cmp sides x)) := by
  refine lifted ?_
  unfold Dice.cutoff
  split
  · rintro _ ⟨⟩ ⟨_, ⟨⟩⟩
  · split
    · split
      · rintro _ ⟨⟩ ⟨_, ⟨⟩⟩
      · rintro _ ⟨⟩
    · split
      · rintro _ ⟨⟩
      · rintro _ ⟨⟩ ⟨_, ⟨⟩⟩

/-! ### Operators -/

section Operators

variable [Chance ρ] (hρ : Chance.IsLawful ρ) {limit : Nat}
  {left left' right right' operand operand' : Play ρ Value}

include hρ

theorem rollOne (h : Same tolerated operand operand') :
    Same tolerated (Careful.rollOne limit operand)
      (Dice.rollOne limit operand') :=
  h.bind fun _ _ ↦ (sidesOf _).bind fun _ hsides ↦ (requireChoice limit).bind fun _ _ ↦
    (random (Careful.comesOut_rollDie hρ hsides)).bind fun _ _ ↦ pure trivial

theorem roll (hl : Same tolerated left left')
    (hr : Same tolerated right right') :
    Same tolerated (Careful.roll limit left right)
      (Dice.roll limit left' right') := by
  refine hl.bind fun count _ ↦ hr.bind fun size _ ↦ ?_
  dsimp only
  split
  · exact misuse _
  · split
    · exact throw (by rintro ⟨_, ⟨⟩⟩)
    · exact (sidesOf size).bind fun _ hsides ↦
        (random (Careful.comesOut_rollDice hρ hsides _)).bind fun _ _ ↦ pure trivial

theorem rollUntil (cmp : Comparison) (hl : Same tolerated left left')
    (hr : Same tolerated right right') :
    Same tolerated (Careful.repeatRoll limit cmp left right)
      (Dice.rollUntil limit cmp left' right') := by
  refine (of_ok fun _ ↦ ⟨_, rfl⟩).bind fun _ _ ↦ hl.bind fun size _ ↦
    (sidesOf size).bind fun sides hsides ↦ hr.bind fun bound _ ↦ (cutoff cmp sides _).bind
    fun cutoff _ ↦ (requireChoice limit).bind fun _ _ ↦
    (random (Careful.comesOut_rollUntil hρ hsides _ limit)).bind ?_
  rintro ⟨dice, _ | die⟩ -
  · exact pure trivial
  · exact (of_ok fun _ ↦ ⟨_, rfl⟩).bind fun _ _ ↦ pure trivial

theorem pickOne (h : Same tolerated operand operand') :
    Same tolerated (Careful.one limit operand) (Pick.one limit operand') :=
  h.bind fun pool _ ↦ (requireChoice limit).bind fun _ _ ↦ (requireItems pool.items 1).bind
    fun _ hpool ↦ random? (Careful.comesOut_draw hρ (hpool Nat.one_pos))

theorem several (hl : Same tolerated left left')
    (hr : Same tolerated right right') :
    Same tolerated (Careful.several limit left right)
      (Pick.several limit left' right') :=
  hl.bind fun _ _ ↦ hr.bind fun pool _ ↦ (pickCount limit _).bind fun count _ ↦
    (requireItems pool.items count).bind fun _ hpool ↦
    (random? (Careful.comesOut_pick hρ hpool)).bind fun _ _ ↦
    (of_ok fun _ ↦ ⟨_, rfl⟩).bind fun _ _ ↦ pure trivial

theorem replacing (hl : Same tolerated left left')
    (hr : Same tolerated right right') :
    Same tolerated (Careful.replacing limit left right)
      (Pick.replacing limit left' right') :=
  hl.bind fun _ _ ↦ hr.bind fun pool _ ↦ (pickCount limit _).bind fun count _ ↦
    (requireItems pool.items count).bind fun _ hpool ↦
    (random? (Careful.comesOut_drawReplacing hρ hpool)).bind fun _ _ ↦ pure trivial

omit [Chance ρ] hρ in
theorem arithmetic {f : Number → Number → Play ρ Number}
    (hf : ∀ x y, Same tolerated (f x y) (f x y))
    (hl : Same tolerated left left') (hr : Same tolerated right right') :
    Same tolerated (arithmetic f left right) (arithmetic f left' right') :=
  hl.bind fun _ _ ↦ hr.bind fun _ _ ↦ (hf _ _).bind fun _ _ ↦ pure trivial

/-- **Prefix operators** are the careful ones, and without faults if their operand is. -/
theorem prefixOp (op : PrefixOp) (h : Same tolerated operand operand') :
    Same tolerated (op.applyCarefully limit operand) (op.apply limit operand') := by
  cases op with
  | die => exact rollOne hρ h
  | pickOne => exact pickOne hρ h
  | _ => exact h.bind fun _ _ ↦ pure trivial

/-- **Binary operators** are the careful ones, and without faults if their operands are. -/
theorem binaryOp (op : BinaryOp) (hl : Same tolerated left left')
    (hr : Same tolerated right right') :
    Same tolerated (op.applyCarefully limit left right) (op.apply limit left' right') := by
  cases op with
  | dice => exact roll hρ hl hr
  | rollUntil cmp => exact rollUntil hρ cmp hl hr
  | pick => exact several hρ hl hr
  | pickReplacing => exact replacing hρ hl hr
  | join => exact hl.bind fun _ _ ↦ hr.bind fun _ _ ↦ pure trivial
  | subtract => exact hl.bind fun _ _ ↦ hr.bind fun _ _ ↦ pure trivial
  | multiply =>
    simp only [BinaryOp.applyCarefully, BinaryOp.apply]
    exact arithmetic (fun _ _ ↦ pure trivial) hl hr
  | divide =>
    simp only [BinaryOp.applyCarefully, BinaryOp.apply]
    refine arithmetic (fun x y ↦ ?_) hl hr
    unfold quotient
    split
    · exact misuse _
    · exact pure trivial
  | power =>
    simp only [BinaryOp.applyCarefully, BinaryOp.apply]
    exact arithmetic (fun _ _ ↦ pure trivial) hl hr

omit hρ in
/-- **Postfix operators** are without faults if their operand is. -/
theorem postfixOp (op : PostfixOp) (h : Same tolerated operand operand') :
    Same tolerated (op.apply operand) (op.apply operand') := by
  cases op with
  | shuffle =>
    exact h.bind fun _ _ ↦ (of_ok fun _ ↦ ⟨_, rfl⟩).bind fun _ _ ↦ pure trivial

omit [Chance ρ] hρ in
theorem conclude (priority : Priority) (code : String) (v : Value) :
    Same tolerated (Play.conclude priority code v : Play ρ Value)
      (Play.conclude priority code v) := by
  unfold Play.conclude
  split
  · exact misuse _
  · split
    · exact (of_ok fun _ ↦ ⟨_, rfl⟩).bind fun _ _ ↦ pure trivial
    · exact pure trivial

omit [Chance ρ] hρ in
theorem resolve (rules : Rules) (name : String) :
    Same tolerated (Play.resolve rules name : Play ρ Expression) (Play.resolve rules name) := by
  refine Coincide.bind (of_ok fun _ ↦ ⟨_, rfl⟩) fun t _ ↦ lifted ?_
  unfold Store.resolve
  split
  · rintro _ ⟨⟩
  · split
    · rintro _ ⟨⟩
    · split
      · rintro _ ⟨⟩
      · rintro _ ⟨⟩ ⟨_, ⟨⟩⟩

/-- The outermost layer of evaluation is the careful one, and without faults if all that is
evaluated for it is. -/
theorem layer {rules : Rules} {part part' : Expression → Play ρ Value}
    {argument argument' : Nat → Play ρ Value}
    {nested nested' : Option (List Expression) → Expression → Play ρ Value} {e : Expression}
    (hpart : ∀ e' ∈ e.parts, Same tolerated (part e') (part' e'))
    (hargument : ∀ i, Same tolerated (argument i) (argument' i))
    (hnested : ∀ arguments body, Same tolerated (nested arguments body) (nested' arguments body)) :
    Same tolerated (e.layerCarefully rules part argument nested)
      (e.layer rules part' argument' nested') := by
  cases e with
  | literal x => exact pure trivial
  | list items => exact (mapM hpart).bind fun _ _ ↦ pure trivial
  | text s => exact pure trivial
  | reference name =>
    simp only [Expression.layerCarefully, Expression.layer]
    rcases parameter? name with _ | i
    · exact (resolve rules name).bind fun body _ ↦ hnested none body
    · exact hargument i
  | call name arguments =>
    simp only [Expression.layerCarefully, Expression.layer]
    rcases parameter? name with _ | i
    · exact (resolve rules name).bind fun body _ ↦ hnested (some arguments) body
    · exact misuse _
  | prefixed op operand =>
    exact (prefixOp hρ op (hpart operand List.mem_cons_self)).bind fun _ _ ↦ conclude _ _ _
  | binary left op right =>
    have hleft := hpart (op.leftOperand left) List.mem_cons_self
    have hright := hpart right (List.mem_cons_of_mem _ List.mem_cons_self)
    exact (binaryOp hρ op hleft hright).bind fun _ _ ↦ conclude _ _ _
  | postfixed operand op =>
    exact (postfixOp op (hpart operand List.mem_cons_self)).bind fun _ _ ↦ conclude _ _ _

end Operators

end Coincide

end Play

/-! ## Evaluation without faults -/

theorem not_isFault_of_argument {frames : List (List Expression)} {i : Nat} {e : RollError}
    (h : Store.argument frames i = .error e) : ¬e.IsFault := by
  rintro ⟨text, rfl⟩
  unfold Store.argument at h
  split at h
  · cases h
  · split at h
    · cases h
    · split at h <;> cases h

namespace Expression

variable [Chance ρ] (hρ : Chance.IsLawful ρ)

include hρ

theorem layerCarefully_eq (rules : Rules) (part : Expression → Play ρ Value)
    (argument : Nat → Play ρ Value)
    (nested : Option (List Expression) → Expression → Play ρ Value) (e : Expression) :
    e.layerCarefully rules part argument nested = e.layer rules part argument nested :=
  (Play.Coincide.layer hρ (fun _ _ ↦ .refl _) (fun _ ↦ .refl _) fun _ _ ↦ .refl _).eq

/-- Evaluation does not end with a fault. -/
theorem same_evaluate (rules : Rules) (depth : Nat) (frames : List (List Expression))
    (e : Expression) :
    Play.Same False (e.evaluate rules depth frames : Play ρ Value)
      (e.evaluate rules depth frames) := by
  induction depth, frames, e using evaluation_induction with
  | layer depth frames e hpart hargument hnested =>
    have hargument' (i : Nat) :
        Play.Same False (evaluateArgument rules depth frames i : Play ρ Value)
          (evaluateArgument rules depth frames i) := by
      unfold evaluateArgument
      rcases hx : Store.argument frames i with error | ⟨e', outer⟩
      · exact .throw (not_isFault_of_argument hx)
      · exact hargument i e' outer hx
    have hnested' (arguments : Option (List Expression)) (body : Expression) :
        Play.Same False (evaluateNested rules depth frames arguments body : Play ρ Value)
          (evaluateNested rules depth frames arguments body) := by
      unfold evaluateNested
      split
      · next hd => exact hnested hd _ body
      · exact .misuse _
    rw [evaluate_eq_layer]
    exact (Play.Coincide.layer hρ hpart hargument' hnested').right

end Expression

/-! ## The depth counter

What is played at another place leaves the stack as it was if there is always a way back, and it
undoes the way there. What a name stands for is evaluated one level deeper, and that is how far the
depth can go down again. -/

/-- Comes back from what a name stands for, if the counter can go down. -/
def Stacked.ascend? (arguments : Option (List Expression)) (s : Stacked ρ) : Option (Stacked ρ) :=
  if 0 < s.depth then some (s.ascend arguments) else none

namespace Play

/-- Plays at another place. It is a fault if there is no way back. -/
def within (enter : Stacked ρ → Stacked ρ) (leave? : Stacked ρ → Option (Stacked ρ))
    (p : Play (Stacked ρ) α) : Play (Stacked ρ) α :=
  ExceptT.mk fun t ↦
    let (outcome, t) := p.run.run { t with chance := enter t.chance }
    match leave? t.chance with
    | some chance => (outcome, { t with chance })
    | none => (.error (.internal "the depth cannot go down"), t)

/-- Evaluates what a name stands for, in a new frame if it is called with arguments. -/
def nestedCarefully (arguments : Option (List Expression)) (p : Play (Stacked ρ) α) :
    Play (Stacked ρ) α := do
  let (_, depth) ← place
  if depth ≥ deepest then misuse .nestedTooDeep
  else within (Stacked.descend arguments) (Stacked.ascend? arguments) p

theorem run_within {enter : Stacked ρ → Stacked ρ} {leave? : Stacked ρ → Option (Stacked ρ)}
    {p : Play (Stacked ρ) α} {t t' : Table (Stacked ρ)} {outcome : Except RollError α}
    {s : Stacked ρ} (h : p.run.run { t with chance := enter t.chance } = (outcome, t'))
    (hleave : leave? t'.chance = some s) :
    (within enter leave? p).run.run t = (outcome, { t' with chance := s }) := by
  rw [within, ExceptT.run_mk, StateT.run, h]
  dsimp only
  rw [hleave]

namespace Follows

variable {R R' : Table ρ → Table (Stacked ρ) → Prop} {excused : RollError → Prop}
  {V : α → β → Prop} {p : Play ρ α} {base depth : Nat} {frames : List (List Expression)}

theorem within {q : Nat → Play (Stacked ρ) β} {enter : Stacked ρ → Stacked ρ}
    {leave? : Stacked ρ → Option (Stacked ρ)}
    (henter : ∀ t u, R t u → R' t { u with chance := enter u.chance })
    (hleave : ∀ t u, R' t u → ∃ s, leave? u.chance = some s ∧ R t { u with chance := s })
    (h : Follows R' excused V p q) :
    Follows R excused V p fun n ↦ Play.within enter leave? (q n) := by
  intro t u htu
  obtain hexcused | ⟨outcome, u', hmatches, htu', n, hn⟩ := h _ _ (henter t u htu)
  · exact Or.inl hexcused
  · obtain ⟨s, hs, hR⟩ := hleave _ _ htu'
    exact Or.inr ⟨outcome, _, hmatches, hR, n, fun m hm ↦ run_within (hn m hm) hs⟩

theorem nestedCarefully {q : Nat → Play (Stacked ρ) β} {arguments : Option (List Expression)}
    (h : depth < deepest →
      Follows (Table.At base (depth + 1) (arguments.toList ++ frames)) excused V p q) :
    Follows (Table.At base depth frames) excused V
      (if depth < deepest then p else Play.misuse .nestedTooDeep)
      fun n ↦ Play.nestedCarefully arguments (q n) := by
  refine place ?_
  by_cases hd : depth < deepest
  · simp only [if_pos hd, if_neg (Nat.not_le_of_lt hd)]
    refine within Table.At.descend (fun t u hu ↦ ⟨_, if_pos ?_, hu.ascend⟩) (h hd)
    rw [hu.stack.depth]
    exact Nat.succ_pos depth
  · simp only [if_neg hd, if_pos (Nat.le_of_not_lt hd)]
    exact misuse _

end Follows

end Play

/-! ## Careful evaluation -/

theorem Chance.IsLawful.stacked [Chance ρ] (hρ : IsLawful ρ) : IsLawful (Stacked ρ) where
  below h := fun s ↦ hρ.below h s.chance
  shuffle items := fun s ↦ hρ.shuffle items s.chance

/-- Evaluates an expression on the stack in so many rounds, carefully. -/
def Expression.executeCarefully [Chance ρ] (rules : Rules) :
    (rounds : Nat) → Expression → Play (Stacked ρ) Value
  | 0, _ => throw (.internal "out of rounds")
  | rounds + 1, e => do
    Play.note
    e.layerCarefully rules (executeCarefully rules rounds)
      (fun i ↦ Play.argument i (executeCarefully rules rounds))
      fun arguments body ↦ Play.nestedCarefully arguments (executeCarefully rules rounds body)

/-- Evaluates an expression in so many rounds, carefully. -/
def Session.evaluateCarefully [Chance ρ] (s : Session ρ) (rounds : Nat) (e : Expression) :
    Except RollError Evaluation × Session ρ :=
  let table : Table ρ := ⟨s.chance, s.store.locals, .empty⟩
  let (outcome, table) := (e.executeCarefully ⟨s.limit, s.store.saved⟩ rounds).run.run
    (table.stacked s.store.frames 0 [])
  let store : Store := ⟨s.store.saved, table.locals, table.chance.frames⟩
  match outcome with
  | .error error => (.error error, { s with chance := table.chance.chance, store })
  | .ok v =>
    (.ok ⟨e, v, table.trace⟩,
      { s with
        chance := table.chance.chance
        store := (store.setVariable inputName e).setVariable valueName (.ofValue v) })

theorem Expression.run_executeCarefully [Chance ρ] (hρ : Chance.IsLawful ρ) (rules : Rules)
    (frames : List (List Expression)) (t : Table ρ) (e : Expression) :
    ∃ visited, ∃ n, ∀ m ≥ n, (e.executeCarefully rules m).run.run (t.stacked frames 0 [])
      = (((e.evaluate rules 0 frames).run.run t).1,
          ((e.evaluate rules 0 frames).run.run t).2.stacked frames 0 visited) := by
  have hround (n : Nat) (e : Expression) :
      (e.executeCarefully rules (n + 1) : Play (Stacked ρ) Value)
        = Play.note >>= fun _ ↦ e.layer rules (executeCarefully rules n)
            (fun i ↦ Play.argument i (executeCarefully rules n))
            fun arguments body ↦
              Play.nestedCarefully arguments (executeCarefully rules n body) := by
    rw [executeCarefully]
    simp only [layerCarefully_eq hρ.stacked]
  have hfollows := rounds_follow hround .nestedCarefully frames.length 0 frames e (Nat.zero_le _)
    (Nat.le_refl _)
  obtain ⟨visited, -, hn⟩ := hfollows.run_stacked (fun _ h ↦ absurd h List.not_mem_nil) t
  exact ⟨visited, hn⟩

/-- **Evaluation does not fault.** Over a source that keeps to its ranges, so many rounds are enough
for careful evaluation to come to what evaluation comes to, which is not a fault. -/
theorem Session.evaluateExpression_not_fault [Chance ρ] (hρ : Chance.IsLawful ρ) (s : Session ρ)
    (e : Expression) :
    (∃ n, ∀ m ≥ n, s.evaluateCarefully m e = s.evaluateExpression e) ∧
      ∀ text, (s.evaluateExpression e).1 ≠ .error (.internal text) := by
  constructor
  · obtain ⟨visited, n, hn⟩ := e.run_executeCarefully hρ ⟨s.limit, s.store.saved⟩ s.store.frames
      ⟨s.chance, s.store.locals, .empty⟩
    refine ⟨n, fun m hm ↦ ?_⟩
    rw [evaluateCarefully, evaluateExpression, hn m hm]
    rfl
  · intro text h
    obtain ⟨-, hsound⟩ := e.same_evaluate hρ ⟨s.limit, s.store.saved⟩ 0 s.store.frames
      ⟨s.chance, s.store.locals, .empty⟩
    rw [evaluateExpression] at h
    generalize (e.evaluate ⟨s.limit, s.store.saved⟩ 0 s.store.frames).run.run
      ⟨s.chance, s.store.locals, .empty⟩ = run at h hsound
    obtain ⟨outcome, table⟩ := run
    rcases hsound with _ | hfault
    · cases h
    · cases h
      exact hfault ⟨text, rfl⟩

/-- Five of two items are picked, which takes two whole passes and one item of a third. One of the
two is the roll of a die whose size is infinite, and which has as many sides as a word can tell. -/
theorem Session.evaluateExpression_not_fault_fiveOfTwo :
    let die : Expression := .prefixed .die (.list [.huge, .huge])
    let e : Expression := .binary (.literal (.ofNat 5)) .pick (.list [die, .literal (.ofNat 7)])
    let s : Session Script := .start (.ofFaces [2, 1]) 5
    Chance.IsLawful Script ∧ (∃ n, ∀ m ≥ n, s.evaluateCarefully m e = s.evaluateExpression e) ∧
      ∀ text, (s.evaluateExpression e).1 ≠ .error (.internal text) :=
  ⟨Script.isLawful, Session.evaluateExpression_not_fault Script.isLawful _ _⟩

end DiceNotation
