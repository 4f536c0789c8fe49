import DiceNotation.Proofs.Choices
import DiceNotation.Evaluation

/-!
# Plays in lockstep

Two plays can be compared step by step although they draw from different kinds of sources, keep
different tables and have different results. What is the same about their tables is a relation `R`,
what is the same about their results a relation `V`, and `Follows R excused V` says that one play
keeps to the other. An evaluation that is compared with itself shows what it preserves; one that is
compared with another evaluation shows that both have the same value, or values that are alike.

The play that follows may be an approximation that needs to be told how far to go. It is therefore
a sequence of plays, of which all but the first few have to agree. And what it follows may fail
for reasons that do not count; nothing is said about it then.

## Operators

An operator decides when its operands are played, and acts on the table in between, but only in a
few ways: it makes random choices and sets or clears one of the two variables `operatorNames`. Of
its operands it sees only what has to be the same about values that are alike (`Likeness`). An
operator that makes no choices therefore keeps any relation between tables that its operands keep,
whatever the limits are. One that sets no variables keeps those that withstand random choices
(`Drawing`), and all operators keep those that withstand both (`Coupling`).
-/

namespace DiceNotation

variable {ρ σ : Type} {α β γ δ : Type}

/-- Whether the operator makes random choices. -/
def PrefixOp.isRandom : PrefixOp → Bool
  | .die | .pickOne => true
  | _ => false

/-- Whether the operator makes random choices. -/
def BinaryOp.isRandom : BinaryOp → Bool
  | .dice | .rollUntil _ | .pick | .pickReplacing => true
  | _ => false

/-- Whether the operator sets a variable. -/
def BinaryOp.setsVariable : BinaryOp → Bool
  | .rollUntil _ | .pick => true
  | _ => false

/-- Whether the operator makes random choices. -/
def PostfixOp.isRandom : PostfixOp → Bool
  | .shuffle => true

namespace Play

theorem run_resolve (rules : Rules) (name : String) (t : Table ρ) :
    (resolve rules name).run.run t = (Store.resolve rules.saved t.locals name, t) := by
  change (liftExcept (Store.resolve rules.saved t.locals name) : Play ρ _).run.run t = _
  cases Store.resolve rules.saved t.locals name <;> rfl

/-! ## Plays

Plays that leave the tables alone follow each other if their outcomes match, and a failure that is
excused needs nothing to follow it. The rules for binds and for lists of plays do the rest. -/

/-- The same failure, or results that are related. -/
inductive Matches (V : α → β → Prop) : Except RollError α → Except RollError β → Prop
  | ok {a : α} {b : β} (h : V a b) : Matches V (.ok a) (.ok b)
  | error (e : RollError) : Matches V (.error e) (.error e)

theorem Matches.mono {V W : α → β → Prop} {outcome : Except RollError α}
    {outcome' : Except RollError β} (h : Matches V outcome outcome') (hV : ∀ a b, V a b → W a b) :
    Matches W outcome outcome' := by
  cases h with
  | ok h => exact .ok (hV _ _ h)
  | error e => exact .error e

theorem Matches.eq {outcome outcome' : Except RollError α} (h : Matches Eq outcome outcome') :
    outcome = outcome' := by
  cases h with
  | ok h => rw [h]
  | error e => rfl

/-- Where `R` holds, `p` ends like almost every play of the sequence `q`, with `V` between the
results and `R` between the tables they leave, or else fails in a way that is excused. -/
def Follows (R : Table ρ → Table σ → Prop) (excused : RollError → Prop) (V : α → β → Prop)
    (p : Play ρ α) (q : Nat → Play σ β) : Prop :=
  ∀ t u, R t u →
    (∃ e, (p.run.run t).1 = .error e ∧ excused e) ∨
      ∃ outcome u', Matches V (p.run.run t).1 outcome ∧ R (p.run.run t).2 u' ∧
        ∃ n, ∀ m ≥ n, (q m).run.run u = (outcome, u')

/-- To follow a single play that has nothing to be excused for is to end like it. -/
theorem follows_iff {R : Table ρ → Table σ → Prop} {V : α → β → Prop} {p : Play ρ α}
    {q : Play σ β} :
    (Follows R (fun _ ↦ False) V p fun _ ↦ q) ↔ ∀ t u, R t u →
      Matches V (p.run.run t).1 (q.run.run u).1 ∧ R (p.run.run t).2 (q.run.run u).2 := by
  constructor
  · intro h t u htu
    obtain ⟨_, -, h⟩ | ⟨outcome, u', hmatches, hu', n, hn⟩ := h t u htu
    · exact h.elim
    · rw [hn n (Nat.le_refl n)]
      exact ⟨hmatches, hu'⟩
  · intro h t u htu
    obtain ⟨hmatches, hu'⟩ := h t u htu
    exact Or.inr ⟨_, _, hmatches, hu', 0, fun _ _ ↦ rfl⟩

namespace Follows

variable {R : Table ρ → Table σ → Prop} {excused : RollError → Prop} {V : α → β → Prop}
  {W : γ → δ → Prop}

theorem mono {V' : α → β → Prop} {p : Play ρ α} {q : Nat → Play σ β} (h : Follows R excused V p q)
    (hV : ∀ a b, V a b → V' a b) : Follows R excused V' p q := by
  intro t u htu
  obtain hexcused | ⟨outcome, u', hmatches, hrest⟩ := h t u htu
  · exact Or.inl hexcused
  · exact Or.inr ⟨outcome, u', hmatches.mono hV, hrest⟩

theorem of_run_eq {p : Play ρ α} {q : Nat → Play σ β} {outcome : Except RollError α}
    {outcome' : Except RollError β} (h : Matches V outcome outcome')
    (hp : ∀ t, p.run.run t = (outcome, t)) (hq : ∀ n u, (q n).run.run u = (outcome', u)) :
    Follows R excused V p q := by
  intro t u htu
  rw [hp t]
  exact Or.inr ⟨outcome', u, h, htu, 0, fun m _ ↦ hq m u⟩

theorem pure {a : α} {b : β} (h : V a b) : Follows R excused V (pure a) fun _ ↦ pure b :=
  of_run_eq (.ok h) (fun _ ↦ rfl) fun _ _ ↦ rfl

theorem throw (e : RollError) :
    Follows R excused V (throw e : Play ρ α) fun _ ↦ throw e :=
  of_run_eq (.error e) (fun _ ↦ rfl) fun _ _ ↦ rfl

theorem misuse (m : Misuse) : Follows R excused V (misuse m : Play ρ α) fun _ ↦ misuse m :=
  throw (.misuse m)

theorem lifted (x : Except RollError α) :
    Follows R excused Eq (liftExcept x : Play ρ α) fun _ ↦ liftExcept x := by
  cases x with
  | ok a => exact pure rfl
  | error e => exact throw e

theorem of_excused {e : RollError} (h : excused e) (q : Nat → Play σ β) :
    Follows R excused V (MonadExcept.throw e : Play ρ α) q :=
  fun _ _ _ ↦ Or.inl ⟨e, rfl, h⟩

theorem bind {p : Play ρ α} {q : Nat → Play σ β} {f : α → Play ρ γ} {g : Nat → β → Play σ δ}
    (h : Follows R excused V p q)
    (hf : ∀ a b, V a b → Follows R excused W (f a) fun n ↦ g n b) :
    Follows R excused W (p >>= f) fun n ↦ q n >>= g n := by
  intro t u htu
  have hp := h t u htu
  simp only [run_bind]
  generalize p.run.run t = first at hp
  obtain ⟨outcome, t'⟩ := first
  obtain ⟨e, rfl, hx⟩ | ⟨outcome', u', hmatches, htu', n, hn⟩ := hp
  · exact Or.inl ⟨e, rfl, hx⟩
  · cases hmatches with
    | error e => exact Or.inr ⟨_, u', .error e, htu', n, fun m hm ↦ by rw [hn m hm]⟩
    | ok hab =>
      obtain hexcused | ⟨outcome, u'', hmatches, htu'', n', hn'⟩ := hf _ _ hab t' u' htu'
      · exact Or.inl hexcused
      -- Both have to go far enough, the play and what comes after it.
      · refine Or.inr ⟨outcome, u'', hmatches, htu'', max n n', fun m hm ↦ ?_⟩
        rw [hn m (Nat.le_trans (Nat.le_max_left _ _) hm)]
        exact hn' m (Nat.le_trans (Nat.le_max_right _ _) hm)

/-- What goes on behind plays with the same result. -/
theorem bind_eq {p : Play ρ α} {q : Nat → Play σ α} {f : α → Play ρ γ} {g : Nat → α → Play σ δ}
    (h : Follows R excused Eq p q) (hf : ∀ a, Follows R excused W (f a) fun n ↦ g n a) :
    Follows R excused W (p >>= f) fun n ↦ q n >>= g n :=
  h.bind fun a _ hab ↦ hab ▸ hf a

theorem requireChoice (limit : Nat) :
    Follows R excused Eq (requireChoice limit) fun _ ↦ requireChoice limit := by
  unfold Play.requireChoice
  split
  · exact throw _
  · exact pure rfl

theorem sidesOf {v w : Value} (h : v.total.value = w.total.value) :
    Follows R excused Eq (Dice.sidesOf v) fun _ ↦ Dice.sidesOf w := by
  unfold Dice.sidesOf
  rw [h]
  split
  · exact pure rfl
  · exact misuse _

theorem pickCount (limit : Nat) (x : Binary64) :
    Follows R excused Eq (Pick.count limit x) fun _ ↦ Pick.count limit x := by
  unfold Pick.count
  split
  · exact misuse _
  · split
    · exact throw _
    · exact pure rfl

theorem requireItems {pool pool' : List Value} (h : pool.length = pool'.length) (count : Nat) :
    Follows R excused Eq (Pick.requireItems pool count)
      fun _ ↦ Pick.requireItems pool' count := by
  unfold Pick.requireItems
  rw [Chance.Alike.isEmpty_eq_of_length_eq h]
  split
  · exact misuse _
  · exact pure rfl

theorem mapM {items : List γ} {items' : List δ} {f : γ → Play ρ α} {g : Nat → δ → Play σ β}
    (h : List.Forall₂ (fun a b ↦ Follows R excused V (f a) fun n ↦ g n b) items items') :
    Follows R excused (List.Forall₂ V) (items.mapM f) fun n ↦ items'.mapM (g n) := by
  induction h with
  | nil => exact pure .nil
  | cons hitem _ ih =>
    simp only [List.mapM_cons]
    exact hitem.bind fun _ _ hv ↦ ih.bind fun _ _ hvs ↦ pure (.cons hv hvs)

/-- Items that all have the same results have the same results together. -/
theorem mapM_eq {items : List γ} {f : γ → Play ρ α} {g : Nat → γ → Play σ α}
    (h : ∀ a ∈ items, Follows R excused Eq (f a) fun n ↦ g n a) :
    Follows R excused Eq (items.mapM f) fun n ↦ items.mapM (g n) := by
  have hitems := mapM (List.forall₂_same.mpr h)
  rwa [List.forall₂_eq_eq_eq] at hitems

theorem resolve {X : Expression → Expression → Prop} {rules : Rules} {name : String}
    (h : ∀ t u, R t u → Matches X (Store.resolve rules.saved t.locals name)
      (Store.resolve rules.saved u.locals name)) :
    Follows R excused X (resolve rules name) fun _ ↦ resolve rules name := by
  intro t u htu
  refine Or.inr ⟨_, u, ?_, ?_, 0, fun _ _ ↦ run_resolve rules name u⟩
  · rw [run_resolve]
    exact h t u htu
  · rw [run_resolve]
    exact htu

/-- Names stand for the same as long as the variables are the same. -/
theorem resolve_eq (h : ∀ t u, R t u → u.locals = t.locals) (rules : Rules) (name : String) :
    Follows R excused Eq (Play.resolve rules name) fun _ ↦ Play.resolve rules name := by
  refine resolve fun t u htu ↦ ?_
  rw [h t u htu]
  cases Store.resolve rules.saved t.locals name with
  | ok body => exact .ok rfl
  | error e => exact .error e

end Follows

/-! ## Values that are alike -/

/-- A relation between values of which operators cannot tell one from the other, and which they
keep. -/
structure Likeness (V : Value → Value → Prop) : Prop where
  refl (v : Value) : V v v
  value {v w : Value} : V v w → v.total.value = w.total.value
  total {v w : Value} : V v w → V (.number v.total) (.number w.total)
  items {v w : Value} : V v w → List.Forall₂ V v.items w.items
  list {vs ws : List Value} : List.Forall₂ V vs ws → V (.list vs) (.list ws)
  negate {v w : Value} : V v w → V v.negate w.negate
  join {v w v' w' : Value} : V v w → V v' w' → V (v.join v') (w.join w')
  isFinite {v w : Value} : V v w → v.isFinite = w.isFinite
  code {v w : Value} : V v w → v.code = w.code
  display {v w : Value} (depth : Nat) : V v w → v.display depth = w.display depth

/-- A value is like nothing but itself. -/
theorem Likeness.eq : Likeness Eq where
  refl _ := rfl
  value := by rintro _ _ rfl; rfl
  total := by rintro _ _ rfl; rfl
  items := by rintro _ _ rfl; rw [List.forall₂_eq_eq_eq]
  list := by rw [List.forall₂_eq_eq_eq]; rintro _ _ rfl; rfl
  negate := by rintro _ _ rfl; rfl
  join := by rintro _ _ _ _ rfl rfl; rfl
  isFinite := by rintro _ _ rfl; rfl
  code := by rintro _ _ rfl; rfl
  display := by rintro _ _ _ rfl; rfl

theorem Follows.conclude {R : Table ρ → Table σ → Prop} {excused : RollError → Prop}
    {V : Value → Value → Prop} (hV : Likeness V)
    (h : ∀ step t u, R t u →
      R { t with trace := t.trace.push step } { u with trace := u.trace.push step })
    (priority : Priority) (code : String) {v w : Value} (hvw : V v w) :
    Follows R excused V (conclude priority code v) fun _ ↦ conclude priority code w := by
  have hrecord : ∀ step, Follows R excused Eq (record step) fun _ ↦ record step :=
    fun step t u htu ↦ Or.inr ⟨_, _, .ok rfl, h step t u htu, 0, fun _ _ ↦ rfl⟩
  unfold Play.conclude
  rw [hV.isFinite hvw, hV.code hvw, hV.display _ hvw]
  split
  · exact misuse _
  · split
    · exact (hrecord _).bind_eq fun _ ↦ pure hvw
    · exact pure hvw

/-! ## Operators that make no choices

Such operators follow their operands under any limits. Arithmetic on totals does if its result
depends on values only. -/

namespace Likeness

variable {R : Table ρ → Table σ → Prop} {excused : RollError → Prop} {V : Value → Value → Prop}
  (hV : Likeness V) {left right operand : Play ρ Value} {left' right' operand' : Nat → Play σ Value}

include hV

theorem arithmetic {f : Number → Number → Play ρ Number} {g : Number → Number → Play σ Number}
    (hf : ∀ x y x' y', x.value = x'.value → y.value = y'.value →
      Follows R excused Eq (f x y) fun _ ↦ g x' y')
    (hl : Follows R excused V left left') (hr : Follows R excused V right right') :
    Follows R excused V (arithmetic f left right) fun n ↦ arithmetic g (left' n) (right' n) :=
  hl.bind fun _ _ hx ↦ hr.bind fun _ _ hy ↦
    (hf _ _ _ _ (hV.value hx) (hV.value hy)).bind_eq fun _ ↦ .pure (hV.refl _)

theorem prefixOp [Chance ρ] [Chance σ] {op : PrefixOp} (hop : op.isRandom = false)
    (limit limit' : Nat) (h : Follows R excused V operand operand') :
    Follows R excused V (op.apply limit operand) fun n ↦ op.apply limit' (operand' n) := by
  cases op with
  | die => cases hop
  | pickOne => cases hop
  | negate => exact h.bind fun _ _ hv ↦ .pure (hV.negate hv)
  | size =>
    refine h.bind fun v w hv ↦ ?_
    rw [Value.size, Value.size, (hV.items hv).length_eq]
    exact .pure (hV.refl _)
  | total => exact h.bind fun _ _ hv ↦ .pure (hV.total hv)

theorem binaryOp [Chance ρ] [Chance σ] {op : BinaryOp} (hop : op.isRandom = false)
    (limit limit' : Nat) (hl : Follows R excused V left left')
    (hr : Follows R excused V right right') :
    Follows R excused V (op.apply limit left right)
      fun n ↦ op.apply limit' (left' n) (right' n) := by
  cases op with
  | join => exact hl.bind fun _ _ hv ↦ hr.bind fun _ _ hw ↦ .pure (hV.join hv hw)
  | subtract =>
    exact hl.bind fun _ _ hv ↦ hr.bind fun _ _ hw ↦ .pure (hV.join hv (hV.negate hw))
  | multiply =>
    simp only [BinaryOp.apply]
    refine hV.arithmetic (fun x y x' y' hx hy ↦ .pure ?_) hl hr
    exact congrArg Number.const (congrArg₂ (· * ·) hx hy)
  | power =>
    simp only [BinaryOp.apply]
    refine hV.arithmetic (fun x y x' y' hx hy ↦ .pure ?_) hl hr
    rw [hx, hy]
  | divide =>
    simp only [BinaryOp.apply]
    refine hV.arithmetic (fun x y x' y' hx hy ↦ ?_) hl hr
    unfold quotient
    rw [hy]
    split
    · exact .misuse _
    · exact .pure (congrArg Number.const (congrArg₂ (· / ·) hx hy))
  | _ => cases hop

end Likeness

/-! ## Operators that draw -/

/-- Relations between values, sources and tables that no random choice breaks as long as it is the
same on both sides. -/
structure Drawing [Chance ρ] [Chance σ] (V : Value → Value → Prop) (C : ρ → σ → Prop)
    (R : Table ρ → Table σ → Prop) : Prop where
  likeness : Likeness V
  alike : Chance.Alike C
  chance {t u} : R t u → C t.chance u.chance
  withChance {t u c d} : R t u → C c d → R { t with chance := c } { u with chance := d }

namespace Drawing

variable [Chance ρ] [Chance σ] {V : Value → Value → Prop} {C : ρ → σ → Prop}
  {R : Table ρ → Table σ → Prop} {excused : RollError → Prop} (hR : Drawing V C R)

include hR

theorem random {X : α → β → Prop} {choice : StateM ρ α} {choice' : StateM σ β}
    (h : Chance.Agree C X choice choice') :
    Follows R excused X (random choice) fun _ ↦ random choice' := by
  intro t u htu
  obtain ⟨hab, hC⟩ := h _ _ (hR.chance htu)
  exact Or.inr ⟨_, _, .ok hab, hR.withChance htu hC, 0, fun _ _ ↦ rfl⟩

theorem random? {X : α → β → Prop} {choice : StateM ρ (Option α)} {choice' : StateM σ (Option β)}
    (h : Chance.Agree C (Option.Rel X) choice choice') :
    Follows R excused X (random? choice) fun _ ↦ random? choice' := by
  refine (hR.random h).bind fun a b hab ↦ ?_
  cases hab with
  | none => exact .throw _
  | some hab => exact .pure hab

variable {limit : Nat} {left right operand : Play ρ Value}
  {left' right' operand' : Nat → Play σ Value}

theorem rollOne (h : Follows R excused V operand operand') :
    Follows R excused V (Dice.rollOne limit operand) fun n ↦ Dice.rollOne limit (operand' n) :=
  h.bind fun _ _ hv ↦ (Follows.sidesOf (hR.likeness.value hv)).bind_eq fun _ ↦
    (Follows.requireChoice _).bind_eq fun _ ↦
    (hR.random (hR.alike.rollDie _)).bind_eq fun _ ↦ .pure (hR.likeness.refl _)

theorem roll (hl : Follows R excused V left left') (hr : Follows R excused V right right') :
    Follows R excused V (Dice.roll limit left right)
      fun n ↦ Dice.roll limit (left' n) (right' n) := by
  refine hl.bind fun count count' hcount ↦ hr.bind fun size size' hsize ↦ ?_
  rw [hR.likeness.value hcount]
  dsimp only
  split
  · exact .misuse _
  · split
    · exact .throw _
    · exact (Follows.sidesOf (hR.likeness.value hsize)).bind_eq fun _ ↦
        (hR.random (hR.alike.rollDice _ _)).bind_eq fun _ ↦ .pure (hR.likeness.refl _)

theorem pickOne (h : Follows R excused V operand operand') :
    Follows R excused V (Pick.one limit operand) fun n ↦ Pick.one limit (operand' n) :=
  h.bind fun _ _ hv ↦ (Follows.requireChoice _).bind_eq fun _ ↦
    (Follows.requireItems (hR.likeness.items hv).length_eq _).bind_eq fun _ ↦
    hR.random? (hR.alike.draw? (hR.likeness.items hv))

theorem replacing (hl : Follows R excused V left left') (hr : Follows R excused V right right') :
    Follows R excused V (Pick.replacing limit left right)
      fun n ↦ Pick.replacing limit (left' n) (right' n) := by
  refine hl.bind fun number number' hnumber ↦ hr.bind fun pool pool' hpool ↦ ?_
  have hitems := hR.likeness.items hpool
  rw [hR.likeness.value hnumber]
  exact (Follows.pickCount _ _).bind_eq fun count ↦
    (Follows.requireItems hitems.length_eq _).bind_eq fun _ ↦
    (hR.random? (hR.alike.drawReplacing? hitems _)).bind fun _ _ hdrawn ↦
    .pure (hR.likeness.list hdrawn)

/-- Picking without putting back follows its operands if what is left may be kept. -/
theorem several (hset : ∀ v w, V v w → Follows R excused Eq (setVariable Pick.leftName v)
      fun _ ↦ setVariable Pick.leftName w)
    (hl : Follows R excused V left left') (hr : Follows R excused V right right') :
    Follows R excused V (Pick.several limit left right)
      fun n ↦ Pick.several limit (left' n) (right' n) := by
  refine hl.bind fun number number' hnumber ↦ hr.bind fun pool pool' hpool ↦ ?_
  have hitems := hR.likeness.items hpool
  rw [hR.likeness.value hnumber]
  refine (Follows.pickCount _ _).bind_eq fun count ↦
    (Follows.requireItems hitems.length_eq _).bind_eq fun _ ↦
    (hR.random? (hR.alike.pick? hitems _)).bind fun drawn drawn' hdrawn ↦ ?_
  exact (hset _ _ (hR.likeness.list hdrawn.2)).bind_eq fun _ ↦ .pure (hR.likeness.list hdrawn.1)

/-- **Prefix operators** follow their operand. -/
theorem prefixOp (op : PrefixOp) (h : Follows R excused V operand operand') :
    Follows R excused V (op.apply limit operand) fun n ↦ op.apply limit (operand' n) := by
  cases op with
  | die => exact hR.rollOne h
  | pickOne => exact hR.pickOne h
  | _ => exact hR.likeness.prefixOp rfl _ _ h

theorem binaryOp {op : BinaryOp} (hop : op.setsVariable = false)
    (hl : Follows R excused V left left') (hr : Follows R excused V right right') :
    Follows R excused V (op.apply limit left right)
      fun n ↦ op.apply limit (left' n) (right' n) := by
  cases op with
  | dice => exact hR.roll hl hr
  | rollUntil cmp => cases hop
  | pick => cases hop
  | pickReplacing => exact hR.replacing hl hr
  | _ => exact hR.likeness.binaryOp rfl _ _ hl hr

/-- **Postfix operators** follow their operand. -/
theorem postfixOp (op : PostfixOp) (h : Follows R excused V operand operand') :
    Follows R excused V (op.apply operand) fun n ↦ op.apply (operand' n) := by
  cases op with
  | shuffle =>
    exact h.bind fun _ _ hv ↦ (hR.random (hR.alike.shuffle_forall₂ (hR.likeness.items hv))).bind
      fun _ _ hitems ↦ .pure (hR.likeness.list hitems)

end Drawing

/-! ## Operators that set variables -/

/-- The variables that operators set. -/
def operatorNames : List String := [Dice.lastName, Pick.leftName]

/-- Relations between values, sources and tables that no operator breaks as long as it does the
same on both sides. -/
structure Coupling [Chance ρ] [Chance σ] (V : Value → Value → Prop) (C : ρ → σ → Prop)
    (R : Table ρ → Table σ → Prop) : Prop extends Drawing V C R where
  insert {t u name v w} : V v w → name ∈ operatorNames → R t u →
    R { t with locals := t.locals.insert name (.ofValue v) }
      { u with locals := u.locals.insert name (.ofValue w) }
  erase {t u name} : name ∈ operatorNames → R t u →
    R { t with locals := t.locals.erase name } { u with locals := u.locals.erase name }

namespace Coupling

variable [Chance ρ] [Chance σ] {V : Value → Value → Prop} {C : ρ → σ → Prop}
  {R : Table ρ → Table σ → Prop} {excused : RollError → Prop} (hR : Coupling V C R)

include hR

theorem setVariable {name : String} (hn : name ∈ operatorNames) {v w : Value} (h : V v w) :
    Follows R excused Eq (setVariable name v) fun _ ↦ setVariable name w :=
  fun _ _ htu ↦ Or.inr ⟨_, _, .ok rfl, hR.insert h hn htu, 0, fun _ _ ↦ rfl⟩

theorem clearVariable {name : String} (hn : name ∈ operatorNames) :
    Follows R excused Eq (clearVariable name) fun _ ↦ clearVariable name :=
  fun _ _ htu ↦ Or.inr ⟨_, _, .ok rfl, hR.erase hn htu, 0, fun _ _ ↦ rfl⟩

variable {limit : Nat} {left right : Play ρ Value} {left' right' : Nat → Play σ Value}

theorem rollUntil (cmp : Comparison) (hl : Follows R excused V left left')
    (hr : Follows R excused V right right') :
    Follows R excused V (Dice.rollUntil limit cmp left right)
      fun n ↦ Dice.rollUntil limit cmp (left' n) (right' n) := by
  -- The variable is cleared before the size is known, so it is gone even if the roll fails.
  refine (hR.clearVariable (by decide)).bind_eq fun _ ↦ hl.bind fun size size' hsize ↦
    (Follows.sidesOf (hR.likeness.value hsize)).bind_eq fun sides ↦
    hr.bind fun bound bound' hbound ↦ ?_
  rw [hR.likeness.value hbound]
  refine (Follows.lifted _).bind_eq fun _ ↦ (Follows.requireChoice _).bind_eq fun _ ↦
    (hR.random (hR.alike.rollUntil _ _ _)).bind_eq ?_
  rintro ⟨dice, _ | die⟩
  · exact .pure (hR.likeness.refl _)
  · exact (hR.setVariable (by decide) (hR.likeness.refl _)).bind_eq fun _ ↦
      .pure (hR.likeness.refl _)

theorem several (hl : Follows R excused V left left') (hr : Follows R excused V right right') :
    Follows R excused V (Pick.several limit left right)
      fun n ↦ Pick.several limit (left' n) (right' n) :=
  hR.toDrawing.several (fun _ _ h ↦ hR.setVariable (by decide) h) hl hr

/-- **Binary operators** follow their operands. -/
theorem binaryOp (op : BinaryOp) (hl : Follows R excused V left left')
    (hr : Follows R excused V right right') :
    Follows R excused V (op.apply limit left right)
      fun n ↦ op.apply limit (left' n) (right' n) := by
  cases op with
  | rollUntil cmp => exact hR.rollUntil cmp hl hr
  | pick => exact hR.several hl hr
  | _ => exact hR.toDrawing.binaryOp rfl hl hr

end Coupling

end Play

end DiceNotation
