import DiceNotation.Proofs.Limits

/-!
# Draws of single operations

What an operation draws is counted by a source that stands between the operation and a script
(`Tally`). It answers like the script and counts how often it is asked, also by the exchanges that a
shuffle consists of. As draws are counted where they are made, nothing is missed if an operation
fails.

An operation is to be charged for its own draws only. So its operands are played without being
counted (`Play.untallied`): they draw from the script as they always do, and the counter is put back
behind them. What remains are the acts of chance of the operation itself, for each of which there is
a bound, and a check of the limit in front of them.

With a limit of zero, there is nothing to be counted at all. The operation either fails before it
draws or is done with no items, so that it leaves the source alone, whatever the source is; and if
all operations do so, a whole evaluation does.
-/

namespace DiceNotation

-- A power of naturals is the one whose laws the core library states, whatever is imported.
attribute [local instance (high)] instPowNat

/-! ## Sources that count

A source that counts is like the source that it draws from: places are chosen alike, and so items
are exchanged alike. -/

/-- A source of chance together with the number of draws from it. -/
structure Tally (ρ : Type) where
  source : ρ
  draws : Nat

variable {ρ σ : Type} {α β γ : Type}

namespace Tally

/-- Makes a choice from the source and counts it. -/
def draw (choice : StateM ρ α) : StateM (Tally ρ) α := fun c ↦
  ((choice.run c.source).1, ⟨(choice.run c.source).2, c.draws + 1⟩)

/-- Shuffling is not a draw, but draws for every exchange. -/
instance [Chance ρ] : Chance (Tally ρ) where
  below bound := draw (Chance.below bound)
  fraction := draw Chance.fraction

end Tally

namespace Chance

theorem Agree.exchangeDown {C : ρ → σ → Prop} {choose : Nat → StateM ρ Nat}
    {choose' : Nat → StateM σ Nat} (h : ∀ bound, Agree C Eq (choose bound) (choose' bound))
    (last : Nat) (items : Array α) :
    Agree C Eq (exchangeDown choose last items) (exchangeDown choose' last items) := by
  induction last generalizing items with
  | zero => exact .pure rfl
  | succ last ih => exact (h _).bind_eq fun _ ↦ ih _

/-- The source shuffles by exchanging items, as sources do that have no way of their own. -/
def ShufflesByExchanges (ρ : Type) [Chance ρ] : Prop :=
  ∀ {α : Type} (items : List α), (shuffle items : StateM ρ (List α)) = exchangeAll below items

theorem Alike.tally [Chance ρ] (hρ : ShufflesByExchanges ρ) :
    Alike fun (c : Tally ρ) d ↦ d = c.source where
  below bound := by rintro c _ rfl; exact ⟨rfl, rfl⟩
  fraction := by rintro c _ rfl; exact ⟨rfl, rfl⟩
  shuffle items := by
    rw [hρ]
    refine (Agree.exchangeDown (fun bound ↦ ?_) _ _).bind_eq fun _ ↦ .pure rfl
    rintro c _ rfl
    exact ⟨rfl, rfl⟩

end Chance

theorem Script.shufflesByExchanges : Chance.ShufflesByExchanges Script := fun _ ↦ rfl

/-! ## Acts of chance

Draws add up along a bind. A shuffle takes one for every item but one, so a pass over a whole pool
takes fewer than the pool has items. -/

namespace Chance

/-- The choice takes no more than so many draws. -/
def DrawsAtMost (n : Nat) (choice : StateM (Tally ρ) α) : Prop :=
  ∀ c, (choice.run c).2.draws ≤ c.draws + n

namespace DrawsAtMost

variable {m n : Nat}

theorem mono {choice : StateM (Tally ρ) α} (h : DrawsAtMost m choice) (hmn : m ≤ n) :
    DrawsAtMost n choice := fun c ↦ Nat.le_trans (h c) (Nat.add_le_add_left hmn _)

theorem pure (a : α) : DrawsAtMost n (pure a : StateM (Tally ρ) α) := fun _ ↦ Nat.le_add_right _ _

theorem bind {choice : StateM (Tally ρ) α} {rest : α → StateM (Tally ρ) β}
    (h : DrawsAtMost m choice) (hr : ∀ a, DrawsAtMost n (rest a)) :
    DrawsAtMost (n + m) (choice >>= rest) := by
  intro c
  have hfirst := h c
  have hrest := hr (choice.run c).1 (choice.run c).2
  rw [Nat.add_comm n m, ← Nat.add_assoc]
  exact Nat.le_trans hrest (Nat.add_le_add_right hfirst n)

theorem map {choice : StateM (Tally ρ) α} {rest : α → StateM (Tally ρ) β}
    (h : DrawsAtMost n choice) (hr : ∀ a, DrawsAtMost 0 (rest a)) :
    DrawsAtMost n (choice >>= rest) := by
  rw [← Nat.zero_add n]
  exact h.bind hr

variable [Chance ρ]

theorem below (bound : Nat) : DrawsAtMost 1 (below bound : StateM (Tally ρ) Nat) :=
  fun _ ↦ Nat.le_refl _

theorem fraction : DrawsAtMost 1 (fraction : StateM (Tally ρ) Binary64) := fun _ ↦ Nat.le_refl _

theorem rollDie (sides : Nat) : DrawsAtMost 1 (rollDie sides : StateM (Tally ρ) Number) := by
  rw [Chance.rollDie]
  split
  · exact fraction.map fun _ ↦ .pure _
  · exact (below sides).map fun _ ↦ .pure _

theorem rollDice (sides count : Nat) :
    DrawsAtMost count (rollDice sides count : StateM (Tally ρ) (List Number)) := by
  induction count with
  | zero => exact .pure _
  | succ count ih =>
    exact (rollDie sides).bind fun _ ↦ ih.map fun _ ↦ .pure _

theorem rollUntil (sides : Nat) (met : Number → Bool) (limit : Nat) :
    DrawsAtMost limit
      (rollUntil sides met limit : StateM (Tally ρ) (List Number × Option Number)) := by
  induction limit with
  | zero => exact .pure _
  | succ limit ih =>
    refine (rollDie sides).bind fun die ↦ ?_
    split
    · exact .pure _
    · exact ih.map fun _ ↦ .pure _

theorem place? (pool : List α) :
    DrawsAtMost 1 (place? pool : StateM (Tally ρ) (Option (Fin pool.length))) := by
  rw [Chance.place?]
  split
  · exact .pure _
  · exact (below _).map fun _ ↦ .pure _

theorem draw? (pool : List α) : DrawsAtMost 1 (draw? pool : StateM (Tally ρ) (Option α)) :=
  (place? pool).map fun _ ↦ .pure _

theorem drawReplacing? (pool : List α) (count : Nat) :
    DrawsAtMost count (drawReplacing? pool count : StateM (Tally ρ) (Option (List α))) := by
  induction count with
  | zero => exact .pure _
  | succ count ih =>
    refine (draw? pool).bind fun item ↦ ?_
    cases item with
    | none => exact .pure _
    | some item => exact ih.map fun _ ↦ .pure _

theorem drawOut? (count : Nat) (pool : List α) :
    DrawsAtMost count (drawOut? count pool : StateM (Tally ρ) (Option (List α × List α))) := by
  induction count generalizing pool with
  | zero => exact .pure _
  | succ count ih =>
    refine (place? pool).bind fun place ↦ ?_
    cases place with
    | none => exact .pure _
    | some i => exact (ih _).map fun _ ↦ .pure _

theorem exchangeDown (last : Nat) (items : Array α) :
    DrawsAtMost last
      (exchangeDown Chance.below last items : StateM (Tally ρ) (Array α)) := by
  induction last generalizing items with
  | zero => exact .pure _
  | succ last ih =>
    exact (below _).bind fun _ ↦ ih _

/-- A shuffle takes a draw for every item but one. -/
theorem shuffle (items : List α) :
    DrawsAtMost (items.length - 1) (shuffle items : StateM (Tally ρ) (List α)) :=
  (exchangeDown _ _).map fun _ ↦ .pure _

theorem passes (pool : List α) (count : Nat) :
    DrawsAtMost (count * (pool.length - 1)) (passes pool count : StateM (Tally ρ) (List α)) := by
  induction count with
  | zero => exact .pure _
  | succ count ih =>
    rw [Nat.succ_mul]
    exact (shuffle pool).bind fun _ ↦ ih.map fun _ ↦ .pure _

/-- Picking takes no more draws than it picks items, as a pass over the whole pool takes fewer draws
than the pool has items. -/
theorem pick? (pool : List α) (count : Nat) :
    DrawsAtMost count (pick? pool count : StateM (Tally ρ) (Option (List α × List α))) := by
  have hwhole : (count - 1) / pool.length * pool.length ≤ count :=
    Nat.le_trans (Nat.div_mul_le_self _ _) (Nat.sub_le _ _)
  have hpasses : (count - 1) / pool.length * (pool.length - 1)
      ≤ (count - 1) / pool.length * pool.length :=
    Nat.mul_le_mul_left _ (Nat.sub_le _ _)
  refine mono ((passes pool _).bind fun _ ↦
    (drawOut? _ pool).map fun _ ↦ .pure _) ?_
  omega

end DrawsAtMost

end Chance

/-! ## Operations

Checks draw nothing, so a play has drawn nothing before its choices begin; it may then draw as much
as has been allowed, and draws no more behind that. Rolling until a number is met is stopped by the
limit itself. -/

namespace Play

/-- The play takes no more than so many draws, whether it ends or fails. -/
def DrawsAtMost (n : Nat) (p : Play (Tally ρ) α) : Prop :=
  ∀ t, (p.run.run t).2.chance.draws ≤ t.chance.draws + n

/-- Plays without anything being counted. -/
def untallied (p : Play (Tally ρ) α) : Play (Tally ρ) α := ExceptT.mk fun t ↦
  ((p.run.run t).1, { (p.run.run t).2 with
    chance := ⟨(p.run.run t).2.chance.source, t.chance.draws⟩ })

namespace DrawsAtMost

variable {n : Nat}

theorem of_chance_eq {p : Play (Tally ρ) α} (h : ∀ t, (p.run.run t).2.chance = t.chance) :
    DrawsAtMost n p := by
  intro t
  rw [h t]
  exact Nat.le_add_right _ _

theorem pure (a : α) : DrawsAtMost n (pure a : Play (Tally ρ) α) := of_chance_eq fun _ ↦ rfl

theorem throw (e : RollError) : DrawsAtMost n (throw e : Play (Tally ρ) α) :=
  of_chance_eq fun _ ↦ rfl

theorem check {p : Play (Tally ρ) α} (h : p.IsCheck) : DrawsAtMost n p := by
  obtain ⟨e | a, rfl⟩ := h
  · exact throw _
  · exact pure _

theorem untallied (p : Play (Tally ρ) α) : DrawsAtMost n p.untallied := fun _ ↦ Nat.le_add_right _ _

theorem random {choice : StateM (Tally ρ) α} (h : Chance.DrawsAtMost n choice) :
    DrawsAtMost n (random choice) := fun t ↦ h t.chance

theorem bind {m : Nat} {p : Play (Tally ρ) α} {f : α → Play (Tally ρ) β} (h : DrawsAtMost m p)
    (hf : ∀ a, DrawsAtMost n (f a)) : DrawsAtMost (n + m) (p >>= f) := by
  intro t
  have hfirst := h t
  rw [run_bind, Nat.add_comm n m, ← Nat.add_assoc]
  rcases hp : p.run.run t with ⟨error | a, t'⟩
  · rw [hp] at hfirst
    exact Nat.le_trans hfirst (Nat.le_add_right _ n)
  · rw [hp] at hfirst
    exact Nat.le_trans (hf a t') (Nat.add_le_add_right hfirst n)

/-- A play has drawn nothing yet. -/
theorem behind {p : Play (Tally ρ) α} {f : α → Play (Tally ρ) β} (h : DrawsAtMost 0 p)
    (hf : ∀ a, DrawsAtMost n (f a)) : DrawsAtMost n (p >>= f) := h.bind hf

theorem checked {p : Play (Tally ρ) α} {f : α → Play (Tally ρ) β} (h : p.IsCheck)
    (hf : ∀ a, DrawsAtMost n (f a)) : DrawsAtMost n (p >>= f) := (check h).behind hf

theorem before {p : Play (Tally ρ) α} {f : α → Play (Tally ρ) β} (h : DrawsAtMost n p)
    (hf : ∀ a, DrawsAtMost 0 (f a)) : DrawsAtMost n (p >>= f) := by
  rw [← Nat.zero_add n]
  exact h.bind hf

theorem random? {choice : StateM (Tally ρ) (Option α)} (h : Chance.DrawsAtMost n choice) :
    DrawsAtMost n (random? choice) := by
  refine (random h).before fun a ↦ ?_
  cases a with
  | none => exact throw _
  | some a => exact pure a

theorem mapM {items : List β} {f : β → Play (Tally ρ) α} (h : ∀ b, DrawsAtMost 0 (f b)) :
    DrawsAtMost 0 (items.mapM f) := by
  induction items with
  | nil => exact pure []
  | cons item items ih =>
    simp only [List.mapM_cons]
    exact (h item).before fun _ ↦ ih.before fun _ ↦ pure _

theorem conclude (priority : Priority) (code : String) (v : Value) :
    DrawsAtMost n (conclude priority code v : Play (Tally ρ) Value) := by
  refine of_chance_eq fun t ↦ ?_
  unfold Play.conclude
  split
  · rfl
  · split <;> rfl

theorem requireChoice {limit : Nat} {f : Unit → Play (Tally ρ) α}
    (hf : 0 < limit → DrawsAtMost n (f ())) : DrawsAtMost n (requireChoice limit >>= f) := by
  unfold Play.requireChoice
  by_cases hlimit : limit = 0
  · rw [if_pos hlimit]
    exact throw _
  · rw [if_neg hlimit]
    exact hf (Nat.pos_of_ne_zero hlimit)

theorem pickCount {limit : Nat} (hl : limit ≤ 2 ^ (53 : Nat)) (x : Binary64)
    {f : Nat → Play (Tally ρ) α} (hf : ∀ count ≤ limit, DrawsAtMost n (f count)) :
    DrawsAtMost n (Pick.count limit x >>= f) := by
  unfold Pick.count
  split
  · exact throw _
  · split
    · exact throw _
    · next hx =>
      exact hf _ (Binary64.toNat_le_of_lt_ofNat hl (Bool.eq_false_iff.mpr hx) _)

variable [Chance ρ] {limit : Nat} {left right operand : Play (Tally ρ) Value}

theorem rollOne (h : DrawsAtMost 0 operand) : DrawsAtMost limit (Dice.rollOne limit operand) :=
  h.behind fun _ ↦ checked (Dice.isCheck_sidesOf _) fun _ ↦ requireChoice fun hlimit ↦
    (random ((Chance.DrawsAtMost.rollDie _).mono hlimit)).before fun _ ↦ pure _

theorem pickOne (h : DrawsAtMost 0 operand) : DrawsAtMost limit (Pick.one limit operand) :=
  h.behind fun _ ↦ requireChoice fun hlimit ↦ checked (Pick.isCheck_requireItems _ _) fun _ ↦
    random? ((Chance.DrawsAtMost.draw? _).mono hlimit)

theorem roll (hlimit : limit ≤ 2 ^ (53 : Nat)) (hl : DrawsAtMost 0 left)
    (hr : DrawsAtMost 0 right) : DrawsAtMost limit (Dice.roll limit left right) := by
  refine hl.behind fun count ↦ hr.behind fun size ↦ ?_
  dsimp only
  split
  · exact throw _
  · split
    · exact throw _
    · next hx =>
      have hcount := Binary64.toNat_le_of_lt_ofNat hlimit (Bool.eq_false_iff.mpr hx) Count.largest
      exact checked (Dice.isCheck_sidesOf _) fun _ ↦
        (random ((Chance.DrawsAtMost.rollDice _ _).mono hcount)).before fun _ ↦ pure _

theorem rollUntil (cmp : Comparison) (hl : DrawsAtMost 0 left) (hr : DrawsAtMost 0 right) :
    DrawsAtMost limit (Dice.rollUntil limit cmp left right) := by
  have hclear : DrawsAtMost 0 (clearVariable Dice.lastName : Play (Tally ρ) Unit) :=
    of_chance_eq fun _ ↦ rfl
  refine hclear.behind fun _ ↦ hl.behind fun size ↦ checked (Dice.isCheck_sidesOf _) fun sides ↦
    hr.behind fun bound ↦ checked ⟨_, rfl⟩ fun cutoff ↦ requireChoice fun _ ↦
    (random (Chance.DrawsAtMost.rollUntil _ _ _)).before ?_
  rintro ⟨dice, _ | die⟩
  · exact pure _
  · have hset : DrawsAtMost 0 (setVariable Dice.lastName (.number die) : Play (Tally ρ) Unit) :=
      of_chance_eq fun _ ↦ rfl
    exact hset.behind fun _ ↦ pure _

theorem several (hlimit : limit ≤ 2 ^ (53 : Nat)) (hl : DrawsAtMost 0 left)
    (hr : DrawsAtMost 0 right) : DrawsAtMost limit (Pick.several limit left right) := by
  refine hl.behind fun number ↦ hr.behind fun pool ↦ pickCount hlimit _ fun count hcount ↦
    checked (Pick.isCheck_requireItems _ _) fun _ ↦
    (random? ((Chance.DrawsAtMost.pick? _ _).mono hcount)).before fun drawn ↦ ?_
  have hset : DrawsAtMost 0 (setVariable Pick.leftName (.list drawn.2) : Play (Tally ρ) Unit) :=
    of_chance_eq fun _ ↦ rfl
  exact hset.behind fun _ ↦ pure _

theorem replacing (hlimit : limit ≤ 2 ^ (53 : Nat)) (hl : DrawsAtMost 0 left)
    (hr : DrawsAtMost 0 right) : DrawsAtMost limit (Pick.replacing limit left right) :=
  hl.behind fun _ ↦ hr.behind fun _ ↦ pickCount hlimit _ fun _ hcount ↦
    checked (Pick.isCheck_requireItems _ _) fun _ ↦
    (random? ((Chance.DrawsAtMost.drawReplacing? _ _).mono hcount)).before fun _ ↦ pure _

omit [Chance ρ] in
theorem arithmetic {f : Number → Number → Play (Tally ρ) Number}
    (hf : ∀ x y, DrawsAtMost n (f x y)) (hl : DrawsAtMost 0 left) (hr : DrawsAtMost 0 right) :
    DrawsAtMost n (arithmetic f left right) :=
  hl.behind fun _ ↦ hr.behind fun _ ↦ (hf _ _).before fun _ ↦ pure _

/-- **Prefix operators** draw no more than the limit allows. -/
theorem prefixOp (op : PrefixOp) (h : DrawsAtMost 0 operand) :
    DrawsAtMost limit (op.apply limit operand) := by
  cases op with
  | die => exact rollOne h
  | pickOne => exact pickOne h
  | _ => exact h.behind fun _ ↦ pure _

/-- **Binary operators** draw no more than the limit allows. -/
theorem binaryOp (hlimit : limit ≤ 2 ^ (53 : Nat)) (op : BinaryOp) (hl : DrawsAtMost 0 left)
    (hr : DrawsAtMost 0 right) : DrawsAtMost limit (op.apply limit left right) := by
  cases op with
  | dice => exact roll hlimit hl hr
  | rollUntil cmp => exact rollUntil cmp hl hr
  | pick => exact several hlimit hl hr
  | pickReplacing => exact replacing hlimit hl hr
  | multiply =>
    simp only [BinaryOp.apply]
    exact arithmetic (fun _ _ ↦ pure _) hl hr
  | divide => exact arithmetic (fun _ _ ↦ check (isCheck_quotient _ _)) hl hr
  | power =>
    simp only [BinaryOp.apply]
    exact arithmetic (fun _ _ ↦ pure _) hl hr
  | _ => exact hl.behind fun _ ↦ hr.behind fun _ ↦ pure _

end DrawsAtMost

end Play

/-! ## Operations themselves -/

namespace Expression

/-- Whether the expression shuffles. -/
def shuffles : Expression → Bool
  | .postfixed _ .shuffle => true
  | _ => false

/-- Whatever the expression draws is subject to the limit. -/
def IsLimited (e : Expression) : Prop := e.shuffles = false

instance (e : Expression) : Decidable e.IsLimited :=
  inferInstanceAs (Decidable (e.shuffles = false))

theorem isLimited_ofValue (v : Value) : (ofValue v).IsLimited := by
  cases v <;> rfl

theorem everywhere_isLimited_die (n : Nat) :
    (prefixed .die (literal (.ofNat n))).Everywhere IsLimited :=
  everywhere_iff.mpr ⟨rfl, List.forall_mem_singleton.mpr (.of_children_eq_nil rfl rfl)⟩

theorem not_isLimited_postfixed (operand : Expression) (op : PostfixOp) :
    ¬(postfixed operand op).IsLimited := by
  cases op
  exact Bool.noConfusion

end Expression

/-- The outermost layer of evaluation draws no more than the limit allows, if what it evaluates
draws nothing. -/
theorem Play.DrawsAtMost.layer [Chance ρ] {rules : Rules} (hlimit : rules.limit ≤ 2 ^ (53 : Nat))
    {e : Expression} (he : e.IsLimited) {part : Expression → Play (Tally ρ) Value}
    {argument : Nat → Play (Tally ρ) Value}
    {nested : Option (List Expression) → Expression → Play (Tally ρ) Value}
    (hpart : ∀ e, DrawsAtMost 0 (part e)) (hargument : ∀ i, DrawsAtMost 0 (argument i))
    (hnested : ∀ arguments body, DrawsAtMost 0 (nested arguments body)) :
    DrawsAtMost rules.limit (e.layer rules part argument nested) := by
  have hmono {p : Play (Tally ρ) Value} (h : DrawsAtMost 0 p) : DrawsAtMost rules.limit p :=
    fun t ↦ Nat.le_trans (h t) (Nat.add_le_add_left (Nat.zero_le _) _)
  have hresolve (name : String) : DrawsAtMost 0 (resolve rules name : Play (Tally ρ) Expression) :=
    of_chance_eq fun t ↦ by rw [run_resolve]
  cases e with
  | literal x => exact pure _
  | list items => exact (mapM hpart).behind fun _ ↦ pure _
  | text s => exact pure _
  | reference name =>
    simp only [Expression.layer]
    cases parameter? name with
    | none => exact hmono ((hresolve name).behind fun _ ↦ hnested _ _)
    | some i => exact hmono (hargument i)
  | call name arguments =>
    simp only [Expression.layer]
    cases parameter? name with
    | none => exact hmono ((hresolve name).behind fun _ ↦ hnested _ _)
    | some i => exact throw _
  | prefixed op operand => exact (prefixOp op (hpart _)).before fun _ ↦ conclude _ _ _
  | binary left op right =>
    exact (binaryOp hlimit op (hpart _) (hpart _)).before fun _ ↦ conclude _ _ _
  | postfixed operand op => exact absurd he (Expression.not_isLimited_postfixed _ _)

/-- Evaluates an expression without counting what is drawn for its parts, or for what it refers
to. -/
def Expression.evaluateItself [Chance ρ] (rules : Rules) (depth : Nat)
    (frames : List (List Expression)) (e : Expression) : Play (Tally ρ) Value :=
  e.layer rules (fun part ↦ (part.evaluate rules depth frames).untallied)
    (fun i ↦ (evaluateArgument rules depth frames i).untallied)
    fun arguments body ↦ (evaluateNested rules depth frames arguments body).untallied

/-- A table without the counter of its source. -/
def Table.withoutTally (t : Table (Tally ρ)) : Table ρ := ⟨t.chance.source, t.locals, t.trace⟩

/-- A table with a counter, and the same one without. -/
def Table.Counts (t : Table (Tally ρ)) (u : Table ρ) : Prop := u = t.withoutTally

namespace Table.Counts

theorem coupling [Chance ρ] (hρ : Chance.ShufflesByExchanges ρ) :
    Play.Coupling Eq (fun (c : Tally ρ) d ↦ d = c.source) Counts where
  likeness := .eq
  alike := .tally hρ
  chance := by rintro t _ rfl; rfl
  withChance := by rintro t _ c _ rfl rfl; rfl
  insert := by rintro t _ name v _ rfl - rfl; rfl
  erase := by rintro t _ name - rfl; rfl

theorem record (step : Trace.Step) (t : Table (Tally ρ)) (u : Table ρ) (h : Counts t u) :
    Counts { t with trace := t.trace.push step } { u with trace := u.trace.push step } := by
  obtain rfl := h
  rfl

end Table.Counts

theorem Play.Follows.untallied {excused : RollError → Prop} {V : α → β → Prop}
    {p : Play (Tally ρ) α} {q : Nat → Play ρ β}
    (h : Follows Table.Counts excused V p q) : Follows Table.Counts excused V p.untallied q :=
  fun t u htu ↦ h t u htu

/-- An evaluation comes to the same over a source that counts, whether or not it counts what is
drawn for parts. -/
theorem Expression.evaluate_withoutTally [Chance ρ] (hρ : Chance.ShufflesByExchanges ρ)
    (rules : Rules) (depth : Nat) (frames : List (List Expression)) (e : Expression)
    (t : Table (Tally ρ)) :
    (e.evaluate rules depth frames).run.run t.withoutTally =
      (((e.evaluateItself rules depth frames).run.run t).1,
        ((e.evaluateItself rules depth frames).run.run t).2.withoutTally) := by
  have hrules : Play.Correspondence (fun _ ↦ True) rules rules Table.Counts (fun _ ↦ False) Eq :=
    (Table.Counts.coupling hρ).correspondence (fun _ _ h ↦ congrArg Table.locals h)
      Table.Counts.record rules
  have hpart (depth : Nat) (frames : List (List Expression)) (e : Expression) :
      Play.Follows Table.Counts (fun _ ↦ False) Eq
        (e.evaluate rules depth frames : Play (Tally ρ) Value)
        fun _ ↦ (e.evaluate rules depth frames : Play ρ Value) :=
    hrules.evaluate depth (fun _ _ _ _ _ _ ↦ trivial) fun _ _ ↦ trivial
  have hlayer : Play.Follows Table.Counts (fun _ ↦ False) Eq
      (e.evaluateItself rules depth frames)
      fun _ ↦ (e.evaluate rules depth frames : Play ρ Value) := by
    simp only [evaluate_eq_layer rules depth frames e, evaluateItself]
    refine hrules.layer (fun _ _ ↦ trivial) (fun e _ ↦ (hpart depth frames e).untallied)
      (fun i ↦ ?_) fun arguments body _ _ ↦ ?_
    · exact ((Play.Follows.lifted _).bind_eq fun (x : Expression × List (List Expression)) ↦
        hpart depth x.2 x.1).untallied
    · unfold evaluateNested
      split
      · exact (hpart _ _ body).untallied
      · exact (Play.Follows.misuse _).untallied
  obtain ⟨houtcome, htable⟩ := Play.follows_iff.mp hlayer t _ rfl
  exact Prod.ext houtcome.eq.symm htable

/-! ## The limit zero

No choice is allowed under the limit zero. An operation that would make one fails before it, and one
that has nothing to choose is done. -/

namespace Play

theorem requireChoice_zero_bind (f : Unit → Play ρ α) :
    (requireChoice 0 >>= f) = throw (.limitExceeded 0) := rfl

theorem random_pure (a : α) : random (pure a : StateM ρ α) = (pure a : Play ρ α) := rfl

end Play

namespace Table.Twin

variable {P : Expression → Prop} {c : ρ} {excused : RollError → Prop}

theorem pickCount_zero (x : Binary64) :
    Play.Follows (Twin P (· = c)) excused (fun m n ↦ m = 0 ∧ n = 0)
      (Pick.count 0 x : Play ρ Nat) fun _ ↦ Pick.count 0 x := by
  unfold Pick.count
  split
  · exact .misuse _
  · split
    · exact .throw _
    · next hx =>
      have hcount := Binary64.toNat_le_of_lt_ofNat (Nat.zero_le _) (Bool.eq_false_iff.mpr hx)
        Count.largest
      exact .pure ⟨Nat.le_zero.mp hcount, Nat.le_zero.mp hcount⟩

variable [Chance ρ] {left right operand : Play ρ Value}
  {left' right' operand' : Nat → Play ρ Value}

theorem rollOne_zero (h : Play.Follows (Twin P (· = c)) excused Eq operand operand') :
    Play.Follows (Twin P (· = c)) excused Eq (Dice.rollOne 0 operand)
      fun n ↦ Dice.rollOne 0 (operand' n) := by
  simp only [Dice.rollOne, Play.requireChoice_zero_bind]
  exact h.bind_eq fun _ ↦ (Play.Follows.sidesOf rfl).bind_eq fun _ ↦ .throw _

theorem pickOne_zero (h : Play.Follows (Twin P (· = c)) excused Eq operand operand') :
    Play.Follows (Twin P (· = c)) excused Eq (Pick.one 0 operand)
      fun n ↦ Pick.one 0 (operand' n) := by
  simp only [Pick.one, Play.requireChoice_zero_bind]
  exact h.bind_eq fun _ ↦ .throw _

theorem roll_zero (hl : Play.Follows (Twin P (· = c)) excused Eq left left')
    (hr : Play.Follows (Twin P (· = c)) excused Eq right right') :
    Play.Follows (Twin P (· = c)) excused Eq (Dice.roll 0 left right)
      fun n ↦ Dice.roll 0 (left' n) (right' n) := by
  refine hl.bind_eq fun count ↦ hr.bind_eq fun size ↦ ?_
  dsimp only
  split
  · exact .misuse _
  · split
    · exact .throw _
    · next hx =>
      have hcount := Binary64.toNat_le_of_lt_ofNat (Nat.zero_le _) (Bool.eq_false_iff.mpr hx)
        Count.largest
      simp only [Nat.le_zero.mp hcount, Chance.rollDice, Play.random_pure]
      exact (Play.Follows.sidesOf rfl).bind_eq fun _ ↦ .pure rfl

theorem rollUntil_zero (cmp : Comparison)
    (hl : Play.Follows (Twin P (· = c)) excused Eq left left')
    (hr : Play.Follows (Twin P (· = c)) excused Eq right right') :
    Play.Follows (Twin P (· = c)) excused Eq (Dice.rollUntil 0 cmp left right)
      fun n ↦ Dice.rollUntil 0 cmp (left' n) (right' n) := by
  simp only [Dice.rollUntil, Play.requireChoice_zero_bind]
  exact (clearVariable _).bind_eq fun _ ↦ hl.bind_eq fun _ ↦
    (Play.Follows.sidesOf rfl).bind_eq fun _ ↦ hr.bind_eq fun _ ↦
    (Play.Follows.lifted _).bind_eq fun _ ↦ .throw _

theorem several_zero (hP : ∀ v, P (.ofValue v))
    (hl : Play.Follows (Twin P (· = c)) excused Eq left left')
    (hr : Play.Follows (Twin P (· = c)) excused Eq right right') :
    Play.Follows (Twin P (· = c)) excused Eq (Pick.several 0 left right)
      fun n ↦ Pick.several 0 (left' n) (right' n) := by
  refine hl.bind_eq fun number ↦ hr.bind_eq fun pool ↦ (pickCount_zero _).bind ?_
  rintro _ _ ⟨rfl, rfl⟩
  have hnothing : Play.random? (Chance.pick? pool.items 0) =
      (pure ([], pool.items) : Play ρ (List Value × List Value)) := by
    rw [Chance.pick?, Nat.zero_sub, Nat.zero_div, Nat.zero_mul]
    rfl
  rw [hnothing]
  exact (Play.Follows.requireItems rfl _).bind_eq fun _ ↦
    (setVariable hP _ _).bind_eq fun _ ↦ .pure rfl

theorem replacing_zero (hl : Play.Follows (Twin P (· = c)) excused Eq left left')
    (hr : Play.Follows (Twin P (· = c)) excused Eq right right') :
    Play.Follows (Twin P (· = c)) excused Eq (Pick.replacing 0 left right)
      fun n ↦ Pick.replacing 0 (left' n) (right' n) := by
  refine hl.bind_eq fun number ↦ hr.bind_eq fun pool ↦ (pickCount_zero _).bind ?_
  rintro _ _ ⟨rfl, rfl⟩
  have hnothing : Play.random? (Chance.drawReplacing? pool.items 0) =
      (pure [] : Play ρ (List Value)) := rfl
  rw [hnothing]
  exact (Play.Follows.requireItems rfl _).bind_eq fun _ ↦ .pure rfl

/-- Evaluation under the limit zero draws nothing as long as it does not shuffle. -/
theorem correspondence_zero {saved : Bindings Expression}
    (hsaved : saved.Everywhere Expression.IsLimited) :
    Play.Correspondence Expression.IsLimited ⟨0, saved⟩ ⟨0, saved⟩
      (Twin Expression.IsLimited (· = c)) excused Eq where
  literal _ := rfl
  list := Play.Likeness.eq.list
  text _ := rfl
  resolve _ _ _ := resolve hsaved Expression.everywhere_isLimited_die _ _ _
  prefixed {op _ p q} _ h := by
    have hop : Play.Follows (Twin Expression.IsLimited (· = c)) excused Eq (op.apply 0 p)
        fun n ↦ op.apply 0 (q n) := by
      cases op with
      | die => exact rollOne_zero h
      | pickOne => exact pickOne_zero h
      | _ => exact Play.Likeness.eq.prefixOp rfl _ _ h
    exact hop.bind_eq fun _ ↦ .conclude .eq record _ _ rfl
  binary {op _ _ p p' q q'} _ h h' := by
    have hop : Play.Follows (Twin Expression.IsLimited (· = c)) excused Eq (op.apply 0 p p')
        fun n ↦ op.apply 0 (q n) (q' n) := by
      cases op with
      | dice => exact roll_zero h h'
      | rollUntil cmp => exact rollUntil_zero cmp h h'
      | pick => exact several_zero Expression.isLimited_ofValue h h'
      | pickReplacing => exact replacing_zero h h'
      | _ => exact Play.Likeness.eq.binaryOp rfl _ _ h h'
    exact hop.bind_eq fun _ ↦ .conclude .eq record _ _ rfl
  postfixed he _ := absurd he (Expression.not_isLimited_postfixed _ _)

end Table.Twin

namespace Session

/-- **The limit bounds every operation.** Whatever operation is evaluated, other than a shuffle, and
whether or not it has a value: what it draws itself from a script is no more than the limit allows.
So under the limit zero an expression that does not shuffle, in a store where nothing does, leaves
the source of chance alone. -/
theorem draws_le_limit :
    (∀ (rules : Rules) (depth : Nat) (frames : List (List Expression)) (e : Expression),
      rules.limit ≤ 2 ^ (53 : Nat) → e.IsLimited → ∀ t : Table (Tally Script),
        let run := (e.evaluateItself rules depth frames).run.run t
        (e.evaluate rules depth frames).run.run t.withoutTally = (run.1, run.2.withoutTally) ∧
          run.2.chance.draws ≤ t.chance.draws + rules.limit) ∧
      ∀ {ρ : Type} [Chance ρ] (s : Session ρ) (e : Expression), s.limit = 0 →
        s.store.Everywhere Expression.IsLimited → e.Everywhere Expression.IsLimited →
        (s.evaluateExpression e).2.chance = s.chance := by
  constructor
  · intro rules depth frames e hlimit he t
    refine ⟨e.evaluate_withoutTally Script.shufflesByExchanges rules depth frames t, ?_⟩
    exact Play.DrawsAtMost.layer hlimit he (fun _ ↦ .untallied _) (fun _ ↦ .untallied _)
      (fun _ _ ↦ .untallied _) t
  · intro ρ _ s e hlimit hs he
    have hfollows : Play.Follows (Table.Twin Expression.IsLimited (· = s.chance))
        (fun _ ↦ False) Eq (e.evaluate ⟨0, s.store.saved⟩ 0 s.store.frames)
        fun _ ↦ e.evaluate ⟨0, s.store.saved⟩ 0 s.store.frames :=
      (Table.Twin.correspondence_zero hs.saved).evaluate 0 hs.frames he
    obtain ⟨-, hrun⟩ := Play.follows_iff.mp hfollows ⟨s.chance, s.store.locals, .empty⟩ _
      ⟨rfl, hs.locals, rfl⟩
    rw [evaluateExpression, hlimit]
    generalize (e.evaluate ⟨0, s.store.saved⟩ 0 s.store.frames).run.run
      ⟨s.chance, s.store.locals, .empty⟩ = run at hrun
    obtain ⟨error | v, t⟩ := run
    · exact hrun.chance
    · exact hrun.chance

/-- Five items of a list of two: two passes over the list, and one item of a third. -/
def fiveOfTwo : Expression :=
  .binary (.literal (.ofNat 5)) .pick (.list [.literal (.ofNat 7), .literal (.ofNat 8)])

/-- A session in which dice are stored, but must not be rolled. -/
def withDice : Session Script :=
  { start (.ofFaces [4]) 0 with
    store := Store.empty.setVariable "dice" (.binary (.literal (.ofNat 2)) .dice fiveOfTwo) }

theorem draws_le_limit_fiveOfTwo :
    let rules : Rules := ⟨5, .empty⟩
    let t : Table (Tally Script) := ⟨⟨.ofFaces [2, 1], 0⟩, .empty, .empty⟩
    let run := (fiveOfTwo.evaluateItself rules 0 []).run.run t
    let e : Expression := .reference "dice"
    rules.limit ≤ 2 ^ (53 : Nat) ∧ fiveOfTwo.IsLimited ∧ run.2.chance.draws = 3 ∧
      ((fiveOfTwo.evaluate rules 0 []).run.run t.withoutTally = (run.1, run.2.withoutTally) ∧
        run.2.chance.draws ≤ t.chance.draws + rules.limit) ∧
      withDice.limit = 0 ∧ withDice.store.Everywhere Expression.IsLimited ∧
      e.Everywhere Expression.IsLimited ∧
      (withDice.evaluateExpression e).2.chance = withDice.chance := by
  intro rules t run e
  have hdraws : run.2.chance.draws = 3 := by
    simp only [run, fiveOfTwo, Expression.evaluateItself, Expression.layer, BinaryOp.leftOperand,
      Expression.evaluate_literal, Expression.evaluate_list, List.mapM_cons, List.mapM_nil]
    decide +kernel
  have hs : withDice.store.Everywhere Expression.IsLimited :=
    ⟨.empty, .insert .empty (by decide) _, fun _ h ↦ absurd h List.not_mem_nil⟩
  obtain ⟨hbound, hzero⟩ := draws_le_limit
  exact ⟨by decide, rfl, hdraws, hbound rules 0 [] fiveOfTwo (by decide) rfl t, rfl, hs, by decide,
    hzero withDice e rfl hs (by decide)⟩

end Session

end DiceNotation
