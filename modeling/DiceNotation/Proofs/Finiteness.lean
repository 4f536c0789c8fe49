import DiceNotation.Chance.Script
import DiceNotation.Proofs.Correspondence
import DiceNotation.Proofs.WrittenValues

/-!
# Finite numbers stay finite

Operations may come to an infinite number or to none, and even a die may have infinitely many sides
asked for. That nothing of this gets into a value or into the store has three reasons: an operation
whose result is not finite fails, what operators store on the side is made of dice and of items of
their operands, and the number of sides that is rolled is a machine word whatever is asked for.

The invariant is that every literal in the variables is finite. It says nothing about potentials,
which may be infinite.
-/

namespace DiceNotation

-- A power of naturals is the one whose laws the core library states, whatever is imported.
attribute [local instance (high)] instPowNat

/-! ## Numbers

The numbers of machine words are in range, and so is the next one, since rounding does not lead far
beyond a count. -/

namespace Binary64

theorem toNat_le (cap : Nat) (x : Binary64) : x.toNat cap ≤ cap := by
  unfold toNat
  split
  · exact Nat.zero_le _
  · split
    · exact Nat.zero_le _
    · exact Nat.le_refl _
  · split
    · exact Nat.zero_le _
    · exact Nat.min_le_right _ _

theorem roundUnits_two_pow_mul_lt (k : Nat) {n : Nat} (hn : n < 2 ^ (65 : Nat)) :
    roundUnits (2 ^ k * n) 1 < 2 ^ (1024 + k) := by
  have hunits : 2 ^ k * n / 1 < 2 ^ (k + 12 + 53) := by
    rw [Nat.div_one, Nat.add_assoc, Nat.pow_add]
    exact Nat.mul_lt_mul_of_pos_left hn (Nat.two_pow_pos k)
  have hspacing : spacing (2 ^ k * n / 1) ≤ k + 12 := spacing_le_of_lt hunits
  have hexponent : spacing (2 ^ k * n / 1) + 53 < 1024 + k := by omega
  exact Nat.lt_of_le_of_lt (roundUnits_le _ _) (Nat.pow_lt_pow_right (by decide) hexponent)

theorem isFinite_ofNat {n : Nat} (h : n ≤ UInt64.size) : (ofNat n).isFinite = true := by
  have hlt : roundUnits (one * n) 1 < overflow := by
    unfold one overflow
    exact roundUnits_two_pow_mul_lt unitExponent (Nat.lt_of_le_of_lt h (by decide))
  rw [ofNat, ofQuotient, dif_pos hlt]
  rfl

end Binary64

/-! ## Answers of chance

A script shows hundredths, and faces below the bound. The die that a roll ends with is one of those
that were rolled. -/

namespace Chance

/-- A source that answers with numbers that there are: a fraction is finite, and a choice below a
machine word is a machine word. -/
structure HasFiniteAnswers (ρ : Type) [Chance ρ] : Prop where
  fraction (c : ρ) : ((fraction : StateM ρ Binary64).run c).1.isFinite = true
  below {bound : Nat} (h : 0 < bound) (hb : bound ≤ Count.largest) (c : ρ) :
    ((below bound : StateM ρ Nat).run c).1 ≤ Count.largest

variable {ρ α : Type}

theorem Agree.self {Q : α → Prop} {choice : StateM ρ α} (h : ∀ c, Q (choice.run c).1) :
    Agree Eq (fun a b ↦ a = b ∧ Q a) choice choice := by
  rintro c _ rfl
  exact ⟨⟨rfl, h c⟩, rfl⟩

namespace HasFiniteAnswers

variable [Chance ρ] (h : HasFiniteAnswers ρ) {sides : Nat} (hs : sides ≤ Count.largest)

include h hs

theorem rollDie : Agree Eq (fun x y ↦ x = y ∧ x.value.isFinite = true)
    (rollDie sides : StateM ρ Number) (Chance.rollDie sides) := by
  refine .self fun c ↦ ?_
  rw [Chance.rollDie]
  split
  · exact h.fraction c
  · next hsides =>
    have hface := h.below (by omega) hs c
    exact Binary64.isFinite_ofNat (Nat.succ_le_succ hface)

theorem rollUntil (met : Number → Bool) (limit : Nat) :
    Agree Eq (fun p q ↦ p = q ∧ ∀ die ∈ p.2, die.value.isFinite = true)
      (rollUntil sides met limit : StateM ρ (List Number × Option Number))
      (Chance.rollUntil sides met limit) := by
  induction limit with
  | zero => exact .pure ⟨rfl, fun _ hdie ↦ by cases hdie⟩
  | succ limit ih =>
    refine (h.rollDie hs).bind ?_
    rintro die _ ⟨rfl, hdie⟩
    split
    · refine .pure ⟨rfl, ?_⟩
      rintro _ ⟨⟩
      exact hdie
    · refine ih.bind ?_
      rintro rolled _ ⟨rfl, hlast⟩
      exact .pure ⟨rfl, hlast⟩

end HasFiniteAnswers

end Chance

theorem Script.hasFiniteAnswers : Chance.HasFiniteAnswers Script where
  fraction s := by
    have hhundredths : ∀ n < 100, (Binary64.ofNat n / 100).isFinite = true := by decide +kernel
    exact hhundredths _ (Nat.mod_lt _ (by decide))
  below h hb s := Nat.le_trans (Nat.le_of_lt (Nat.mod_lt _ h)) hb

/-! ## Expressions -/

namespace Expression

theorem everywhere_isFinite_ofValue {v : Value} (h : v.isFinite = true) :
    (ofValue v).Everywhere IsFinite := by
  induction v using Value.induction with
  | number x => exact .of_children_eq_nil h rfl
  | list items ih =>
    rw [ofValue_list, everywhere_iff]
    refine ⟨trivial, fun e he ↦ ?_⟩
    obtain ⟨v, hv, rfl⟩ := List.mem_map.mp he
    exact ih v hv (Value.isFinite_list.mp h v hv)
  | text s => exact .of_children_eq_nil trivial rfl

theorem everywhere_isFinite_builtIn {name : String} {e : Expression} (h : builtIn? name = some e) :
    e.Everywhere IsFinite := by
  obtain ⟨n, hn, rfl⟩ := Store.eq_die_of_builtIn? h
  have hsize : n ≤ UInt64.size := Nat.le_trans hn (by decide)
  exact everywhere_iff.mpr ⟨trivial, List.forall_mem_singleton.mpr
    (.of_children_eq_nil (Binary64.isFinite_ofNat hsize) rfl)⟩

end Expression

theorem Value.isFinite_of_mem_items {v w : Value} (h : v.isFinite = true) (hw : w ∈ v.items) :
    w.isFinite = true := by
  cases v with
  | list items => exact isFinite_list.mp h w hw
  | number x => exact List.mem_singleton.mp hw ▸ h
  | text s => exact List.mem_singleton.mp hw ▸ h

/-! ## Operators -/

variable {ρ : Type}

/-- A table next to itself, with finite numbers in its variables. -/
structure Table.Finite (t u : Table ρ) : Prop where
  eq : u = t
  locals : t.locals.Everywhere Expression.IsFinite

namespace Table.Finite

/-- The same value, which is finite. -/
def Same (v w : Value) : Prop := v = w ∧ v.isFinite = true

theorem same_list {vs ws : List Value} (h : List.Forall₂ Same vs ws) :
    Same (.list vs) (.list ws) := by
  have hvs : List.Forall₂ Eq vs ws := h.imp fun _ _ hv ↦ hv.1
  rw [List.forall₂_eq_eq_eq] at hvs
  subst hvs
  exact ⟨rfl, Value.isFinite_list.mpr fun v hv ↦ (List.forall₂_same.mp h v hv).2⟩

theorem record (step : Trace.Step) (t u : Table ρ) (h : Finite t u) :
    Finite { t with trace := t.trace.push step } { u with trace := u.trace.push step } :=
  ⟨by rw [h.eq], h.locals⟩

variable {excused : RollError → Prop} {limit : Nat}

/-- An operation that has a result has a finite one. -/
theorem conclude (priority : Priority) (code : String) (v : Value) :
    Play.Follows (Finite (ρ := ρ)) excused Same (Play.conclude priority code v)
      fun _ ↦ Play.conclude priority code v := by
  have hrecord : ∀ step, Play.Follows (Finite (ρ := ρ)) excused Eq (Play.record step)
      fun _ ↦ Play.record step :=
    fun step t u htu ↦ Or.inr ⟨_, _, .ok rfl, record step t u htu, 0, fun _ _ ↦ rfl⟩
  unfold Play.conclude
  by_cases h : v.isFinite = true
  · simp only [h, Bool.not_true, Bool.false_eq_true, if_false]
    split
    · exact (hrecord _).bind_eq fun _ ↦ .pure ⟨rfl, h⟩
    · exact .pure ⟨rfl, h⟩
  · simp only [h, Bool.not_false, if_true]
    exact .misuse _

theorem sidesOf (size : Value) :
    Play.Follows (Finite (ρ := ρ)) excused (fun m n ↦ m = n ∧ m ≤ Count.largest)
      (Dice.sidesOf size) fun _ ↦ Dice.sidesOf size := by
  unfold Dice.sidesOf Dice.sides
  split
  · next n h =>
    split at h
    · cases h
      exact .pure ⟨rfl, Binary64.toNat_le _ _⟩
    · cases h
  · exact .misuse _

theorem setVariable (name : String) {v : Value} (h : v.isFinite = true) :
    Play.Follows (Finite (ρ := ρ)) excused Eq (Play.setVariable name v)
      fun _ ↦ Play.setVariable name v := by
  rintro t _ ⟨rfl, hlocals⟩
  refine Or.inr ⟨_, _, .ok rfl, ⟨rfl, ?_⟩, 0, fun _ _ ↦ rfl⟩
  exact hlocals.insert (Expression.everywhere_isFinite_ofValue h) name

theorem clearVariable (name : String) :
    Play.Follows (Finite (ρ := ρ)) excused Eq (Play.clearVariable name)
      fun _ ↦ Play.clearVariable name := by
  rintro t _ ⟨rfl, hlocals⟩
  exact Or.inr ⟨_, _, .ok rfl, ⟨rfl, hlocals.erase name⟩, 0, fun _ _ ↦ rfl⟩

variable [Chance ρ]

theorem drawing : Play.Drawing (ρ := ρ) Eq Eq Finite where
  likeness := .eq
  alike := .eq
  chance h := by rw [h.eq]
  withChance := by
    rintro t _ c _ ⟨rfl, h⟩ rfl
    exact ⟨rfl, h⟩

variable {left right : Play ρ Value} {left' right' : Nat → Play ρ Value}

theorem rollUntil (hρ : Chance.HasFiniteAnswers ρ) (cmp : Comparison)
    (hl : Play.Follows Finite excused Same left left')
    (hr : Play.Follows Finite excused Same right right') :
    Play.Follows Finite excused Eq (Dice.rollUntil limit cmp left right)
      fun n ↦ Dice.rollUntil limit cmp (left' n) (right' n) := by
  refine (clearVariable _).bind_eq fun _ ↦ hl.bind ?_
  rintro size _ ⟨rfl, -⟩
  refine (sidesOf size).bind ?_
  rintro sides _ ⟨rfl, hsides⟩
  refine hr.bind ?_
  rintro bound _ ⟨rfl, -⟩
  refine (Play.Follows.lifted _).bind_eq fun cutoff ↦ (Play.Follows.requireChoice _).bind_eq
    fun _ ↦ (drawing.random (hρ.rollUntil hsides _ _)).bind ?_
  rintro ⟨dice, _ | die⟩ _ ⟨rfl, hlast⟩
  · exact .pure rfl
  · have hdie : (Value.number die).isFinite = true := hlast die rfl
    exact (setVariable _ hdie).bind_eq fun _ ↦ .pure rfl

theorem several (hl : Play.Follows Finite excused Same left left')
    (hr : Play.Follows Finite excused Same right right') :
    Play.Follows Finite excused Eq (Pick.several limit left right)
      fun n ↦ Pick.several limit (left' n) (right' n) := by
  refine hl.bind ?_
  rintro number _ ⟨rfl, -⟩
  refine hr.bind ?_
  rintro pool _ ⟨rfl, hpool⟩
  -- What is left of the pool are items of it, which are finite.
  have hitems : List.Forall₂ Same pool.items pool.items :=
    List.forall₂_same.mpr fun _ hv ↦ ⟨rfl, Value.isFinite_of_mem_items hpool hv⟩
  refine (Play.Follows.pickCount _ _).bind_eq fun count ↦
    (Play.Follows.requireItems rfl _).bind_eq fun _ ↦
    (drawing.random? (Chance.Alike.eq.pick? hitems _)).bind ?_
  rintro ⟨picked, left⟩ ⟨picked', left'⟩ ⟨hpicked, hleft⟩
  obtain ⟨hpicked, -⟩ := same_list hpicked
  obtain ⟨⟨⟩, hfinite⟩ := same_list hleft
  exact (setVariable _ hfinite).bind_eq fun _ ↦ .pure hpicked

/-- Evaluation keeps variables finite, and its values. -/
theorem correspondence (hρ : Chance.HasFiniteAnswers ρ) {saved : Bindings Expression}
    (hsaved : saved.Everywhere Expression.IsFinite) (limit : Nat) :
    Play.Correspondence Expression.IsFinite ⟨limit, saved⟩ ⟨limit, saved⟩ (Finite (ρ := ρ))
      excused Same where
  literal h := ⟨rfl, h⟩
  list := same_list
  text _ := ⟨rfl, rfl⟩
  resolve {_ name} _ _ _ := by
    refine .resolve fun t u htu ↦ ?_
    rw [htu.eq]
    cases hx : Store.resolve saved t.locals name with
    | error e => exact .error e
    | ok body =>
      exact .ok ⟨rfl, Store.everywhere_of_resolve hsaved htu.locals
        (fun _ ↦ Expression.everywhere_isFinite_builtIn) hx⟩
  prefixed {op} _ _ _ _ h :=
    (drawing.prefixOp op (h.mono fun _ _ hv ↦ hv.1)).bind_eq fun _ ↦ conclude _ _ _
  binary {op} _ _ p p' q q' _ h h' := by
    have hop : Play.Follows (Finite (ρ := ρ)) excused Eq (op.apply limit p p')
        fun n ↦ op.apply limit (q n) (q' n) := by
      cases op with
      | rollUntil cmp => exact rollUntil hρ cmp h h'
      | pick => exact several h h'
      | _ =>
        exact drawing.binaryOp rfl (h.mono fun _ _ hv ↦ hv.1) (h'.mono fun _ _ hv ↦ hv.1)
    exact hop.bind_eq fun _ ↦ conclude _ _ _
  postfixed {op} _ _ _ _ h :=
    (drawing.postfixOp op (h.mono fun _ _ hv ↦ hv.1)).bind_eq fun _ ↦ conclude _ _ _

end Table.Finite

/-! ## Sessions -/

/-- **Finite numbers stay finite.** If all literals in an expression and in the store are finite,
and the source of chance answers with finite numbers as a script does, then every number in the
value of the expression is finite, and all literals in the store are finite afterwards even if the
expression has no value. -/
theorem Session.evaluateExpression_of_finite :
    Chance.HasFiniteAnswers Script ∧
      ∀ {ρ : Type} [Chance ρ], Chance.HasFiniteAnswers ρ → ∀ (s : Session ρ) (e : Expression),
        s.store.Everywhere Expression.IsFinite → e.Everywhere Expression.IsFinite →
        (∀ r, (s.evaluateExpression e).1 = .ok r → r.value.isFinite = true) ∧
          (s.evaluateExpression e).2.store.Everywhere Expression.IsFinite := by
  refine ⟨Script.hasFiniteAnswers, fun hρ s e hs he ↦ ?_⟩
  have hfollows : Play.Follows Table.Finite (fun _ ↦ False) Table.Finite.Same
      (e.evaluate ⟨s.limit, s.store.saved⟩ 0 s.store.frames)
      fun _ ↦ e.evaluate ⟨s.limit, s.store.saved⟩ 0 s.store.frames :=
    (Table.Finite.correspondence hρ hs.saved s.limit).evaluate 0 hs.frames he
  obtain ⟨hmatches, -, hlocals⟩ := Play.follows_iff.mp hfollows
    ⟨s.chance, s.store.locals, .empty⟩ _ ⟨rfl, hs.locals⟩
  rw [evaluateExpression]
  generalize (e.evaluate ⟨s.limit, s.store.saved⟩ 0 s.store.frames).run.run
    ⟨s.chance, s.store.locals, .empty⟩ = run at hmatches hlocals
  obtain ⟨error | v, t⟩ := run
  · refine ⟨?_, hs.saved, hlocals, hs.frames⟩
    rintro r ⟨⟩
  · obtain ⟨-, hv⟩ : Table.Finite.Same v v := by
      cases hmatches with
      | ok h => exact h
    refine ⟨?_, hs.saved, ?_, hs.frames⟩
    · rintro r ⟨⟩
      exact hv
    · exact (hlocals.insert he _).insert (Expression.everywhere_isFinite_ofValue hv) _

/-- A number that is in range, but not when it is doubled. -/
def Expression.huge : Expression := .literal (.ofNat (2 ^ (1023 : Nat)))

/-- A session in which a variable stands for two numbers whose sum is out of range. -/
def Session.withHuge : Session Script :=
  { start (.ofFaces [5]) 1000 with
    store := Store.empty.setVariable "huge" (.list [.huge, .huge]) }

/-- A die with infinitely many sides, which is rolled nevertheless. -/
theorem Session.evaluateExpression_of_finite_withHuge :
    let e : Expression := .prefixed .die (.reference "huge")
    Chance.HasFiniteAnswers Script ∧ withHuge.store.Everywhere Expression.IsFinite ∧
      e.Everywhere Expression.IsFinite ∧
      (∀ r, (withHuge.evaluateExpression e).1 = .ok r → r.value.isFinite = true) ∧
        (withHuge.evaluateExpression e).2.store.Everywhere Expression.IsFinite := by
  intro e
  have hhuge : Expression.huge.Everywhere Expression.IsFinite := by
    refine .of_children_eq_nil ?_ rfl
    change (Binary64.ofNat (2 ^ (1023 : Nat))).isFinite = true
    decide +kernel
  have hlist : (Expression.list [.huge, .huge]).Everywhere Expression.IsFinite :=
    Expression.everywhere_iff.mpr ⟨trivial, List.forall_mem_cons.mpr
      ⟨hhuge, List.forall_mem_singleton.mpr hhuge⟩⟩
  have hs : withHuge.store.Everywhere Expression.IsFinite :=
    ⟨.empty, .insert .empty hlist _, fun _ h ↦ absurd h List.not_mem_nil⟩
  have he : e.Everywhere Expression.IsFinite :=
    Expression.everywhere_iff.mpr ⟨trivial, List.forall_mem_singleton.mpr
      (.of_children_eq_nil trivial rfl)⟩
  obtain ⟨hscript, h⟩ := evaluateExpression_of_finite
  exact ⟨hscript, hs, he, h hscript withHuge e hs he⟩

end DiceNotation
