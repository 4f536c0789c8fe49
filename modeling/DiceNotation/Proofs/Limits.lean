import DiceNotation.Chance.Script
import DiceNotation.Proofs.Correspondence
import DiceNotation.Proofs.WrittenValues
import DiceNotation.Session

/-!
# Raising the operation limit

An operation asks once whether it may make its choices, and most operations do not look at the
limit again. So under a higher limit an operation that succeeds does the same as before, choice by
choice, and this carries over to whole evaluations. Rolling until a number is met is different: how
often it rolls is up to the limit, and it has a value even if it is stopped.

How many choices an operation makes is a double precision number before it is a count, and is
compared with the limit as one. Limits up to `2⁵³` are represented exactly, so that an operation
that passes makes no more choices than the limit says.

The property that an expression does not roll until a number is met has to be known of the variables
too, and to remain so. The relation `Table.Twin` keeps track of this for any property that holds of
values, and of what is known of the source of chance.
-/

namespace DiceNotation

-- A power of naturals is the one whose laws the core library states, whatever is imported.
attribute [local instance (high)] instPowNat

/-! ## Counts and limits as numbers

Counts of at most 53 bits, and the next one, are represented exactly. So the whole part of a number
that is not above some limit is a count up to it, and the number is not above a higher limit
either. -/

namespace Binary64

theorem representable_one_mul {n : Nat} (h : n ≤ 2 ^ (53 : Nat)) : Representable (one * n) := by
  unfold Representable one overflow
  obtain hlt | rfl := Nat.lt_or_eq_of_le h
  · have hunits : 2 ^ unitExponent * n < 2 ^ (unitExponent + 53) := by
      rw [Nat.pow_add]
      exact Nat.mul_lt_mul_of_pos_left hlt (Nat.two_pow_pos _)
    constructor
    · exact Nat.lt_of_lt_of_le hunits (Nat.pow_le_pow_right (by decide) (by decide))
    · exact Nat.dvd_mul_right_of_dvd (Nat.pow_dvd_pow 2 (spacing_le_of_lt hunits)) n
  · rw [← Nat.pow_add]
    constructor
    · exact Nat.pow_lt_pow_right (by decide) (by decide)
    · refine Nat.pow_dvd_pow 2 ?_
      rw [spacing, Nat.log2_two_pow]
      exact Nat.sub_le _ _

theorem rank?_ofNat {n : Nat} (h : n ≤ 2 ^ (53 : Nat)) :
    (ofNat n).rank? = some ((one * n : Nat) : Int) := by
  rw [ofNat, ofQuotient_of_representable false (representable_one_mul h)]
  rfl

theorem lt_ofNat_eq_false_iff {n : Nat} (h : n ≤ 2 ^ (53 : Nat)) {x : Binary64} :
    (ofNat n).lt x = false ↔ ∀ r ∈ x.rank?, r ≤ ((one * n : Nat) : Int) := by
  rw [lt, rank?_ofNat h]
  cases x.rank? with
  | none => simp
  | some r => simp

theorem lt_ofNat_mono {m n : Nat} (hmn : m ≤ n) (hn : n ≤ 2 ^ (53 : Nat)) {x : Binary64}
    (h : (ofNat m).lt x = false) : (ofNat n).lt x = false := by
  rw [lt_ofNat_eq_false_iff (Nat.le_trans hmn hn)] at h
  rw [lt_ofNat_eq_false_iff hn]
  intro r hr
  have hunits : one * m ≤ one * n := Nat.mul_le_mul_left one hmn
  exact Int.le_trans (h r hr) (Int.ofNat_le.mpr hunits)

theorem toNat_le_of_lt_ofNat {n : Nat} (hn : n ≤ 2 ^ (53 : Nat)) {x : Binary64}
    (h : (ofNat n).lt x = false) (cap : Nat) : x.toNat cap ≤ n := by
  rw [lt_ofNat_eq_false_iff hn] at h
  cases x with
  | nan => exact Nat.zero_le n
  | infinite negative =>
    cases negative with
    | true => exact Nat.zero_le n
    | false =>
      have hle : overflow ≤ one * n := Int.ofNat_le.mp (h _ rfl)
      exact absurd (representable_one_mul hn).1 (Nat.not_lt.mpr hle)
  | finite negative units hunits =>
    cases negative with
    | true => exact Nat.zero_le n
    | false =>
      have hle : units ≤ one * n := Int.ofNat_le.mp (h _ rfl)
      calc min (units / one) cap
        _ ≤ units / one := Nat.min_le_left _ _
        _ ≤ one * n / one := Nat.div_le_div_right hle
        _ = n := Nat.mul_div_cancel_left n one_pos

end Binary64

/-! ## Plays that go further

A play goes further than another if it does the same wherever the other one succeeds. A play that
keeps to others as far as it succeeds keeps to all that go further than these. -/

variable {ρ σ : Type} {α β γ : Type}

namespace Play

/-- The first play succeeds only where the second one does, and in the same way. -/
def Approximates (p q : Play ρ α) : Prop :=
  ∀ t a u, p.run.run t = (.ok a, u) → q.run.run t = (.ok a, u)

namespace Approximates

theorem refl (p : Play ρ α) : Approximates p p := fun _ _ _ h ↦ h

theorem throw (e : RollError) (q : Play ρ α) :
    Approximates (MonadExcept.throw e : Play ρ α) q := by
  rintro t a u ⟨⟩

theorem bind {p q : Play ρ α} {f g : α → Play ρ γ} (h : Approximates p q)
    (hf : ∀ a, Approximates (f a) (g a)) : Approximates (p >>= f) (q >>= g) := by
  intro t c u hrun
  rw [run_bind] at hrun ⊢
  rcases hp : p.run.run t with ⟨error | a, t'⟩
  · rw [hp] at hrun
    cases hrun
  · rw [hp] at hrun
    rw [h t a t' hp]
    exact hf a t' c u hrun

theorem bind_left (p : Play ρ α) {f g : α → Play ρ γ} (hf : ∀ a, Approximates (f a) (g a)) :
    Approximates (p >>= f) (p >>= g) := (refl p).bind hf

end Approximates

theorem Follows.approximates {R : Table ρ → Table σ → Prop} {V : α → β → Prop} {p : Play ρ α}
    {q q' : Nat → Play σ β} (h : Follows R (fun _ ↦ True) V p q)
    (hq : ∀ n, Approximates (q n) (q' n)) : Follows R (fun _ ↦ True) V p q' := by
  intro t u htu
  obtain hexcused | ⟨outcome, u', hmatches, hu', n, hn⟩ := h t u htu
  · exact Or.inl hexcused
  · obtain ⟨outcome', hp⟩ : ∃ outcome', (p.run.run t).1 = outcome' := ⟨_, rfl⟩
    rw [hp] at hmatches ⊢
    cases hmatches with
    | error e => exact Or.inl ⟨e, rfl, trivial⟩
    | ok hab => exact Or.inr ⟨_, u', .ok hab, hu', n, fun m hm ↦ hq m _ _ _ (hn m hm)⟩

/-! ## Operations under two limits -/

namespace Approximates

variable {limit limit' : Nat} (h : limit ≤ limit')

include h

theorem requireChoice :
    Approximates (requireChoice limit : Play ρ Unit) (Play.requireChoice limit') := by
  unfold Play.requireChoice
  by_cases hzero : limit = 0
  · rw [if_pos hzero]
    exact throw _ _
  · rw [if_neg hzero, if_neg (by omega)]
    exact refl _

variable [Chance ρ] {left right operand : Play ρ Value}

theorem rollOne : Approximates (Dice.rollOne limit operand) (Dice.rollOne limit' operand) :=
  bind_left _ fun _ ↦ bind_left _ fun _ ↦ (requireChoice h).bind fun _ ↦ refl _

theorem pickOne : Approximates (Pick.one limit operand) (Pick.one limit' operand) :=
  bind_left _ fun _ ↦ (requireChoice h).bind fun _ ↦ refl _

/-- **Prefix operators** do the same under a higher limit if they succeed. -/
theorem prefixOp (op : PrefixOp) :
    Approximates (op.apply limit operand) (op.apply limit' operand) := by
  cases op with
  | die => exact rollOne h
  | pickOne => exact pickOne h
  | _ => exact refl _

variable (h' : limit' ≤ 2 ^ (53 : Nat))

include h'

omit [Chance ρ] in
theorem unlessAbove (x : Binary64) (p : Play ρ α) :
    Approximates
      (if (Binary64.ofNat limit).lt x then MonadExcept.throw (.limitExceeded limit) else p)
      (if (Binary64.ofNat limit').lt x then MonadExcept.throw (.limitExceeded limit') else p) := by
  by_cases hx : (Binary64.ofNat limit).lt x = true
  · rw [if_pos hx]
    exact throw _ _
  · have hx' := Binary64.lt_ofNat_mono h h' (Bool.eq_false_iff.mpr hx)
    rw [if_neg hx, hx', if_neg Bool.false_ne_true]
    exact refl p

omit [Chance ρ] in
theorem pickCount (x : Binary64) :
    Approximates (Pick.count limit x : Play ρ Nat) (Pick.count limit' x) := by
  unfold Pick.count
  split
  · exact refl _
  · exact unlessAbove h h' _ _

theorem roll : Approximates (Dice.roll limit left right) (Dice.roll limit' left right) := by
  refine bind_left _ fun count ↦ bind_left _ fun size ↦ ?_
  dsimp only
  split
  · exact refl _
  · exact unlessAbove h h' _ _

theorem several : Approximates (Pick.several limit left right) (Pick.several limit' left right) :=
  bind_left _ fun _ ↦ bind_left _ fun _ ↦ (pickCount h h' _).bind fun _ ↦ refl _

theorem replacing :
    Approximates (Pick.replacing limit left right) (Pick.replacing limit' left right) :=
  bind_left _ fun _ ↦ bind_left _ fun _ ↦ (pickCount h h' _).bind fun _ ↦ refl _

/-- Binary operators do the same under a higher limit if they succeed, unless the limit is what
stops them. -/
theorem binaryOp {op : BinaryOp} (hop : ∀ cmp, op ≠ .rollUntil cmp) :
    Approximates (op.apply limit left right) (op.apply limit' left right) := by
  cases op with
  | dice => exact roll h h'
  | rollUntil cmp => exact absurd rfl (hop cmp)
  | pick => exact several h h'
  | pickReplacing => exact replacing h h'
  | _ => exact refl _

end Approximates

end Play

/-! ## Tables of one evaluation

A table stays next to itself whatever operators do. A property that holds of all values, as
expressions, holds of the variables as well, and of what names stand for. -/

theorem Expression.everywhere_ofValue {P : Expression → Prop} (hP : ∀ v, P (ofValue v))
    (v : Value) : (ofValue v).Everywhere P := by
  induction v using Value.induction with
  | number x => exact .of_children_eq_nil (hP (.number x)) rfl
  | list items ih =>
    have hlist := hP (.list items)
    rw [ofValue_list] at hlist ⊢
    refine everywhere_iff.mpr ⟨hlist, fun e he ↦ ?_⟩
    obtain ⟨v, hv, rfl⟩ := List.mem_map.mp he
    exact ih v hv
  | text s => exact .of_children_eq_nil (hP (.text s)) rfl

/-- A table next to itself, with a property of all that stands in its variables, and one of its
source. -/
structure Table.Twin (P : Expression → Prop) (I : ρ → Prop) (t u : Table ρ) : Prop where
  eq : u = t
  locals : t.locals.Everywhere P
  chance : I t.chance

namespace Table.Twin

variable {P : Expression → Prop} {I : ρ → Prop} {excused : RollError → Prop}

theorem record (step : Trace.Step) (t u : Table ρ) (h : Twin P I t u) :
    Twin P I { t with trace := t.trace.push step } { u with trace := u.trace.push step } :=
  ⟨by rw [h.eq], h.locals, h.chance⟩

theorem setVariable (hP : ∀ v, P (.ofValue v)) (name : String) (v : Value) :
    Play.Follows (Twin P I) excused Eq (Play.setVariable name v)
      fun _ ↦ Play.setVariable name v := by
  rintro t _ ⟨rfl, hlocals, hchance⟩
  refine Or.inr ⟨_, _, .ok rfl, ⟨rfl, ?_, hchance⟩, 0, fun _ _ ↦ rfl⟩
  exact hlocals.insert (Expression.everywhere_ofValue hP v) name

theorem clearVariable (name : String) :
    Play.Follows (Twin P I) excused Eq (Play.clearVariable name)
      fun _ ↦ Play.clearVariable name := by
  rintro t _ ⟨rfl, hlocals, hchance⟩
  exact Or.inr ⟨_, _, .ok rfl, ⟨rfl, hlocals.erase name, hchance⟩, 0, fun _ _ ↦ rfl⟩

theorem matches_resolve {saved : Bindings Expression} (hsaved : saved.Everywhere P)
    (hdie : ∀ n, (Expression.prefixed .die (.literal (.ofNat n))).Everywhere P) (name : String)
    {t u : Table ρ} (h : Twin P I t u) :
    Play.Matches (fun body body' ↦ body = body' ∧ body.Everywhere P)
      (Store.resolve saved t.locals name) (Store.resolve saved u.locals name) := by
  rw [h.eq]
  cases hx : Store.resolve saved t.locals name with
  | error e => exact .error e
  | ok body =>
    refine .ok ⟨rfl, Store.everywhere_of_resolve hsaved h.locals (fun e he ↦ ?_) hx⟩
    obtain ⟨n, -, rfl⟩ := Store.eq_die_of_builtIn? he
    exact hdie n

theorem resolve {saved : Bindings Expression} (hsaved : saved.Everywhere P)
    (hdie : ∀ n, (Expression.prefixed .die (.literal (.ofNat n))).Everywhere P)
    (limit limit' : Nat) (name : String) :
    Play.Follows (Twin P I) excused (fun body body' ↦ body = body' ∧ body.Everywhere P)
      (Play.resolve ⟨limit, saved⟩ name) fun _ ↦ Play.resolve ⟨limit', saved⟩ name :=
  Play.Follows.resolve fun _ _ ↦ matches_resolve hsaved hdie name

theorem coupling [Chance ρ] (hP : ∀ v, P (.ofValue v)) :
    Play.Coupling (ρ := ρ) Eq Eq (Twin P fun _ ↦ True) where
  likeness := .eq
  alike := .eq
  chance h := by rw [h.eq]
  withChance := by
    rintro t _ c _ ⟨rfl, hlocals, -⟩ rfl
    exact ⟨rfl, hlocals, trivial⟩
  insert := by
    rintro t _ name v _ rfl - ⟨rfl, hlocals, -⟩
    exact ⟨rfl, hlocals.insert (Expression.everywhere_ofValue hP v) name, trivial⟩
  erase := by
    rintro t _ name - ⟨rfl, hlocals, -⟩
    exact ⟨rfl, hlocals.erase name, trivial⟩

end Table.Twin

/-! ## Evaluations under two limits -/

namespace Expression

/-- Whether the expression rolls a die until it meets a number. -/
def rollsUntil : Expression → Bool
  | .binary _ (.rollUntil _) _ => true
  | _ => false

/-- How many choices the expression makes does not depend on what they are. -/
def IsCounted (e : Expression) : Prop := e.rollsUntil = false

instance (e : Expression) : Decidable e.IsCounted :=
  inferInstanceAs (Decidable (e.rollsUntil = false))

theorem isCounted_ofValue (v : Value) : (ofValue v).IsCounted := by
  cases v <;> rfl

theorem ne_rollUntil_of_isCounted {left right : Expression} {op : BinaryOp}
    (h : (binary left op right).IsCounted) (cmp : Comparison) : op ≠ .rollUntil cmp := by
  rintro rfl
  cases h

theorem everywhere_isCounted_die (n : Nat) :
    (prefixed .die (literal (.ofNat n))).Everywhere IsCounted :=
  everywhere_iff.mpr ⟨rfl, List.forall_mem_singleton.mpr (.of_children_eq_nil rfl rfl)⟩

end Expression

/-- Evaluation under a higher limit keeps to evaluation as far as that succeeds. -/
theorem Table.Twin.correspondence [Chance ρ] {limit limit' : Nat} (h : limit ≤ limit')
    (h' : limit' ≤ 2 ^ (53 : Nat)) {saved : Bindings Expression}
    (hsaved : saved.Everywhere Expression.IsCounted) :
    Play.Correspondence (ρ := ρ) Expression.IsCounted ⟨limit, saved⟩ ⟨limit', saved⟩
      (Twin Expression.IsCounted fun _ ↦ True) (fun _ ↦ True) Eq where
  literal _ := rfl
  list := Play.Likeness.eq.list
  text _ := rfl
  resolve _ _ _ := resolve hsaved Expression.everywhere_isCounted_die _ _ _
  prefixed {op} _ _ _ _ hp :=
    (((coupling Expression.isCounted_ofValue).prefixOp op hp).approximates
      fun _ ↦ .prefixOp h op).bind_eq fun _ ↦ .conclude .eq record _ _ rfl
  binary {op} _ _ _ _ _ _ he hp hp' :=
    (((coupling Expression.isCounted_ofValue).binaryOp op hp hp').approximates
      fun _ ↦ .binaryOp h h' (Expression.ne_rollUntil_of_isCounted he)).bind_eq
        fun _ ↦ .conclude .eq record _ _ rfl
  postfixed {op} _ _ _ _ hp :=
    ((coupling Expression.isCounted_ofValue).postfixOp op hp).bind_eq
      fun _ ↦ .conclude .eq record _ _ rfl

namespace Session

/-- **Raising the limit never changes a success.** If no die is rolled until it meets a number
anywhere in an expression and in the store, and the expression has a value, then under a higher
limit it has the same value by the same steps, and what it leaves of the source of chance and in
the store is the same. -/
theorem evaluateExpression_of_limit_le [Chance ρ] {s : Session ρ} {e : Expression} {limit : Nat}
    (hs : s.store.Everywhere Expression.IsCounted) (he : e.Everywhere Expression.IsCounted)
    (h : s.limit ≤ limit) (h' : limit ≤ 2 ^ (53 : Nat)) {r : Evaluation}
    (hr : (s.evaluateExpression e).1 = .ok r) :
    { s with limit }.evaluateExpression e =
      (.ok r, { (s.evaluateExpression e).2 with limit }) := by
  have hfollows := (Table.Twin.correspondence (ρ := ρ) h h' hs.saved).evaluate 0 hs.frames he
  have hrun := hfollows ⟨s.chance, s.store.locals, .empty⟩ _ ⟨rfl, hs.locals, trivial⟩
  rw [evaluateExpression] at hr ⊢
  rw [evaluateExpression]
  generalize (e.evaluate ⟨s.limit, s.store.saved⟩ 0 s.store.frames).run.run
    ⟨s.chance, s.store.locals, .empty⟩ = run at hr hrun
  obtain ⟨error | v, t⟩ := run
  · cases hr
  · cases hr
    obtain ⟨_, ⟨⟩, -⟩ | ⟨outcome, u, hmatches, hu, n, hn⟩ := hrun
    dsimp only at hmatches hu hn ⊢
    rw [hn n (Nat.le_refl n), hu.eq, ← hmatches.eq]

/-- A die, and two of three items. -/
def dieAndItems : Expression :=
  .binary (.prefixed .die (.literal (.ofNat 6))) .join
    (.binary (.literal (.ofNat 2)) .pick
      (.list [.literal (.ofNat 7), .literal (.ofNat 8), .literal (.ofNat 9)]))

theorem evaluateExpression_of_limit_le_dieAndItems :
    let s : Session Script := start (.ofFaces [5, 3, 1]) 2
    s.store.Everywhere Expression.IsCounted ∧ dieAndItems.Everywhere Expression.IsCounted ∧
      s.limit ≤ 1000 ∧ 1000 ≤ 2 ^ (53 : Nat) ∧
      ∃ r, (s.evaluateExpression dieAndItems).1 = .ok r ∧
        { s with limit := 1000 }.evaluateExpression dieAndItems =
          (.ok r, { (s.evaluateExpression dieAndItems).2 with limit := 1000 }) := by
  intro s
  have he : dieAndItems.Everywhere Expression.IsCounted := by decide
  have hok : (s.evaluateExpression dieAndItems).1.toBool = true := by
    rw [evaluateExpression, dieAndItems]
    simp only [Expression.evaluate_list, Expression.evaluate_prefixed, Expression.evaluate_binary,
      Expression.evaluate_literal, BinaryOp.leftOperand, List.mapM_cons, List.mapM_nil]
    decide +kernel
  refine ⟨.empty, he, by decide, by decide, ?_⟩
  rcases hr : (s.evaluateExpression dieAndItems).1 with error | r
  · rw [hr] at hok
    cases hok
  · exact ⟨r, rfl, evaluateExpression_of_limit_le .empty he (by decide) (by decide) hr⟩

end Session

end DiceNotation
