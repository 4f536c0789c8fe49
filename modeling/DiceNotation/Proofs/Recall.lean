import DiceNotation.Chance.Script
import DiceNotation.Proofs.Certainty
import DiceNotation.Proofs.Footprint
import DiceNotation.Proofs.SingleOperations
import DiceNotation.Session

/-!
# Recalling the last input

A session keeps its last input in a variable, so that the input can be evaluated again by referring
to the variable. What this comes to is an input itself, and is kept in its turn: the variable then
refers to itself, and there is nothing left to be recalled. Every further reference goes round in a
circle until too many references are nested.

The first time, the input stands elsewhere than it stood before. It is evaluated one level deeper,
and the variables are no longer the same. An expression that is self-contained, without names and
without random operators, does not notice.
-/

namespace DiceNotation

variable {ρ : Type}

/-! ## Expressions that are self-contained -/

theorem mapM_congr {m : Type → Type} [Monad m] [LawfulMonad m] {α β : Type} {f g : α → m β}
    {as : List α} (h : ∀ a ∈ as, f a = g a) : as.mapM f = as.mapM g := by
  induction as with
  | nil => rw [List.mapM_nil, List.mapM_nil]
  | cons a as ih =>
    obtain ⟨ha, has⟩ := List.forall_mem_cons.mp h
    rw [List.mapM_cons, List.mapM_cons, ha, ih has]

namespace Expression

/-- The expression by itself neither refers to a name nor makes a random choice. -/
def IsSelfContained (e : Expression) : Prop := e.name? = none ∧ e.IsCertain

instance (e : Expression) : Decidable e.IsSelfContained :=
  inferInstanceAs (Decidable (e.name? = none ∧ e.IsCertain))

theorem layer_congr [Chance ρ] {e : Expression} (he : e.name? = none) (limit : Nat)
    {saved saved' : Bindings Expression} {part part' : Expression → Play ρ Value}
    {argument argument' : Nat → Play ρ Value}
    {nested nested' : Option (List Expression) → Expression → Play ρ Value}
    (hpart : ∀ e' ∈ e.parts, part e' = part' e') :
    e.layer ⟨limit, saved⟩ part argument nested
      = e.layer ⟨limit, saved'⟩ part' argument' nested' := by
  cases e with
  | literal x => rfl
  | list items =>
    have hitems : items.mapM part = items.mapM part' := mapM_congr hpart
    rw [layer, layer, hitems]
  | text s => rfl
  | reference name => cases he
  | call name arguments => cases he
  | prefixed op operand => rw [layer, layer, hpart operand List.mem_cons_self]
  | binary left op right =>
    rw [layer, layer, hpart _ List.mem_cons_self,
      hpart right (List.mem_cons_of_mem _ List.mem_cons_self)]
  | postfixed operand op => rw [layer, layer, hpart operand List.mem_cons_self]

/-- **Without names, an expression is evaluated alike everywhere.** -/
theorem evaluate_eq_of_nameless [Chance ρ] {e : Expression}
    (he : e.Everywhere fun x ↦ x.name? = none) (limit : Nat) (saved saved' : Bindings Expression)
    (depth depth' : Nat) (frames frames' : List (List Expression)) :
    (e.evaluate ⟨limit, saved⟩ depth frames : Play ρ Value)
      = e.evaluate ⟨limit, saved'⟩ depth' frames' := by
  induction depth, frames, e using evaluation_induction with
  | layer depth frames e hpart =>
    rw [evaluate_eq_layer, evaluate_eq_layer]
    exact layer_congr he.self limit fun e' he' ↦ hpart e' he' (he.of_mem_parts he')

end Expression

/-! ## What they come to

Evaluation changes nothing but the steps as long as it neither looks up names nor makes choices. So
a self-contained expression comes to the same on two tables and in two frames, whereas a name that
stands for a reference to itself never gets anywhere. -/

/-- The tables have the same steps. Apart from these they are as they have been, each in its own
way. -/
structure Table.Apart (c d : ρ) (b b' : Bindings Expression) (t u : Table ρ) : Prop where
  left : t = ⟨c, b, t.trace⟩
  right : u = ⟨d, b', t.trace⟩

namespace Table.Apart

variable {c d : ρ} {b b' : Bindings Expression}

theorem record (step : Trace.Step) (t u : Table ρ) (h : Apart c d b b' t u) :
    Apart c d b b' { t with trace := t.trace.push step } { u with trace := u.trace.push step } :=
  ⟨by rw [h.left], by rw [h.right]⟩

theorem correspondence [Chance ρ] (rules rules' : Rules) :
    Play.Correspondence Expression.IsSelfContained rules rules' (Apart c d b b') (fun _ ↦ False)
      Eq where
  literal _ := rfl
  list := Play.Likeness.eq.list
  text _ := rfl
  resolve he hname _ := by
    rw [he.1] at hname
    cases hname
  prefixed hop h := (Play.Likeness.eq.prefixOp hop.2 _ _ h).bind fun _ _ ↦ .conclude .eq record _ _
  binary hop h h' :=
    (Play.Likeness.eq.binaryOp hop.2 _ _ h h').bind fun _ _ ↦ .conclude .eq record _ _
  postfixed hop _ := absurd hop.2 (Expression.IsCertain.not_postfixed _ _)

end Table.Apart

namespace Expression

theorem nameless_of_selfContained {e : Expression} (he : e.Everywhere IsSelfContained) :
    e.Everywhere fun x ↦ x.name? = none :=
  fun x hx ↦ (he x hx).1

section Evaluate

variable [Chance ρ] {e : Expression} (he : e.Everywhere IsSelfContained) {rules : Rules}
  {t t' : Table ρ} {outcome : Except RollError Value}

include he

theorem run_evaluate_apart (rules' : Rules) {u : Table ρ} (htrace : u.trace = t.trace)
    (h : (e.evaluate rules 0 []).run.run t = (outcome, t')) :
    t' = { t with trace := t'.trace } ∧
      (e.evaluate rules' 0 []).run.run u = (outcome, { u with trace := t'.trace }) := by
  have hframes : Store.InFrames IsSelfContained [] := fun _ hframe ↦ absurd hframe List.not_mem_nil
  have hfollows : Play.Follows (Table.Apart t.chance u.chance t.locals u.locals)
      (fun _ ↦ False) Eq (e.evaluate rules 0 []) fun _ ↦ e.evaluate rules' 0 [] :=
    (Table.Apart.correspondence rules rules').evaluate 0 hframes he
  obtain ⟨hmatches, hleft, hright⟩ := Play.follows_iff.mp hfollows t u ⟨rfl, by rw [← htrace]⟩
  rw [h] at hmatches hleft hright
  exact ⟨hleft, Prod.ext hmatches.eq.symm hright⟩

/-- **A self-contained expression comes to the same everywhere**, in the same steps, and changes
neither the source of chance nor a variable. -/
theorem run_evaluate_of_selfContained {depth : Nat} {frames : List (List Expression)}
    (h : (e.evaluate rules depth frames).run.run t = (outcome, t')) :
    t' = { t with trace := t'.trace } ∧
      ∀ (rules' : Rules) (depth' : Nat) (frames' : List (List Expression)) (u : Table ρ),
        u.trace = t.trace → (e.evaluate rules' depth' frames').run.run u
          = (outcome, { u with trace := t'.trace }) := by
  -- The calls that are open may hold anything, so both evaluations are moved out of them first.
  have houtside (rules : Rules) (depth : Nat) (frames : List (List Expression)) :
      (e.evaluate rules depth frames : Play ρ Value) = e.evaluate rules 0 [] :=
    evaluate_eq_of_nameless (nameless_of_selfContained he) rules.limit rules.saved rules.saved
      depth 0 frames []
  rw [houtside] at h
  refine ⟨(run_evaluate_apart he rules rfl h).1, fun rules' depth' frames' u htrace ↦ ?_⟩
  rw [houtside]
  exact (run_evaluate_apart he rules' htrace h).2

end Evaluate

theorem run_evaluate_circular [Chance ρ] {rules : Rules} {name : String} {t : Table ρ}
    (hname : parameter? name = none)
    (h : Store.resolve rules.saved t.locals name = .ok (.reference name)) (depth : Nat)
    (frames : List (List Expression)) :
    ((reference name).evaluate rules depth frames).run.run t
      = (.error (.misuse .nestedTooDeep), t) := by
  have hresolve : (Play.resolve rules name).run.run t = (.ok (.reference name), t) := by
    rw [Play.run_resolve, h]
  rw [evaluate_reference _ _ _ hname, Play.run_bind_of_ok hresolve, evaluateNested]
  -- Each round is one level deeper; the induction is on the levels that are left.
  split
  · exact run_evaluate_circular hname h (depth + 1) frames
  · rfl
termination_by deepest - depth

end Expression

theorem Store.resolve_of_get?_locals {saved locals : Bindings Expression} {name : String}
    {e : Expression} (hname : builtIn? name = none) (h : locals.get? name = some e) :
    Store.resolve saved locals name = .ok e := by
  rw [Store.resolve, hname, h]

/-! ## Sessions

A self-contained input that has a value changes nothing but the two variables for the input and the
value. When it has been recalled, the input is the recall, which refers to itself; from there on the
session stays as it is, and a source that leaves the session alone comes out the same over and over
again. -/

namespace Session

/-- The session behind an input that has changed nothing itself: the input and its value are
kept. -/
def keep (s : Session ρ) (input : Expression) (v : Value) : Session ρ :=
  { s with store := (s.store.setVariable inputName input).setVariable valueName (.ofValue v) }

theorem get?_inputName_keep (s : Session ρ) (input : Expression) (v : Value) :
    (s.keep input v).store.locals.get? inputName = some input := by
  rw [keep, Store.get?_setVariable, if_neg (by decide), Store.get?_setVariable, if_pos rfl]

theorem get?_valueName_keep (s : Session ρ) (input : Expression) (v : Value) :
    (s.keep input v).store.locals.get? valueName = some (.ofValue v) := by
  rw [keep, Store.get?_setVariable, if_pos rfl]

theorem resolve_inputName {saved locals : Bindings Expression} {e : Expression}
    (h : locals.get? inputName = some e) : Store.resolve saved locals inputName = .ok e :=
  Store.resolve_of_get?_locals (by decide) h

variable [Chance ρ]

/-- How sources come out one after the other, and the session behind them. -/
def evaluateEach (s : Session ρ) : List String → List (Except RollError Evaluation) × Session ρ
  | [] => ([], s)
  | source :: sources =>
    let (outcome, s) := s.evaluate source
    let (outcomes, s) := evaluateEach s sources
    (outcome :: outcomes, s)

theorem evaluateEach_cons (s : Session ρ) (source : String) (sources : List String) :
    s.evaluateEach (source :: sources)
      = ((s.evaluate source).1 :: ((s.evaluate source).2.evaluateEach sources).1,
        ((s.evaluate source).2.evaluateEach sources).2) := rfl

theorem evaluateEach_replicate {s : Session ρ} {source : String}
    {outcome : Except RollError Evaluation} (h : s.evaluate source = (outcome, s)) (n : Nat) :
    s.evaluateEach (List.replicate n source) = (List.replicate n outcome, s) := by
  induction n with
  | zero => rfl
  | succ n ih => rw [List.replicate_succ, evaluateEach_cons, h, ih, List.replicate_succ]

/-- The source that recalls the last input. -/
def recalling : String := "\x7b_last\x7d"

theorem evaluate_recall (s : Session ρ) :
    s.evaluate recalling = s.evaluateExpression (.reference inputName) := by
  have hread : Expression.read recalling = .ok (.reference inputName) := by
    rw [Expression.read, Expression.readAt_eq]
    rfl
  rw [evaluate, hread]

theorem evaluate_recall_of_circular {s : Session ρ}
    (h : s.store.locals.get? inputName = some (.reference inputName)) :
    s.evaluate recalling = (.error (.misuse .nestedTooDeep), s) := by
  have hrun : ((Expression.reference inputName).evaluate ⟨s.limit, s.store.saved⟩ 0
        s.store.frames).run.run ⟨s.chance, s.store.locals, .empty⟩
      = (.error (.misuse .nestedTooDeep), ⟨s.chance, s.store.locals, .empty⟩) :=
    Expression.run_evaluate_circular (by decide) (resolve_inputName h) 0 s.store.frames
  rw [evaluate_recall, evaluateExpression, hrun]

theorem evaluateExpression_of_run {s : Session ρ} {e : Expression} {v : Value} {trace : Trace}
    (h : (e.evaluate ⟨s.limit, s.store.saved⟩ 0 s.store.frames).run.run
      ⟨s.chance, s.store.locals, .empty⟩ = (.ok v, ⟨s.chance, s.store.locals, trace⟩)) :
    s.evaluateExpression e = (.ok ⟨e, v, trace⟩, s.keep e v) := by
  rw [evaluateExpression, h]
  rfl

theorem run_of_evaluateExpression {s s' : Session ρ} {e : Expression} {r : Evaluation}
    (he : e.Everywhere Expression.IsSelfContained) (h : s.evaluateExpression e = (.ok r, s')) :
    (e.evaluate ⟨s.limit, s.store.saved⟩ 0 s.store.frames).run.run
        ⟨s.chance, s.store.locals, .empty⟩ = (.ok r.value, ⟨s.chance, s.store.locals, r.trace⟩) ∧
      s' = s.keep e r.value := by
  rcases hrun : (e.evaluate ⟨s.limit, s.store.saved⟩ 0 s.store.frames).run.run
    ⟨s.chance, s.store.locals, .empty⟩ with ⟨error | v, t⟩
  · rw [evaluateExpression, hrun] at h
    cases h
  · obtain ⟨ht, -⟩ := Expression.run_evaluate_of_selfContained he hrun
    rw [ht] at hrun
    rw [evaluateExpression_of_run hrun] at h
    obtain ⟨hr, hs'⟩ := Prod.mk.inj h
    obtain rfl := Except.ok.inj hr
    exact ⟨by rw [ht], hs'.symm⟩

theorem evaluate_recall_of_ok {s s' : Session ρ} {e : Expression} {r : Evaluation}
    (he : e.Everywhere Expression.IsSelfContained) (h : s.evaluateExpression e = (.ok r, s')) :
    s'.evaluate recalling = (.ok ⟨.reference inputName, r.value, r.trace⟩,
      s'.keep (.reference inputName) r.value) := by
  obtain ⟨hrun, hs'⟩ := run_of_evaluateExpression he h
  have hresolve : (Play.resolve ⟨s'.limit, s'.store.saved⟩ inputName).run.run
      ⟨s'.chance, s'.store.locals, .empty⟩ = (.ok e, ⟨s'.chance, s'.store.locals, .empty⟩) := by
    have hinput : s'.store.locals.get? inputName = some e := by
      rw [hs']
      exact get?_inputName_keep s e r.value
    rw [Play.run_resolve, resolve_inputName hinput]
  obtain ⟨-, hagain⟩ := Expression.run_evaluate_of_selfContained he hrun
  rw [evaluate_recall]
  refine evaluateExpression_of_run ?_
  rw [Expression.evaluate_reference _ _ _ (by decide), Play.run_bind_of_ok hresolve,
    Expression.evaluateNested, if_pos (by decide)]
  exact hagain _ 1 s'.store.frames _ rfl

/-- **The last input can be recalled once.** Behind a self-contained input that has a value, the
first recall has the same value in the same steps. It is then the last input itself, and every
further one fails and leaves the session as the first one left it. -/
theorem evaluateEach_recall {s s' : Session ρ} {e : Expression} {r : Evaluation}
    (he : e.Everywhere Expression.IsSelfContained) (h : s.evaluateExpression e = (.ok r, s'))
    (n : Nat) :
    s'.evaluateEach (List.replicate (n + 1) recalling)
      = (.ok ⟨.reference inputName, r.value, r.trace⟩
          :: List.replicate n (.error (.misuse .nestedTooDeep)),
        s'.keep (.reference inputName) r.value) := by
  have hlater := evaluate_recall_of_circular
    (get?_inputName_keep s' (.reference inputName) r.value)
  rw [List.replicate_succ, evaluateEach_cons, evaluate_recall_of_ok he h,
    evaluateEach_replicate hlater]

/-- A number and a text are joined, and the input is recalled four times. -/
theorem evaluateEach_recall_joined :
    let s : Session Script := .start (.ofFaces [1]) 10
    let e : Expression := .binary (.literal (.ofNat 1)) .join (.text "A")
    ∃ r s', e.Everywhere Expression.IsSelfContained ∧ s.evaluateExpression e = (.ok r, s') ∧
      s'.evaluateEach (List.replicate 4 recalling)
        = (.ok ⟨.reference inputName, r.value, r.trace⟩
            :: List.replicate 3 (.error (.misuse .nestedTooDeep)),
          s'.keep (.reference inputName) r.value) := by
  intro s e
  have he : e.Everywhere Expression.IsSelfContained := by decide
  have happlied : (BinaryOp.apply s.limit .join
        ((Expression.literal (.ofNat 1)).evaluate ⟨s.limit, s.store.saved⟩ 0 s.store.frames)
        ((Expression.text "A").evaluate ⟨s.limit, s.store.saved⟩ 0 s.store.frames)).run.run
        ⟨s.chance, s.store.locals, .empty⟩
      = (.ok ((Value.number (.ofNat 1)).join (.text "A")), ⟨s.chance, s.store.locals, .empty⟩) := by
    rw [Expression.evaluate_literal, Expression.evaluate_text, BinaryOp.apply]
    rfl
  obtain ⟨trace, hconcluded⟩ :=
    Play.run_bind_conclude happlied (by decide) BinaryOp.join.priority e.code
  have hrun : ((Expression.binary (.literal (.ofNat 1)) .join (.text "A")).evaluate
        ⟨s.limit, s.store.saved⟩ 0 s.store.frames).run.run ⟨s.chance, s.store.locals, .empty⟩
      = (.ok ((Value.number (.ofNat 1)).join (.text "A")),
        ⟨s.chance, s.store.locals, trace⟩) := by
    rw [Expression.evaluate_binary]
    exact hconcluded
  have h := evaluateExpression_of_run hrun
  exact ⟨_, _, he, h, evaluateEach_recall he h 3⟩

/-- A number is recalled once and not twice. -/
theorem evaluateEach_recall_twice :
    let s : Session Script := .start (.ofFaces [1]) 10
    let e : Expression := .literal (.ofNat 1)
    e.Everywhere Expression.IsSelfContained ∧ ∃ s',
      s.evaluateExpression e = (.ok ⟨e, .number (.ofNat 1), .empty⟩, s') ∧
        (s'.evaluateEach [recalling, recalling]).1
          = [.ok ⟨.reference inputName, .number (.ofNat 1), .empty⟩,
            .error (.misuse .nestedTooDeep)] := by
  intro s e
  have he : e.Everywhere Expression.IsSelfContained := by decide
  have h : s.evaluateExpression e
      = (.ok ⟨e, .number (.ofNat 1), .empty⟩, s.keep e (.number (.ofNat 1))) := by
    refine evaluateExpression_of_run ?_
    rw [Expression.evaluate_literal]
    rfl
  refine ⟨he, _, h, ?_⟩
  rw [evaluateEach_cons, evaluate_recall_of_ok he h, evaluateEach_cons,
    evaluate_recall_of_circular (get?_inputName_keep _ _ _)]
  rfl

end Session

end DiceNotation
