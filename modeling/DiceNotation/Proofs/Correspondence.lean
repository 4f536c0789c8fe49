import DiceNotation.Proofs.Lockstep
import DiceNotation.Proofs.Occurrences

/-!
# Evaluations of one expression

Two evaluations of one expression, under two sets of rules and over two sources of chance, keep to
each other as soon as literals, names and operations do (`Correspondence`). They have to do so only
for expressions of some property, which is one that holds of all that stands in the expression, in
the frames and in what names stand for.
-/

namespace DiceNotation.Play

variable {ρ σ : Type}

/-- Relations that are kept by everything that evaluation does with expressions of the property `P`
besides evaluating others, under rules on one side and under other rules on the other. -/
structure Correspondence [Chance ρ] [Chance σ] (P : Expression → Prop) (rules rules' : Rules)
    (R : Table ρ → Table σ → Prop) (excused : RollError → Prop) (V : Value → Value → Prop) :
    Prop where
  literal {x : Number} : P (.literal x) → V (.number x) (.number x)
  list {vs ws : List Value} : List.Forall₂ V vs ws → V (.list vs) (.list ws)
  text (s : String) : V (.text s) (.text s)
  resolve {e : Expression} {name : String} : P e → e.name? = some name → parameter? name = none →
    Follows R excused (fun body body' ↦ body = body' ∧ body.Everywhere P) (resolve rules name)
      fun _ ↦ resolve rules' name
  prefixed {op : PrefixOp} {operand : Expression} {p : Play ρ Value} {q : Nat → Play σ Value} :
    P (.prefixed op operand) → Follows R excused V p q →
      Follows R excused V
        (op.apply rules.limit p >>= conclude op.priority (Expression.code (.prefixed op operand)))
        fun n ↦ op.apply rules'.limit (q n) >>=
          conclude op.priority (Expression.code (.prefixed op operand))
  binary {op : BinaryOp} {left right : Expression} {p p' : Play ρ Value}
    {q q' : Nat → Play σ Value} :
    P (.binary left op right) → Follows R excused V p q → Follows R excused V p' q' →
      Follows R excused V
        (op.apply rules.limit p p' >>=
          conclude op.priority (Expression.code (.binary left op right)))
        fun n ↦ op.apply rules'.limit (q n) (q' n) >>=
          conclude op.priority (Expression.code (.binary left op right))
  postfixed {op : PostfixOp} {operand : Expression} {p : Play ρ Value} {q : Nat → Play σ Value} :
    P (.postfixed operand op) → Follows R excused V p q →
      Follows R excused V
        (op.apply p >>= conclude op.priority (Expression.code (.postfixed operand op)))
        fun n ↦ op.apply (q n) >>= conclude op.priority (Expression.code (.postfixed operand op))

namespace Correspondence

variable [Chance ρ] [Chance σ] {P : Expression → Prop} {rules rules' : Rules}
  {R : Table ρ → Table σ → Prop} {excused : RollError → Prop} {V : Value → Value → Prop}
  (h : Correspondence P rules rules' R excused V)

include h

theorem layer {e : Expression} (he : e.Everywhere P) {part : Expression → Play ρ Value}
    {argument : Nat → Play ρ Value}
    {nested : Option (List Expression) → Expression → Play ρ Value}
    {part' : Nat → Expression → Play σ Value} {argument' : Nat → Nat → Play σ Value}
    {nested' : Nat → Option (List Expression) → Expression → Play σ Value}
    (hpart : ∀ e' ∈ e.parts, Follows R excused V (part e') fun n ↦ part' n e')
    (hargument : ∀ i, Follows R excused V (argument i) fun n ↦ argument' n i)
    (hnested : ∀ arguments body, Store.InFrames P arguments.toList → body.Everywhere P →
      Follows R excused V (nested arguments body) fun n ↦ nested' n arguments body) :
    Follows R excused V (e.layer rules part argument nested)
      fun n ↦ e.layer rules' (part' n) (argument' n) (nested' n) := by
  cases e with
  | literal x => exact .pure (h.literal he.self)
  | list items =>
    have hitems := Follows.mapM (List.forall₂_same.mpr hpart)
    exact hitems.bind fun _ _ hvs ↦ .pure (h.list hvs)
  | text s => exact .pure (h.text s)
  | reference name =>
    simp only [Expression.layer]
    cases hname : parameter? name with
    | none =>
      refine (h.resolve he.self rfl hname).bind ?_
      rintro body _ ⟨rfl, hbody⟩
      exact hnested none body (fun _ hframe ↦ absurd hframe List.not_mem_nil) hbody
    | some i => exact hargument i
  | call name arguments =>
    simp only [Expression.layer]
    cases hname : parameter? name with
    | none =>
      refine (h.resolve he.self rfl hname).bind ?_
      rintro body _ ⟨rfl, hbody⟩
      have harguments : Store.InFrames P [arguments] :=
        List.forall_mem_singleton.mpr fun _ ↦ he.of_mem_children
      exact hnested (some arguments) body harguments hbody
    | some i => exact .misuse _
  | prefixed op operand => exact h.prefixed he.self (hpart operand List.mem_cons_self)
  | binary left op right =>
    have hleft := hpart (op.leftOperand left) List.mem_cons_self
    have hright := hpart right (List.mem_cons_of_mem _ List.mem_cons_self)
    exact h.binary he.self hleft hright
  | postfixed operand op => exact h.postfixed he.self (hpart operand List.mem_cons_self)

/-- **Evaluations of one expression follow each other** where the property holds of all that they
can come to. -/
theorem evaluate (depth : Nat) {frames : List (List Expression)} (hf : Store.InFrames P frames)
    {e : Expression} (he : e.Everywhere P) :
    Follows R excused V (e.evaluate rules depth frames : Play ρ Value)
      fun _ ↦ (e.evaluate rules' depth frames : Play σ Value) := by
  induction depth, frames, e using Expression.evaluation_induction with
  | layer depth frames e hpart hargument hnested =>
    simp only [Expression.evaluate_eq_layer _ depth frames e]
    refine h.layer he (fun e' he' ↦ hpart e' he' hf (he.of_mem_parts he')) (fun i ↦ ?_)
      fun arguments body harguments hbody ↦ ?_
    · unfold Expression.evaluateArgument
      cases hx : Store.argument frames i with
      | error e => exact Follows.throw e
      | ok x =>
        obtain ⟨hx', houter⟩ := hf.argument hx
        exact hargument i x.1 x.2 hx houter hx'
    · unfold Expression.evaluateNested
      split
      · next hd => exact hnested hd _ body (List.forall_mem_append.mpr ⟨harguments, hf⟩) hbody
      · exact .misuse _

end Correspondence

theorem Coupling.correspondence [Chance ρ] [Chance σ] {C : ρ → σ → Prop}
    {R : Table ρ → Table σ → Prop} {excused : RollError → Prop} (hR : Coupling Eq C R)
    (hlocals : ∀ t u, R t u → u.locals = t.locals)
    (hrecord : ∀ step t u, R t u →
      R { t with trace := t.trace.push step } { u with trace := u.trace.push step })
    (rules : Rules) : Correspondence (fun _ ↦ True) rules rules R excused Eq where
  literal _ := rfl
  list := Likeness.eq.list
  text _ := rfl
  resolve {_ name} _ _ _ := by
    refine .resolve fun t u htu ↦ ?_
    rw [hlocals t u htu]
    cases Store.resolve rules.saved t.locals name with
    | ok body => exact .ok ⟨rfl, fun _ _ ↦ trivial⟩
    | error e => exact .error e
  prefixed _ h := (hR.prefixOp _ h).bind fun _ _ ↦ .conclude .eq hrecord _ _
  binary _ h h' := (hR.binaryOp _ h h').bind fun _ _ ↦ .conclude .eq hrecord _ _
  postfixed _ h := (hR.postfixOp _ h).bind fun _ _ ↦ .conclude .eq hrecord _ _

/-- **Evaluation follows itself**, over any source that answers the same. -/
theorem Coupling.evaluate [Chance ρ] [Chance σ] {C : ρ → σ → Prop}
    {R : Table ρ → Table σ → Prop} {excused : RollError → Prop} (hR : Coupling Eq C R)
    (hlocals : ∀ t u, R t u → u.locals = t.locals)
    (hrecord : ∀ step t u, R t u →
      R { t with trace := t.trace.push step } { u with trace := u.trace.push step })
    (rules : Rules) (depth : Nat) (frames : List (List Expression)) (e : Expression) :
    Follows R excused Eq (e.evaluate rules depth frames : Play ρ Value)
      fun _ ↦ (e.evaluate rules depth frames : Play σ Value) :=
  (hR.correspondence hlocals hrecord rules).evaluate depth (fun _ _ _ _ _ _ ↦ trivial)
    fun _ _ ↦ trivial

end DiceNotation.Play
