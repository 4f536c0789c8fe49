import DiceNotation.Chance.Script
import DiceNotation.Proofs.Lockstep
import DiceNotation.Proofs.SingleOperations

/-!
# Calls by substitution

A call evaluates the body of a function with its arguments waiting, unevaluated, in a frame. It
could as well have evaluated the body with the arguments written in place of the parameters. This
is so for bodies that refer to nothing but their parameters (`Parametric`): what another name
stands for would be evaluated inside the call as well, and its parameters are not written in the
body. And a parameter must not be what a die is rolled for until a number is met, because there an
argument that is a die would no longer be rolled, but taken for the die.

The two evaluations do not have the same calls open. When the body calls another function, one has
the frame of that function above the frame of the call and the other above what was there before,
and the arguments in it are different: those of the second have been substituted into. `Replaces`
says which places correspond, and that relation is kept by every step of the evaluation.
-/

namespace DiceNotation

namespace Expression

/-! ## Substitution

A parameter is replaced by the argument that it stands for. The left operand of a roll is the same
whether it is substituted into before or after it is chosen. -/

mutual

/-- The expression with the arguments in place of its parameters. Parameters without an argument
are kept. -/
def substituted (arguments : List Expression) : Expression → Expression
  | .literal x => .literal x
  | .list items => .list (allSubstituted arguments items)
  | .text s => .text s
  | .reference name =>
    match parameter? name with
    | some i => arguments[i - 1]?.getD (.reference name)
    | none => .reference name
  | .call name items => .call name (allSubstituted arguments items)
  | .prefixed op operand => .prefixed op (substituted arguments operand)
  | .binary left op right =>
    .binary (substituted arguments left) op (substituted arguments right)
  | .postfixed operand op => .postfixed (substituted arguments operand) op

/-- The expressions with the arguments in place of their parameters. -/
def allSubstituted (arguments : List Expression) : List Expression → List Expression
  | [] => []
  | e :: rest => substituted arguments e :: allSubstituted arguments rest

end

/-- An expression that refers to nothing but parameters, none of which it rolls until a number is
met. The functions that it calls may be any. -/
inductive Parametric : Expression → Prop
  | literal (x : Number) : Parametric (.literal x)
  | list {items : List Expression} (h : ∀ e ∈ items, Parametric e) : Parametric (.list items)
  | text (s : String) : Parametric (.text s)
  | parameter {name : String} {i : Nat} (h : parameter? name = some i) :
      Parametric (.reference name)
  | call (name : String) {arguments : List Expression} (h : ∀ e ∈ arguments, Parametric e) :
      Parametric (.call name arguments)
  | prefixed (op : PrefixOp) {operand : Expression} (h : Parametric operand) :
      Parametric (.prefixed op operand)
  | binary (op : BinaryOp) {left right : Expression}
      (hop : ∀ cmp name, op = .rollUntil cmp → left ≠ .reference name)
      (hl : Parametric left) (hr : Parametric right) : Parametric (.binary left op right)
  | postfixed (op : PostfixOp) {operand : Expression} (h : Parametric operand) :
      Parametric (.postfixed operand op)

theorem allSubstituted_eq_map (arguments es : List Expression) :
    allSubstituted arguments es = es.map (substituted arguments) :=
  Value.eq_map_of_cons rfl (fun _ _ ↦ rfl) es

theorem substituted_list (arguments items : List Expression) :
    substituted arguments (.list items) = .list (items.map (substituted arguments)) := by
  rw [substituted, allSubstituted_eq_map]

theorem substituted_call (arguments : List Expression) (name : String)
    (items : List Expression) :
    substituted arguments (.call name items) = .call name (items.map (substituted arguments)) := by
  rw [substituted, allSubstituted_eq_map]

theorem substituted_parameter {arguments : List Expression} {name : String} {i : Nat}
    {e : Expression} (hname : parameter? name = some i) (h : arguments[i - 1]? = some e) :
    substituted arguments (.reference name) = e := by
  rw [substituted, hname]
  dsimp only
  rw [h, Option.getD_some]

theorem leftOperand_substituted (arguments : List Expression) (op : BinaryOp) {left : Expression}
    (hop : ∀ cmp name, op = .rollUntil cmp → left ≠ .reference name) :
    op.leftOperand (substituted arguments left) = substituted arguments (op.leftOperand left) := by
  cases op with
  | rollUntil cmp =>
    cases left with
    | reference name => exact absurd rfl (hop cmp name rfl)
    | prefixed op operand => cases op <;> rw [substituted] <;> rfl
    | _ => simp [BinaryOp.leftOperand, substituted]
  | _ => rfl

theorem Parametric.leftOperand {op : BinaryOp} {left : Expression} (h : Parametric left) :
    Parametric (op.leftOperand left) := by
  rw [BinaryOp.leftOperand.eq_def]
  split
  · cases h with
    | prefixed op h => exact h
  · exact h

/-! ## Corresponding places

A name that is no parameter is not replaced, and neither is what it stands for. A parameter either
has been replaced by its argument or stands for one that corresponds to it. -/

/-- What stands inside the calls `frames` corresponds to what stands inside other calls: to itself,
to itself with the arguments of the innermost call substituted, or to itself inside a call whose
arguments correspond to others. -/
inductive Replaces :
    List (List Expression) → Expression → List (List Expression) → Expression → Prop
  | same (frames : List (List Expression)) (e : Expression) : Replaces frames e frames e
  | body (arguments : List Expression) (frames : List (List Expression)) {e : Expression}
      (h : Parametric e) : Replaces (arguments :: frames) e frames (e.substituted arguments)
  | inner {arguments : List Expression} {frames frames' : List (List Expression)}
      (f : Expression → Expression) (e : Expression)
      (h : ∀ a ∈ arguments, Replaces frames a frames' (f a)) :
      Replaces (arguments :: frames) e (arguments.map f :: frames') e

namespace Replaces

variable {frames frames' : List (List Expression)} {e e' : Expression}

/-- Either the expression is the same, and so would any other be there, or the arguments of a call
have been substituted. -/
theorem eq_or_substituted (h : Replaces frames e frames' e') :
    (e' = e ∧ ∀ x, Replaces frames x frames' x) ∨
      ∃ arguments, frames = arguments :: frames' ∧ Parametric e ∧
        e' = e.substituted arguments := by
  cases h with
  | same => exact Or.inl ⟨rfl, .same frames⟩
  | body arguments frames h => exact Or.inr ⟨arguments, rfl, h, rfl⟩
  | inner f e h => exact Or.inl ⟨rfl, fun x ↦ .inner f x h⟩

theorem literal {x : Number} (h : Replaces frames (.literal x) frames' e') : e' = .literal x := by
  obtain ⟨rfl, -⟩ | ⟨arguments, -, -, rfl⟩ := h.eq_or_substituted
  · rfl
  · rw [substituted]

theorem text {s : String} (h : Replaces frames (.text s) frames' e') : e' = .text s := by
  obtain ⟨rfl, -⟩ | ⟨arguments, -, -, rfl⟩ := h.eq_or_substituted
  · rfl
  · rw [substituted]

theorem list {items : List Expression} (h : Replaces frames (.list items) frames' e') :
    ∃ f : Expression → Expression, e' = .list (items.map f) ∧
      ∀ e ∈ items, Replaces frames e frames' (f e) := by
  obtain ⟨rfl, hall⟩ | ⟨arguments, rfl, hp, rfl⟩ := h.eq_or_substituted
  · exact ⟨id, by rw [List.map_id], fun e _ ↦ hall e⟩
  · cases hp with
    | list hp =>
      exact ⟨substituted arguments, substituted_list _ _, fun e he ↦ .body _ _ (hp e he)⟩

theorem call {name : String} {items : List Expression}
    (h : Replaces frames (.call name items) frames' e') :
    ∃ f : Expression → Expression, e' = .call name (items.map f) ∧
      ∀ e ∈ items, Replaces frames e frames' (f e) := by
  obtain ⟨rfl, hall⟩ | ⟨arguments, rfl, hp, rfl⟩ := h.eq_or_substituted
  · exact ⟨id, by rw [List.map_id], fun e _ ↦ hall e⟩
  · cases hp with
    | call name hp =>
      exact ⟨substituted arguments, substituted_call _ _ _, fun e he ↦ .body _ _ (hp e he)⟩

theorem prefixed {op : PrefixOp} {operand : Expression}
    (h : Replaces frames (.prefixed op operand) frames' e') :
    ∃ operand', e' = .prefixed op operand' ∧ Replaces frames operand frames' operand' := by
  obtain ⟨rfl, hall⟩ | ⟨arguments, rfl, hp, rfl⟩ := h.eq_or_substituted
  · exact ⟨operand, rfl, hall operand⟩
  · cases hp with
    | prefixed op hp => exact ⟨_, by rw [substituted], .body _ _ hp⟩

theorem postfixed {op : PostfixOp} {operand : Expression}
    (h : Replaces frames (.postfixed operand op) frames' e') :
    ∃ operand', e' = .postfixed operand' op ∧ Replaces frames operand frames' operand' := by
  obtain ⟨rfl, hall⟩ | ⟨arguments, rfl, hp, rfl⟩ := h.eq_or_substituted
  · exact ⟨operand, rfl, hall operand⟩
  · cases hp with
    | postfixed op hp => exact ⟨_, by rw [substituted], .body _ _ hp⟩

theorem binary {op : BinaryOp} {left right : Expression}
    (h : Replaces frames (.binary left op right) frames' e') :
    ∃ left' right', e' = .binary left' op right' ∧
      Replaces frames (op.leftOperand left) frames' (op.leftOperand left') ∧
      Replaces frames right frames' right' := by
  obtain ⟨rfl, hall⟩ | ⟨arguments, rfl, hp, rfl⟩ := h.eq_or_substituted
  · exact ⟨left, right, rfl, hall _, hall right⟩
  · cases hp with
    | binary op hop hl hr =>
      refine ⟨_, _, by rw [substituted], ?_, .body _ _ hr⟩
      -- An argument that is a die must not become the die that is rolled until a number is met.
      rw [leftOperand_substituted arguments op hop]
      exact .body _ _ hl.leftOperand

theorem reference {name : String} (hname : parameter? name = none)
    (h : Replaces frames (.reference name) frames' e') :
    e' = .reference name ∧ ∀ body, Replaces frames body frames' body := by
  obtain ⟨rfl, hall⟩ | ⟨arguments, rfl, hp, rfl⟩ := h.eq_or_substituted
  · exact ⟨rfl, hall⟩
  · cases hp with
    | parameter h =>
      rw [hname] at h
      cases h

theorem parameter {name : String} {i : Nat} {e : Expression} {outer : List (List Expression)}
    (hname : parameter? name = some i) (hx : Store.argument frames i = .ok (e, outer))
    (h : Replaces frames (.reference name) frames' e') :
    (e' = e ∧ frames' = outer) ∨
      e' = .reference name ∧ ∃ a outer', Store.argument frames' i = .ok (a, outer') ∧
        Replaces outer e outer' a := by
  obtain ⟨frame, rfl, hi, he⟩ := Store.argument_eq_ok_iff.mp hx
  cases h with
  | same => exact Or.inr ⟨rfl, e, outer, hx, .same outer e⟩
  | body arguments frames h => exact Or.inl ⟨substituted_parameter hname he, rfl⟩
  | @inner _ _ outer' f _ h =>
    refine Or.inr ⟨rfl, f e, outer', ?_, h e (List.mem_of_getElem? he)⟩
    refine Store.argument_eq_ok_iff.mpr ⟨_, rfl, hi, ?_⟩
    rw [List.getElem?_map, he, Option.map_some]

end Replaces

/-! ## Evaluation at corresponding places -/

open Play

variable {ρ : Type}

/-- Tables with equal sources of chance and equal variables, whatever has been recorded. -/
structure SameState (t u : Table ρ) : Prop where
  chance : u.chance = t.chance
  locals : u.locals = t.locals

theorem SameState.coupling [Chance ρ] : Coupling Eq Eq (SameState (ρ := ρ)) where
  likeness := .eq
  alike := .eq
  chance h := h.chance.symm
  withChance h hcd := ⟨hcd.symm, h.locals⟩
  insert := by
    rintro t u name v _ rfl - h
    exact ⟨h.chance, congrArg (Bindings.insert · _ _) h.locals⟩
  erase _ h := ⟨h.chance, congrArg (Bindings.erase · _) h.locals⟩

/-- Operations that are written differently end with the same value. -/
theorem SameState.conclude (priority : Priority) (code code' : String) (v : Value) :
    Follows (SameState (ρ := ρ)) (fun _ ↦ True) Eq (conclude priority code v)
      fun _ ↦ conclude priority code' v := by
  by_cases h : v.isFinite = true
  · intro t u htu
    obtain ⟨trace, ht⟩ := run_conclude h priority code t
    obtain ⟨trace', hu⟩ := run_conclude h priority code' u
    rw [ht]
    exact Or.inr ⟨_, { u with trace := trace' }, .ok rfl, ⟨htu.chance, htu.locals⟩, 0, fun _ _ ↦ hu⟩
  · rw [Play.conclude, if_pos (by simpa using h)]
    exact .of_excused trivial _

/-- **Evaluation at corresponding places.** Where evaluation succeeds, so does evaluation at a place
that corresponds and is not deeper, with the same value, the same draws and the same variables. -/
theorem Replaces.follows [Chance ρ] (rules : Rules) {depth depth' : Nat}
    {frames frames' : List (List Expression)} {e e' : Expression} (hd : depth' ≤ depth)
    (h : Replaces frames e frames' e') :
    Follows SameState (fun _ ↦ True) Eq (e.evaluate rules depth frames : Play ρ Value)
      fun _ ↦ (e'.evaluate rules depth' frames' : Play ρ Value) := by
  induction depth, frames, e using evaluation_induction generalizing depth' frames' e' with
  | layer depth frames e hpart hargument hnested =>
    have hresolve : ∀ name, Follows (SameState (ρ := ρ)) (fun _ ↦ True) Eq (resolve rules name)
        fun _ ↦ resolve rules name := .resolve_eq (fun _ _ h ↦ h.locals) rules
    -- What a name stands for is evaluated at most as deep as before the substitution.
    have hbody : ∀ arguments arguments' body,
        Replaces (arguments.toList ++ frames) body (arguments'.toList ++ frames') body →
        Follows SameState (fun _ ↦ True) Eq (evaluateNested rules depth frames arguments body)
          fun _ ↦ (evaluateNested rules depth' frames' arguments' body : Play ρ Value) := by
      intro arguments arguments' body h
      unfold evaluateNested
      by_cases hlt : depth < deepest
      · simp only [if_pos hlt, if_pos (Nat.lt_of_le_of_lt hd hlt)]
        exact hnested hlt _ body (Nat.succ_le_succ hd) h
      · rw [if_neg hlt]
        exact .of_excused trivial _
    cases e with
    | literal x =>
      obtain rfl := h.literal
      simp only [evaluate_literal]
      exact .pure rfl
    | list items =>
      obtain ⟨f, rfl, hitems⟩ := h.list
      simp only [evaluate_list, List.mapM_map]
      exact (Follows.mapM_eq fun e he ↦ hpart e he hd (hitems e he)).bind_eq fun _ ↦ .pure rfl
    | text s =>
      obtain rfl := h.text
      simp only [evaluate_text]
      exact .pure rfl
    | reference name =>
      cases hname : parameter? name with
      | none =>
        obtain ⟨rfl, hsame⟩ := h.reference hname
        simp only [evaluate_reference rules _ _ hname]
        exact (hresolve name).bind_eq fun body ↦ hbody none none body (hsame body)
      | some i =>
        rw [evaluate_parameter rules depth frames hname, evaluateArgument]
        cases hx : Store.argument frames i with
        | error e => exact .of_excused trivial _
        | ok x =>
          -- Where the argument has been written down, it stands outside of the call already.
          obtain ⟨rfl, rfl⟩ | ⟨rfl, a, outer', hx', ha⟩ := h.parameter hname hx
          · exact hargument i _ _ hx hd (.same _ _)
          · simp only [evaluate_parameter rules depth' frames' hname, evaluateArgument, hx']
            exact hargument i _ _ hx hd ha
    | call name arguments =>
      obtain ⟨f, rfl, harguments⟩ := h.call
      cases hname : parameter? name with
      | none =>
        simp only [evaluate_call rules _ _ hname]
        exact (hresolve name).bind_eq fun body ↦
          hbody (some arguments) (some (arguments.map f)) body (.inner f body harguments)
      | some i =>
        rw [evaluate_call_parameter rules depth frames hname]
        exact .of_excused trivial _
    | prefixed op operand =>
      obtain ⟨operand', rfl, hoperand⟩ := h.prefixed
      simp only [evaluate_prefixed]
      have hoperand := hpart operand List.mem_cons_self hd hoperand
      exact (SameState.coupling.prefixOp op hoperand).bind_eq fun _ ↦ SameState.conclude _ _ _ _
    | binary left op right =>
      obtain ⟨left', right', rfl, hleft, hright⟩ := h.binary
      simp only [evaluate_binary]
      have hleft := hpart _ List.mem_cons_self hd hleft
      have hright := hpart _ (List.mem_cons_of_mem _ List.mem_cons_self) hd hright
      exact (SameState.coupling.binaryOp op hleft hright).bind_eq fun _ ↦ SameState.conclude _ _ _ _
    | postfixed operand op =>
      obtain ⟨operand', rfl, hoperand⟩ := h.postfixed
      simp only [evaluate_postfixed]
      have hoperand := hpart operand List.mem_cons_self hd hoperand
      exact (SameState.coupling.postfixOp op hoperand).bind_eq fun _ ↦ SameState.conclude _ _ _ _

/-! ## Calls -/

/-- **Calls by substitution.** Where a call of a function with a parametric body succeeds, at any
depth and inside any calls, evaluation of the body with the arguments substituted succeeds as well,
with the same value, the same draws and the same variables. -/
theorem evaluate_substituted [Chance ρ] (rules : Rules) (depth : Nat)
    (frames : List (List Expression)) {name : String} {arguments : List Expression}
    {body : Expression} (hB : Parametric body) {t t' : Table ρ} {v : Value}
    (hbody : Store.resolve rules.saved t.locals name = .ok body)
    (h : ((call name arguments).evaluate rules depth frames).run.run t = (.ok v, t')) :
    ∃ u', ((body.substituted arguments).evaluate rules depth frames).run.run t = (.ok v, u') ∧
      u'.chance = t'.chance ∧ u'.locals = t'.locals := by
  cases hname : parameter? name with
  | some i =>
    rw [evaluate_call_parameter rules depth frames hname, run_misuse] at h
    cases h
  | none =>
    rw [evaluate_call rules depth frames hname, run_bind, run_resolve, hbody] at h
    dsimp only at h
    rw [evaluateNested, Option.toList_some, List.singleton_append] at h
    by_cases hlt : depth < deepest
    · rw [if_pos hlt] at h
      obtain ⟨error, herror, -⟩ | ⟨outcome, u', hmatches, hu', n, hn⟩ :=
        (Replaces.body arguments frames hB).follows rules (Nat.le_succ depth) t t ⟨rfl, rfl⟩
      · rw [h] at herror
        cases herror
      · obtain rfl := hmatches.eq
        rw [h] at hu'
        refine ⟨u', ?_, hu'.chance, hu'.locals⟩
        rw [hn n (Nat.le_refl n), h]
    · rw [if_neg hlt, run_misuse] at h
      cases h

/-- The shuffled first parameter and the second, handed to `swap`. -/
def mix : Expression := .call "swap" [.postfixed (.reference "1") .shuffle, .reference "2"]

theorem parametric_mix : Parametric mix := by
  refine .call _ ?_
  rintro e (_ | ⟨_, _ | ⟨_, ⟨⟩⟩⟩)
  · exact .postfixed _ (.parameter (i := 1) (by decide))
  · exact .parameter (i := 2) (by decide)

/-- Rules with `mix` and the function that it calls. -/
def mixRules : Rules :=
  ⟨1000, ⟨[("mix", mix), ("swap", .list [.reference "2", .reference "1"])]⟩⟩

/-- A list, and a parameter of the call around. -/
def mixArguments : List Expression := [.list [.text "a", .text "b"], .reference "1"]

theorem exists_run_mix :
    ∃ v t', ((call "mix" mixArguments).evaluate mixRules 3 [[.text "c"]]).run.run
      (⟨.ofFaces [3], .empty, .empty⟩ : Table Script) = (.ok v, t') := by
  have hmix : parameter? "mix" = none := by decide
  have hswap : parameter? "swap" = none := by decide
  have hone : parameter? "1" = some 1 := by decide
  have htwo : parameter? "2" = some 2 := by decide
  have hbody : Store.resolve mixRules.saved .empty "mix" = .ok mix := rfl
  have hbody' : Store.resolve mixRules.saved .empty "swap"
      = .ok (.list [.reference "2", .reference "1"]) := rfl
  have hok : (((call "mix" mixArguments).evaluate mixRules 3 [[.text "c"]]).run.run
      (⟨.ofFaces [3], .empty, .empty⟩ : Table Script)).1.toBool = true := by
    rw [evaluate_call _ _ _ hmix, run_bind, run_resolve, hbody]
    dsimp only
    rw [evaluateNested, if_pos (by decide), mix, evaluate_call _ _ _ hswap, run_bind, run_resolve,
      hbody']
    dsimp only
    -- What is left after the equations are applied has no recursion in it any more.
    simp only [evaluateNested, if_pos (by decide : 4 < deepest), evaluate_list, evaluate_text,
      evaluate_postfixed, evaluate_parameter _ _ _ hone, evaluate_parameter _ _ _ htwo,
      evaluateArgument, Store.argument, mixArguments, liftExcept_ok_bind, Option.toList_some,
      List.singleton_append, List.mapM_cons, List.mapM_nil, List.getElem?_cons_zero,
      List.getElem?_cons_succ, Nat.reduceAdd]
    decide +kernel
  rcases hrun : ((call "mix" mixArguments).evaluate mixRules 3 [[.text "c"]]).run.run
    (⟨.ofFaces [3], .empty, .empty⟩ : Table Script) with ⟨error | v, t'⟩
  · rw [hrun] at hok
    cases hok
  · exact ⟨v, t', rfl⟩

theorem evaluate_substituted_mix :
    ∃ v t', ((call "mix" mixArguments).evaluate mixRules 3 [[.text "c"]]).run.run
        (⟨.ofFaces [3], .empty, .empty⟩ : Table Script) = (.ok v, t') ∧
      ∃ u', ((mix.substituted mixArguments).evaluate mixRules 3 [[.text "c"]]).run.run
          ⟨.ofFaces [3], .empty, .empty⟩ = (.ok v, u') ∧
        u'.chance = t'.chance ∧ u'.locals = t'.locals := by
  obtain ⟨v, t', h⟩ := exists_run_mix
  exact ⟨v, t', h, evaluate_substituted mixRules 3 [[.text "c"]] parametric_mix rfl h⟩

end Expression

end DiceNotation
