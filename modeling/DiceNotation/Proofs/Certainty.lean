import DiceNotation.Chance.Generator
import DiceNotation.Chance.Script
import DiceNotation.Proofs.Correspondence
import DiceNotation.Session

/-!
# Evaluations that leave nothing to chance

An evaluation that comes to no random operator and to no built-in die draws nothing, and so the
operation limit, which is a limit for draws, never comes into play. Its outcome and what it leaves
in the store are the same whatever the source of chance and the limit are.

That no operator is random has to be known of the variables and the saved functions too, and to
remain so. Only random operators set variables, so all the variables are what they were.
-/

namespace DiceNotation

/-- Whether the expression makes random choices by itself, by its operator or by naming a built-in
die. -/
def Expression.isRandom : Expression → Bool
  | .reference name => (builtIn? name).isSome
  | .call name _ => (builtIn? name).isSome
  | .prefixed op _ => op.isRandom
  | .binary _ op _ => op.isRandom
  | .postfixed _ op => op.isRandom
  | _ => false

/-- Nothing is left to chance by the expression itself. -/
def Expression.IsCertain (e : Expression) : Prop := e.isRandom = false

namespace Expression.IsCertain

instance (e : Expression) : Decidable e.IsCertain :=
  inferInstanceAs (Decidable (e.isRandom = false))

theorem builtIn?_eq_none {e : Expression} {name : String} (h : e.IsCertain)
    (hname : e.name? = some name) : builtIn? name = none := by
  cases e with
  | reference other =>
    cases hname
    exact Option.isSome_eq_false_iff.mp h |> Option.isNone_iff_eq_none.mp
  | call other arguments =>
    cases hname
    exact Option.isSome_eq_false_iff.mp h |> Option.isNone_iff_eq_none.mp
  | _ => cases hname

theorem not_postfixed (operand : Expression) (op : PostfixOp) :
    ¬(Expression.postfixed operand op).IsCertain := by
  cases op
  exact Bool.noConfusion

end Expression.IsCertain

variable {ρ σ : Type}

/-- Tables with the variables of `b` that differ only in their sources, which are `c` and `d`. -/
structure Table.Parallel (b : Bindings Expression) (c : ρ) (d : σ) (t : Table ρ) (u : Table σ) :
    Prop where
  chance : t.chance = c
  locals : t.locals = b
  eq : u = ⟨d, b, t.trace⟩

namespace Table.Parallel

variable {saved b : Bindings Expression} {c : ρ} {d : σ}

theorem record (step : Trace.Step) (t : Table ρ) (u : Table σ) (h : Parallel b c d t u) :
    Parallel b c d { t with trace := t.trace.push step } { u with trace := u.trace.push step } :=
  ⟨h.chance, h.locals, by rw [h.eq]⟩

theorem resolve (hsaved : saved.Everywhere Expression.IsCertain)
    (hb : b.Everywhere Expression.IsCertain) {name : String} (hname : builtIn? name = none)
    {limit limit' : Nat} :
    Play.Follows (Parallel b c d) (fun _ ↦ False)
      (fun body body' ↦ body = body' ∧ body.Everywhere Expression.IsCertain)
      (Play.resolve ⟨limit, saved⟩ name) fun _ ↦ Play.resolve ⟨limit', saved⟩ name := by
  refine Play.follows_iff.mpr fun t u htu ↦ ?_
  rw [Play.run_resolve, Play.run_resolve, htu.locals, htu.eq]
  refine ⟨?_, htu.chance, htu.locals, rfl⟩
  dsimp only
  cases hx : Store.resolve saved b name with
  | error e => exact .error e
  | ok body =>
    have hbuiltIn : ∀ e, builtIn? name = some e → e.Everywhere Expression.IsCertain := by
      rw [hname]
      rintro e ⟨⟩
    exact .ok ⟨rfl, Store.everywhere_of_resolve hsaved hb hbuiltIn hx⟩

variable [Chance ρ] [Chance σ]

/-- Evaluation keeps tables parallel under any limits if it leaves nothing to chance. -/
theorem correspondence (hsaved : saved.Everywhere Expression.IsCertain)
    (hb : b.Everywhere Expression.IsCertain) (limit limit' : Nat) :
    Play.Correspondence Expression.IsCertain ⟨limit, saved⟩ ⟨limit', saved⟩ (Parallel b c d)
      (fun _ ↦ False) Eq where
  literal _ := rfl
  list := Play.Likeness.eq.list
  text _ := rfl
  resolve he hname _ := resolve hsaved hb (he.builtIn?_eq_none hname)
  prefixed hop h := (Play.Likeness.eq.prefixOp hop _ _ h).bind fun _ _ ↦ .conclude .eq record _ _
  binary hop h h' :=
    (Play.Likeness.eq.binaryOp hop _ _ h h').bind fun _ _ ↦ .conclude .eq record _ _
  postfixed hop _ := absurd hop (Expression.IsCertain.not_postfixed _ _)

end Table.Parallel

namespace Session

variable [Chance ρ] [Chance σ]

/-- **What leaves nothing to chance is certain.** If no random operator and no built-in die stands
anywhere in an expression and in the store, the expression has the same outcome in every session
with this store and leaves the same store, whatever the sources of chance and the limits are, and
the sources are as they were. -/
theorem evaluateExpression_of_certain {s : Session ρ} {s' : Session σ} {e : Expression}
    (hstore : s'.store = s.store) (hs : s.store.Everywhere Expression.IsCertain)
    (he : e.Everywhere Expression.IsCertain) :
    (s'.evaluateExpression e).1 = (s.evaluateExpression e).1 ∧
      (s'.evaluateExpression e).2.store = (s.evaluateExpression e).2.store ∧
      (s.evaluateExpression e).2.chance = s.chance ∧
      (s'.evaluateExpression e).2.chance = s'.chance := by
  have hfollows := (Table.Parallel.correspondence (c := s.chance) (d := s'.chance) hs.saved
    hs.locals s.limit s'.limit).evaluate 0 hs.frames he
  obtain ⟨hmatches, hchance, hlocals, htable⟩ := Play.follows_iff.mp hfollows
    ⟨s.chance, s.store.locals, .empty⟩ ⟨s'.chance, s.store.locals, .empty⟩ ⟨rfl, rfl, rfl⟩
  rw [evaluateExpression, evaluateExpression, hstore]
  generalize (e.evaluate ⟨s.limit, s.store.saved⟩ 0 s.store.frames).run.run
    ⟨s.chance, s.store.locals, .empty⟩ = run at hmatches hchance hlocals htable
  generalize (e.evaluate ⟨s'.limit, s.store.saved⟩ 0 s.store.frames).run.run
    ⟨s'.chance, s.store.locals, .empty⟩ = run' at hmatches htable
  obtain ⟨outcome, c, b, trace⟩ := run
  obtain ⟨outcome', t'⟩ := run'
  dsimp only at hmatches hchance hlocals htable
  obtain rfl := hmatches.eq
  subst hlocals htable
  rcases outcome with error | v
  · exact ⟨rfl, rfl, hchance, rfl⟩
  · exact ⟨rfl, rfl, hchance, rfl⟩

/-- A store with a function, a variable and an open call: `{double}` doubles its argument. -/
def doubling : Store where
  saved := Bindings.empty.insert "double"
    (.binary (.reference "1") .multiply (.literal (.ofNat 2)))
  locals := Bindings.empty.insert "x" (.prefixed .total (.list [.literal (.ofNat 3)]))
  frames := [[.reference "x"]]

/-- Doubling the argument of the open call, once with a script and once with a generator that may
not be used at all. -/
theorem evaluateExpression_of_certain_doubling :
    let s : Session Script := ⟨.ofFaces [1], 1000, doubling⟩
    let s' : Session Generator := ⟨⟨7⟩, 0, doubling⟩
    let e : Expression := .call "double" [.reference "1"]
    s'.store = s.store ∧ s.store.Everywhere Expression.IsCertain ∧
      e.Everywhere Expression.IsCertain ∧
      (s'.evaluateExpression e).1 = (s.evaluateExpression e).1 ∧
        (s'.evaluateExpression e).2.store = (s.evaluateExpression e).2.store ∧
        (s.evaluateExpression e).2.chance = s.chance ∧
        (s'.evaluateExpression e).2.chance = s'.chance := by
  intro s s' e
  have hparameter : (Expression.reference "1").Everywhere Expression.IsCertain :=
    .of_children_eq_nil (by decide) rfl
  have hnumber : ∀ n, (Expression.literal (.ofNat n)).Everywhere Expression.IsCertain :=
    fun n ↦ .of_children_eq_nil rfl rfl
  have hdouble : (Expression.binary (.reference "1") .multiply (.literal (.ofNat 2))).Everywhere
      Expression.IsCertain :=
    Expression.everywhere_iff.mpr ⟨rfl, List.forall_mem_cons.mpr
      ⟨hparameter, List.forall_mem_singleton.mpr (hnumber 2)⟩⟩
  have hlist : (Expression.list [.literal (.ofNat 3)]).Everywhere Expression.IsCertain :=
    Expression.everywhere_iff.mpr ⟨rfl, List.forall_mem_singleton.mpr (hnumber 3)⟩
  have htotal : (Expression.prefixed .total (.list [.literal (.ofNat 3)])).Everywhere
      Expression.IsCertain :=
    Expression.everywhere_iff.mpr ⟨rfl, List.forall_mem_singleton.mpr hlist⟩
  have hargument : (Expression.reference "x").Everywhere Expression.IsCertain :=
    .of_children_eq_nil (by decide) rfl
  have hs : s.store.Everywhere Expression.IsCertain :=
    ⟨.insert .empty hdouble _, .insert .empty htotal _,
      List.forall_mem_singleton.mpr (List.forall_mem_singleton.mpr hargument)⟩
  have he : e.Everywhere Expression.IsCertain :=
    Expression.everywhere_iff.mpr ⟨by decide, List.forall_mem_singleton.mpr hparameter⟩
  exact ⟨rfl, hs, he, evaluateExpression_of_certain rfl hs he⟩

end Session

end DiceNotation
