import DiceNotation.Proofs.Correspondence

/-!
# Evaluation on a call stack

`Expression.evaluate` is told where an expression stands: its depth and the calls that are open
around it. Here the place is kept in variables instead, which an evaluation changes on its way in
and changes back on its way out: a call pushes a frame and pops it, and a parameter pops the frame
of the call it belongs to while its argument is evaluated and pushes it again. Nothing is known
beforehand about how far this goes down, so `execute` is given a number of rounds, and fails when
it is not enough.

Some number of rounds is always enough. Evaluation on the stack then does what `evaluate` does, it
leaves the stack as it was even when it fails, and on the way it goes no deeper than `deepest` and
opens no more calls than it goes down. The measure behind this is the one of
`evaluation_induction`; that an evaluation gives the stack back is what keeps it together, since
what comes after an operand is evaluated on the stack that the operand has left.
-/

namespace DiceNotation

variable {ρ : Type}

/-- A place that an evaluation comes to: its depth, and how many calls are open there. -/
structure Place where
  depth : Nat
  calls : Nat
deriving DecidableEq

/-- A place that an evaluation may come to if it starts at depth zero with `base` open calls. -/
def Place.Within (base : Nat) (p : Place) : Prop := p.depth ≤ deepest ∧ p.calls ≤ base + p.depth

/-- A source of chance together with the variables that say where an evaluation is, and the places
that it has come to, the latest first. -/
structure Stacked (ρ : Type) where
  chance : ρ
  frames : List (List Expression)
  depth : Nat
  visited : List Place

namespace Stacked

/-- Makes a random choice with the source. -/
def choose {α : Type} (choice : StateM ρ α) : StateM (Stacked ρ) α := fun s ↦
  let (a, chance) := choice.run s.chance
  (a, { s with chance })

instance [Chance ρ] : Chance (Stacked ρ) where
  below bound := choose (Chance.below bound)
  fraction := choose Chance.fraction
  shuffle items := choose (Chance.shuffle items)
  shuffle_map f items := by
    rw [Chance.shuffle_map]
    rfl

/-- Notes the place. -/
def noted (s : Stacked ρ) : Stacked ρ :=
  { s with visited := ⟨s.depth, s.frames.length⟩ :: s.visited }

/-- Pushes a frame, if there is one. -/
def push (frame : Option (List Expression)) (s : Stacked ρ) : Stacked ρ :=
  { s with frames := frame.toList ++ s.frames }

/-- Pops a frame. -/
def pop (s : Stacked ρ) : Stacked ρ := { s with frames := s.frames.tail }

/-- Goes to what a name stands for, with the arguments of the call if it is one. -/
def descend (arguments : Option (List Expression)) (s : Stacked ρ) : Stacked ρ :=
  { s.push arguments with depth := s.depth + 1 }

/-- Comes back from what a name stands for. -/
def ascend (arguments : Option (List Expression)) (s : Stacked ρ) : Stacked ρ :=
  let s := { s with depth := s.depth - 1 }
  if arguments.isSome then s.pop else s

end Stacked

/-! ## The evaluator -/

namespace Play

variable {α : Type}

/-- The open calls and the depth. -/
def place : Play (Stacked ρ) (List (List Expression) × Nat) := do
  let t ← get
  return (t.chance.frames, t.chance.depth)

/-- Notes the place. -/
def note : Play (Stacked ρ) Unit := modify fun t ↦ { t with chance := t.chance.noted }

/-- Plays at another place. The way back is gone even if the play fails. -/
def between (enter leave : Stacked ρ → Stacked ρ) (p : Play (Stacked ρ) α) :
    Play (Stacked ρ) α :=
  ExceptT.mk do
    modify fun t ↦ { t with chance := enter t.chance }
    let outcome ← p.run
    modify fun t ↦ { t with chance := leave t.chance }
    return outcome

/-- Evaluates what a name stands for, in a new frame if it is called with arguments. -/
def nested (arguments : Option (List Expression)) (p : Play (Stacked ρ) α) :
    Play (Stacked ρ) α := do
  let (_, depth) ← place
  if depth ≥ deepest then misuse .nestedTooDeep
  else between (Stacked.descend arguments) (Stacked.ascend arguments) p

/-- Evaluates an argument of the innermost call where the call stands. -/
def argument (i : Nat) (evaluate : Expression → Play (Stacked ρ) α) : Play (Stacked ρ) α := do
  let (frames, _) ← place
  let (e, _) ← liftExcept (Store.argument frames i)
  between Stacked.pop (Stacked.push frames.head?) (evaluate e)

end Play

namespace Expression

variable [Chance ρ]

/-- One round of evaluation. What is evaluated for an expression is left to `next`: its parts where
it stands, an argument outside of the innermost call, and what a name stands for one level
deeper. -/
def round (rules : Rules) (next : Expression → Play (Stacked ρ) Value) (e : Expression) :
    Play (Stacked ρ) Value := do
  Play.note
  e.layer rules next (fun i ↦ Play.argument i next)
    fun arguments body ↦ Play.nested arguments (next body)

/-- Evaluates an expression on the stack in so many rounds. -/
def execute (rules : Rules) : (rounds : Nat) → Expression → Play (Stacked ρ) Value
  | 0, _ => throw (.internal "out of rounds")
  | rounds + 1, e => round rules (execute rules rounds) e

end Expression

/-! ## Where an evaluation stands

A stack stands at a place if it holds what the place says, and operators do not touch it. -/

/-- The stack stands at depth `depth` inside the calls `frames`, and only places that an
evaluation may come to from `base` open calls have been visited. -/
structure Stacked.At (base depth : Nat) (frames : List (List Expression)) (c : ρ)
    (s : Stacked ρ) : Prop where
  chance : s.chance = c
  frames : s.frames = frames
  depth : s.depth = depth
  visited : ∀ p ∈ s.visited, p.Within base

/-- Tables that differ only in the stack, which stands where it should. -/
structure Table.At (base depth : Nat) (frames : List (List Expression)) (t : Table ρ)
    (u : Table (Stacked ρ)) : Prop where
  stack : Stacked.At base depth frames t.chance u.chance
  locals : u.locals = t.locals
  trace : u.trace = t.trace

/-- The table with a stack beside the source of chance. -/
def Table.stacked (t : Table ρ) (frames : List (List Expression)) (depth : Nat)
    (visited : List Place) : Table (Stacked ρ) :=
  { t with chance := ⟨t.chance, frames, depth, visited⟩ }

variable {base depth : Nat} {frames : List (List Expression)}

theorem Table.At.eq_stacked {t : Table ρ} {u : Table (Stacked ρ)}
    (h : Table.At base depth frames t u) : u = t.stacked frames depth u.chance.visited := by
  obtain ⟨⟨c, fs, d, visited⟩, locals, trace⟩ := u
  obtain ⟨⟨rfl, rfl, rfl, -⟩, rfl, rfl⟩ := h
  rfl

theorem Stacked.At.agree_choose {α : Type} (choice : StateM ρ α) :
    Chance.Agree (Stacked.At base depth frames) Eq choice (Stacked.choose choice) := by
  rintro c s ⟨rfl, hf, hd, hv⟩
  exact ⟨rfl, rfl, hf, hd, hv⟩

theorem Table.At.coupling [Chance ρ] : Play.Coupling (ρ := ρ) Eq (Stacked.At base depth frames)
    (Table.At base depth frames) where
  likeness := .eq
  alike := ⟨fun _ ↦ Stacked.At.agree_choose _, Stacked.At.agree_choose _,
    fun _ ↦ Stacked.At.agree_choose _⟩
  chance h := h.stack
  withChance h hcd := ⟨hcd, h.locals, h.trace⟩
  insert := by
    rintro t u name v _ rfl - h
    exact ⟨h.stack, congrArg (Bindings.insert · _ _) h.locals, h.trace⟩
  erase _ h := ⟨h.stack, congrArg (Bindings.erase · _) h.locals, h.trace⟩

/-! ## Ways in and out

Each way back undoes the way there, whatever happens between them: what a name stands for is
evaluated one level deeper, in a new frame if there is one, and an argument outside of the innermost
call. What follows a play on the stack leaves it as it was. -/

theorem Table.At.descend {arguments : Option (List Expression)} (t : Table ρ)
    (u : Table (Stacked ρ)) (h : Table.At base depth frames t u) :
    Table.At base (depth + 1) (arguments.toList ++ frames) t
      { u with chance := u.chance.descend arguments } := by
  obtain ⟨⟨hc, rfl, rfl, hv⟩, hl, ht⟩ := h
  exact ⟨⟨hc, rfl, rfl, hv⟩, hl, ht⟩

theorem Table.At.ascend {arguments : Option (List Expression)} (t : Table ρ)
    (u : Table (Stacked ρ))
    (h : Table.At base (depth + 1) (arguments.toList ++ frames) t u) :
    Table.At base depth frames t { u with chance := u.chance.ascend arguments } := by
  obtain ⟨⟨hc, hf, hdepth, hv⟩, hl, ht⟩ := h
  cases arguments with
  | none => exact ⟨⟨hc, hf, congrArg (· - 1) hdepth, hv⟩, hl, ht⟩
  | some arguments => exact ⟨⟨hc, congrArg List.tail hf, congrArg (· - 1) hdepth, hv⟩, hl, ht⟩

namespace Play.Follows

variable {R R' : Table ρ → Table (Stacked ρ) → Prop} {excused : RollError → Prop} {α β : Type}
  {V : α → β → Prop} {p : Play ρ α}

theorem between {q : Nat → Play (Stacked ρ) β} {enter leave : Stacked ρ → Stacked ρ}
    (henter : ∀ t u, R t u → R' t { u with chance := enter u.chance })
    (hleave : ∀ t u, R' t u → R t { u with chance := leave u.chance })
    (h : Follows R' excused V p q) : Follows R excused V p fun n ↦ between enter leave (q n) := by
  intro t u htu
  obtain hexcused | ⟨outcome, u', hmatches, htu', n, hn⟩ := h _ _ (henter t u htu)
  · exact Or.inl hexcused
  · refine Or.inr ⟨outcome, _, hmatches, hleave _ _ htu', n, fun m hm ↦ ?_⟩
    have hrun : (Play.between enter leave (q m)).run.run u
        = (((q m).run.run { u with chance := enter u.chance }).1,
            { ((q m).run.run { u with chance := enter u.chance }).2 with
              chance := leave ((q m).run.run { u with chance := enter u.chance }).2.chance }) := rfl
    rw [hrun, hn m hm]

theorem note {q : Nat → Play (Stacked ρ) β}
    (hnote : ∀ t u, R t u → R t { u with chance := u.chance.noted })
    (h : Follows R excused V p q) : Follows R excused V p fun n ↦ Play.note >>= fun _ ↦ q n :=
  fun t u htu ↦ h t _ (hnote t u htu)

theorem place {q : Nat → List (List Expression) × Nat → Play (Stacked ρ) β}
    (h : Follows (Table.At base depth frames) excused V p fun n ↦ q n (frames, depth)) :
    Follows (Table.At base depth frames) excused V p fun n ↦ Play.place >>= q n := by
  intro t u htu
  have hrun : ∀ m, (Play.place >>= q m).run.run u
      = (q m (u.chance.frames, u.chance.depth)).run.run u := fun _ ↦ rfl
  simp only [hrun, htu.stack.frames, htu.stack.depth]
  exact h t u htu

theorem nested {q : Nat → Play (Stacked ρ) β} {arguments : Option (List Expression)}
    (h : depth < deepest →
      Follows (Table.At base (depth + 1) (arguments.toList ++ frames)) excused V p q) :
    Follows (Table.At base depth frames) excused V
      (if depth < deepest then p else Play.misuse .nestedTooDeep)
      fun n ↦ nested arguments (q n) := by
  refine place ?_
  by_cases hd : depth < deepest
  · simp only [if_pos hd, if_neg (Nat.not_le_of_lt hd)]
    exact between Table.At.descend Table.At.ascend (h hd)
  · simp only [if_neg hd, if_pos (Nat.le_of_not_lt hd)]
    exact misuse _

theorem argument {i : Nat} {f : Expression × List (List Expression) → Play ρ α}
    {evaluate : Nat → Expression → Play (Stacked ρ) β}
    (h : ∀ e outer, Store.argument frames i = .ok (e, outer) →
      Follows (Table.At base depth outer) excused V (f (e, outer)) fun n ↦ evaluate n e) :
    Follows (Table.At base depth frames) excused V (liftExcept (Store.argument frames i) >>= f)
      fun n ↦ argument i (evaluate n) := by
  refine place ?_
  dsimp only
  cases hx : Store.argument frames i with
  | error e => exact throw e
  | ok x =>
    obtain ⟨e, outer⟩ := x
    obtain ⟨frame, rfl, -⟩ := Store.argument_eq_ok_iff.mp hx
    refine between ?_ ?_ (h e outer hx)
    · rintro t u ⟨⟨hc, hf, hd, hv⟩, hl, ht⟩
      exact ⟨⟨hc, congrArg List.tail hf, hd, hv⟩, hl, ht⟩
    · rintro t u ⟨⟨hc, hf, hd, hv⟩, hl, ht⟩
      exact ⟨⟨hc, congrArg (frame :: ·) hf, hd, hv⟩, hl, ht⟩

theorem run_stacked {q : Nat → Play (Stacked ρ) α} {visited : List Place}
    (h : Follows (Table.At base depth frames) (fun _ ↦ False) Eq p q)
    (hv : ∀ p ∈ visited, p.Within base) (t : Table ρ) :
    ∃ visited', (∀ p ∈ visited', p.Within base) ∧
      ∃ n, ∀ m ≥ n, (q m).run.run (t.stacked frames depth visited)
        = ((p.run.run t).1, (p.run.run t).2.stacked frames depth visited') := by
  have hstart : Table.At base depth frames t (t.stacked frames depth visited) :=
    ⟨⟨rfl, rfl, rfl, hv⟩, rfl, rfl⟩
  obtain ⟨_, -, h⟩ | ⟨outcome, u, hmatches, hu, hn⟩ := h t _ hstart
  · exact h.elim
  · obtain rfl := hmatches.eq
    exact ⟨u.chance.visited, hu.stack.visited, hu.eq_stacked ▸ hn⟩

theorem of_succ {q : Nat → Play (Stacked ρ) β} (h : Follows R excused V p fun n ↦ q (n + 1)) :
    Follows R excused V p q := by
  intro t u htu
  obtain hexcused | ⟨outcome, u', hmatches, htu', n, hn⟩ := h t u htu
  · exact Or.inl hexcused
  · refine Or.inr ⟨outcome, u', hmatches, htu', n + 1, fun m hm ↦ ?_⟩
    obtain ⟨m, rfl⟩ := Nat.exists_eq_add_of_lt hm
    exact hn (n + m) (Nat.le_add_right n m)

end Play.Follows

/-! ## Evaluation ends

A round notes the place and leaves the rest to the rounds that are left, with some way to evaluate
what a name stands for one level deeper. By induction on the measure of `evaluation_induction`, so
many rounds are enough from every place that may be visited. -/

theorem Table.At.noted (hd : depth ≤ deepest) (hf : frames.length ≤ base + depth) (t : Table ρ)
    (u : Table (Stacked ρ)) (h : Table.At base depth frames t u) :
    Table.At base depth frames t { u with chance := u.chance.noted } := by
  obtain ⟨⟨hc, rfl, rfl, hv⟩, hl, ht⟩ := h
  exact ⟨⟨hc, rfl, rfl, List.forall_mem_cons.mpr ⟨⟨hd, hf⟩, hv⟩⟩, hl, ht⟩

theorem Table.At.record (step : Trace.Step) (t : Table ρ) (u : Table (Stacked ρ))
    (h : Table.At base depth frames t u) :
    Table.At base depth frames { t with trace := t.trace.push step }
      { u with trace := u.trace.push step } :=
  ⟨h.stack, h.locals, congrArg (·.push step) h.trace⟩

variable [Chance ρ]

namespace Expression

open Play.Follows

theorem rounds_follow {rules : Rules} {rounds : Nat → Expression → Play (Stacked ρ) Value}
    {nested : Option (List Expression) → Play (Stacked ρ) Value → Play (Stacked ρ) Value}
    (hround : ∀ n e, rounds (n + 1) e = Play.note >>= fun _ ↦
      e.layer rules (rounds n) (fun i ↦ Play.argument i (rounds n))
        fun arguments body ↦ nested arguments (rounds n body))
    (hdeeper : ∀ {base depth frames arguments} {p : Play ρ Value}
      {q : Nat → Play (Stacked ρ) Value},
      (depth < deepest → Play.Follows (Table.At base (depth + 1) (arguments.toList ++ frames))
        (fun _ ↦ False) Eq p q) →
      Play.Follows (Table.At base depth frames) (fun _ ↦ False) Eq
        (if depth < deepest then p else Play.misuse .nestedTooDeep) fun n ↦ nested arguments (q n))
    (base depth : Nat) (frames : List (List Expression)) (e : Expression) (hd : depth ≤ deepest)
    (hf : frames.length ≤ base + depth) :
    Play.Follows (Table.At base depth frames) (fun _ ↦ False) Eq
      (e.evaluate rules depth frames : Play ρ Value) fun n ↦ rounds n e := by
  -- The bounds are part of what is shown by induction: a round may rely on them where it stands.
  induction depth, frames, e using evaluation_induction with
  | layer depth frames e hpart hargument hnested =>
    rw [evaluate_eq_layer]
    refine of_succ ?_
    simp only [hround]
    refine note (Table.At.noted hd hf) ?_
    refine (Table.At.coupling.correspondence (fun _ _ h ↦ h.locals) Table.At.record rules).layer
      (fun _ _ ↦ trivial) (fun e' he' ↦ hpart e' he' hd hf) (fun i ↦ ?_)
      fun arguments body _ _ ↦ ?_
    · refine argument fun e outer h ↦ hargument i e outer h hd ?_
      have := Store.length_lt_of_argument h
      omega
    -- One level deeper there is room for one more call.
    · refine hdeeper fun h ↦ hnested h _ body h ?_
      have : arguments.toList.length ≤ 1 := by cases arguments <;> simp
      rw [List.length_append]
      omega

/-- From a place that may be visited, so many rounds are enough for evaluation on the stack. -/
theorem run_execute (rules : Rules) {base depth : Nat} {frames : List (List Expression)}
    {visited : List Place} (hd : depth ≤ deepest) (hf : frames.length ≤ base + depth)
    (hv : ∀ p ∈ visited, p.Within base) (t : Table ρ) (e : Expression) :
    ∃ visited', (∀ p ∈ visited', p.Within base) ∧
      ∃ n, ∀ m ≥ n, (e.execute rules m).run.run (t.stacked frames depth visited)
        = (((e.evaluate rules depth frames).run.run t).1,
            ((e.evaluate rules depth frames).run.run t).2.stacked frames depth visited') :=
  (rounds_follow (fun _ _ ↦ rfl) nested base depth frames e hd hf).run_stacked hv t

/-- **Evaluation ends.** From depth zero, inside any calls, so many rounds are enough for evaluation
on the stack to do what `evaluate` does and to leave the stack as it was. On the way its depth does
not exceed `deepest`, and no more calls are open than at the beginning and one for each level. -/
theorem execute_eq_evaluate (rules : Rules) (frames : List (List Expression)) (t : Table ρ)
    (e : Expression) :
    ∃ visited, (∀ p ∈ visited, p.depth ≤ deepest ∧ p.calls ≤ frames.length + p.depth) ∧
      ∃ n, ∀ m ≥ n, (e.execute rules m).run.run (t.stacked frames 0 [])
        = (((e.evaluate rules 0 frames).run.run t).1,
            ((e.evaluate rules 0 frames).run.run t).2.stacked frames 0 visited) :=
  run_execute rules (Nat.zero_le _) (Nat.le_refl _) (fun _ h ↦ absurd h List.not_mem_nil) t e

end Expression

end DiceNotation
