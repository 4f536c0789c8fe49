import DiceNotation.Chance.Script
import DiceNotation.Proofs.Correspondence
import DiceNotation.Proofs.Layers
import DiceNotation.Proofs.Spelling
import DiceNotation.Session

/-!
# Parameters

A positive number in digits is the name of a parameter: it stands for an argument of the innermost
call and can be given no other meaning. Nor would another meaning ever come to light, since a name
is looked up only if it is not that of a parameter. So sessions that differ only in what names of
parameters have been made to stand for cannot be told apart (`Session.SameButParameters`).

Parameters are counted in machine words. A number beyond the largest one is not the name of a
parameter, however it is written, but a name like any other.
-/

namespace DiceNotation

/-! ## Names in digits

A name in digits is that of the parameter whose number it denotes, if there is one; it is neither
blank nor built in. A number beyond the largest count is a name like others. -/

/-- The number that a name in digits denotes. -/
def numberOf (name : String) : Nat := Nat.ofDigitChars 10 name.toList 0

/-- The name is written in digits, and the number that it denotes is positive. -/
structure IsNumbered (name : String) : Prop where
  ne_nil : name.toList ≠ []
  digits : ∀ c ∈ name.toList, c.isDigit = true
  pos : 0 < numberOf name

instance (name : String) : Decidable (IsNumbered name) :=
  decidable_of_iff (name.toList ≠ [] ∧ name.toList.all Char.isDigit = true ∧ 0 < numberOf name)
    ⟨fun ⟨hne, hdigits, hpos⟩ ↦ ⟨hne, List.all_eq_true.mp hdigits, hpos⟩,
      fun ⟨hne, hdigits, hpos⟩ ↦ ⟨hne, List.all_eq_true.mpr hdigits, hpos⟩⟩

theorem IsNumbered.parameter?_eq {name : String} (h : IsNumbered name) :
    parameter? name = if numberOf name ≤ Count.largest then some (numberOf name) else none := by
  have hdigits : name.toList ≠ [] ∧ name.toList.all Char.isDigit = true :=
    ⟨h.ne_nil, List.all_eq_true.mpr h.digits⟩
  obtain ⟨n, hn⟩ := Nat.exists_eq_succ_of_ne_zero (Nat.ne_of_gt h.pos)
  have hcount : Count.ofDigits? name.toList
      = if numberOf name ≤ Count.largest then some (numberOf name) else none := by
    rw [Count.ofDigits?, if_pos hdigits]
    rfl
  rw [parameter?, hcount, hn]
  by_cases hle : n.succ ≤ Count.largest
  · rewrite [if_pos hle]
    rfl
  · rewrite [if_neg hle]
    rfl

theorem Blank.isBlank_of_isDigit {c : Char} (h : c.isDigit = true) : isBlank c = false := by
  simp only [Char.isDigit, Bool.and_eq_true, decide_eq_true_eq] at h
  obtain ⟨hlow, hhigh⟩ := h
  refine Bool.eq_false_iff.mpr fun hblank ↦ ?_
  simp only [isBlank, Bool.or_eq_true, Bool.and_eq_true, decide_eq_true_eq, beq_iff_eq,
    Char.le_def, Char.ext_iff, ← UInt32.toNat_inj, UInt32.le_iff_toNat_le, Char.isValue,
    Char.reduceVal, UInt32.reduceToNat, Char.toNat_val] at hlow hhigh hblank
  omega

theorem IsNumbered.trim_ne_nil {name : String} (h : IsNumbered name) :
    Blank.trim name.toList ≠ [] := by
  have htrimmed : Blank.Trimmed name.toList := {
    head := fun c hc ↦ Blank.isBlank_of_isDigit (h.digits c (List.mem_of_mem_head? hc))
    last := fun c hc ↦ Blank.isBlank_of_isDigit (h.digits c (List.mem_of_getLast? hc)) }
  rw [htrimmed.trim_eq]
  exact h.ne_nil

theorem IsNumbered.builtIn?_eq_none {name : String} (h : IsNumbered name) :
    builtIn? name = none := by
  have hne (other : String) (hother : '!' ∈ other.toList) : name ≠ other := by
    rintro rfl
    exact absurd (h.digits '!' hother) (by decide)
  rw [builtIn?, if_neg (hne "!d" (by decide)), if_neg (hne "!c" (by decide))]

theorem Store.checkAssignable_of_parameter? {name : String} {i : Nat}
    (hblank : Blank.trim name.toList ≠ []) (h : parameter? name = some i) :
    checkAssignable name = .error (.misuse .parameterAssigned) := by
  have hsome : (parameter? name).isSome = true := by rw [h, Option.isSome_some]
  rw [checkAssignable, if_neg (by simpa using hblank), if_pos hsome]

theorem IsNumbered.checkAssignable_of_largest_lt {name : String} (h : IsNumbered name)
    (hlt : Count.largest < numberOf name) :
    parameter? name = none ∧ Store.checkAssignable name = .ok () := by
  have hname : parameter? name = none := h.parameter?_eq.trans (if_neg (Nat.not_le.mpr hlt))
  exact ⟨hname, Store.checkAssignable_eq_ok_iff.mpr ⟨h.trim_ne_nil, hname, h.builtIn?_eq_none⟩⟩

/-! ## What evaluation does not ask for

Names that are not those of parameters are found to stand for the same, whatever parameters have
been made to stand for, and no other name is looked up. -/

/-- The same names stand for the same, apart from names of parameters. -/
def Bindings.SameButParameters (b b' : Bindings Expression) : Prop :=
  ∀ name, parameter? name = none → b'.get? name = b.get? name

namespace Bindings.SameButParameters

variable {b b' : Bindings Expression}

theorem insert_right (b : Bindings Expression) {name : String} (h : parameter? name ≠ none)
    (e : Expression) : b.SameButParameters (b.insert name e) := by
  intro other hother
  have hne : other ≠ name := fun heq ↦ h (heq ▸ hother)
  rw [get?_insert, if_neg hne]

theorem insert (h : b.SameButParameters b') (name : String) (e : Expression) :
    (b.insert name e).SameButParameters (b'.insert name e) := by
  intro other hother
  rw [get?_insert, get?_insert, h other hother]

theorem erase (h : b.SameButParameters b') (name : String) :
    (b.erase name).SameButParameters (b'.erase name) := by
  intro other hother
  rw [get?_erase, get?_erase, h other hother]

theorem resolve_eq {saved saved' : Bindings Expression} (hsaved : saved.SameButParameters saved')
    (h : b.SameButParameters b') {name : String} (hname : parameter? name = none) :
    Store.resolve saved' b' name = Store.resolve saved b name := by
  rw [Store.resolve, Store.resolve, hsaved name hname, h name hname]

end Bindings.SameButParameters

variable {ρ : Type}

/-- The tables differ at most in what names of parameters stand for. -/
structure Table.SameButParameters (t u : Table ρ) : Prop where
  chance : u.chance = t.chance
  trace : u.trace = t.trace
  locals : t.locals.SameButParameters u.locals

namespace Table.SameButParameters

theorem record (step : Trace.Step) (t u : Table ρ) (h : SameButParameters t u) :
    SameButParameters { t with trace := t.trace.push step }
      { u with trace := u.trace.push step } :=
  ⟨h.chance, congrArg (·.push step) h.trace, h.locals⟩

variable [Chance ρ]

theorem coupling : Play.Coupling Eq Eq (SameButParameters (ρ := ρ)) where
  likeness := .eq
  alike := .eq
  chance h := h.chance.symm
  withChance h hc := ⟨hc.symm, h.trace, h.locals⟩
  insert := by
    rintro t u name v _ rfl - h
    exact ⟨h.chance, h.trace, h.locals.insert name _⟩
  erase := by
    rintro t u name - h
    exact ⟨h.chance, h.trace, h.locals.erase name⟩

theorem correspondence {saved saved' : Bindings Expression}
    (hsaved : saved.SameButParameters saved') (limit : Nat) :
    Play.Correspondence (fun _ ↦ True) ⟨limit, saved⟩ ⟨limit, saved'⟩ (SameButParameters (ρ := ρ))
      (fun _ ↦ False) Eq where
  literal _ := rfl
  list := Play.Likeness.eq.list
  text _ := rfl
  resolve {_ name} _ _ hname := by
    refine Play.follows_iff.mpr fun t u htu ↦ ?_
    rw [Play.run_resolve, Play.run_resolve, hsaved.resolve_eq htu.locals hname]
    refine ⟨?_, htu⟩
    cases Store.resolve saved t.locals name with
    | ok body => exact .ok ⟨rfl, fun _ _ ↦ trivial⟩
    | error e => exact .error e
  prefixed _ h := (coupling.prefixOp _ h).bind fun _ _ ↦ .conclude .eq record _ _
  binary _ h h' := (coupling.binaryOp _ h h').bind fun _ _ ↦ .conclude .eq record _ _
  postfixed _ h := (coupling.postfixOp _ h).bind fun _ _ ↦ .conclude .eq record _ _

end Table.SameButParameters

/-! ## Sessions -/

namespace Session

/-- The sessions differ at most in what names of parameters stand for. -/
structure SameButParameters (s s' : Session ρ) : Prop where
  chance : s'.chance = s.chance
  limit : s'.limit = s.limit
  frames : s'.store.frames = s.store.frames
  saved : s.store.saved.SameButParameters s'.store.saved
  locals : s.store.locals.SameButParameters s'.store.locals

variable [Chance ρ]

/-- **Nothing comes to light of what parameters have been made to stand for**: an input comes to the
same, and the sessions are the same again behind it. -/
theorem SameButParameters.evaluateExpression {s s' : Session ρ} (h : SameButParameters s s')
    (e : Expression) :
    (s'.evaluateExpression e).1 = (s.evaluateExpression e).1 ∧
      SameButParameters (s.evaluateExpression e).2 (s'.evaluateExpression e).2 := by
  have hfollows := (Table.SameButParameters.correspondence (ρ := ρ) h.saved s.limit).evaluate 0
    (fun _ _ _ _ _ _ ↦ trivial : Store.InFrames _ s.store.frames)
    (fun _ _ ↦ trivial : e.Everywhere _)
  obtain ⟨hmatches, htable⟩ := Play.follows_iff.mp hfollows ⟨s.chance, s.store.locals, .empty⟩
    ⟨s'.chance, s'.store.locals, .empty⟩ ⟨h.chance, rfl, h.locals⟩
  rw [Session.evaluateExpression, Session.evaluateExpression, h.limit, h.frames]
  generalize (e.evaluate ⟨s.limit, s.store.saved⟩ 0 s.store.frames).run.run
    ⟨s.chance, s.store.locals, .empty⟩ = run at hmatches htable
  generalize (e.evaluate ⟨s.limit, s'.store.saved⟩ 0 s.store.frames).run.run
    ⟨s'.chance, s'.store.locals, .empty⟩ = run' at hmatches htable
  obtain ⟨outcome, t⟩ := run
  obtain ⟨outcome', t'⟩ := run'
  obtain ⟨hchance, htrace, hlocals⟩ := htable
  dsimp only at hmatches hchance htrace hlocals
  obtain rfl := hmatches.eq
  rcases outcome with error | v
  · exact ⟨rfl, hchance, rfl, h.frames, h.saved, hlocals⟩
  · dsimp only
    rw [htrace]
    exact ⟨rfl, hchance, rfl, h.frames, h.saved, (hlocals.insert _ _).insert _ _⟩

/-- The session with meanings for a name in both layers that a session can fill. -/
def withMeaning (s : Session ρ) (name : String) (function body : Expression) : Session ρ :=
  { s with
    store := { s.store with
      saved := s.store.saved.insert name function
      locals := s.store.locals.insert name body } }

/-- The name is that of the `i`-th parameter in the session and nothing else. Nothing can be saved
under it nor removed, and the store stays as it was. It stands for an argument of the innermost
call and cannot be called, and other meanings of it do not come to light. -/
structure Reserves (s : Session ρ) (name : String) (i : Nat) : Prop where
  perform_save (e : Expression) :
    Store.Act.perform s.store (.save name e) = (.error (.misuse .parameterAssigned), s.store)
  perform_unsave :
    Store.Act.perform s.store (.unsave name) = (.error (.misuse .parameterAssigned), s.store)
  save {source : String} {e : Expression} :
    Expression.read source = .ok e →
      s.save name source = (.error (.misuse .parameterAssigned), s)
  unsave : s.unsave name = (.error (.misuse .parameterAssigned), s)
  reference (rules : Rules) (depth : Nat) (frames : List (List Expression)) :
    ((Expression.reference name).evaluate rules depth frames : Play ρ Value)
      = Expression.evaluateArgument rules depth frames i
  call (rules : Rules) (depth : Nat) (frames : List (List Expression))
      (arguments : List Expression) :
    ((Expression.call name arguments).evaluate rules depth frames : Play ρ Value)
      = Play.misuse (.parameterCalled name)
  meaning_unseen (function body e : Expression) :
    let s' := s.withMeaning name function body
    (s'.evaluateExpression e).1 = (s.evaluateExpression e).1 ∧
      (s'.evaluateExpression e).2.chance = (s.evaluateExpression e).2.chance

/-- The name of a parameter is reserved, unless it was refused for being blank. -/
theorem reserves_of_parameter? (s : Session ρ) {name : String} {i : Nat}
    (hblank : Blank.trim name.toList ≠ []) (h : parameter? name = some i) :
    s.Reserves name i := by
  have hrefused : Store.checkAssignable name = .error (.misuse .parameterAssigned) :=
    Store.checkAssignable_of_parameter? hblank h
  refine {
    perform_save := fun e ↦ Store.run_save_of_error s.store e hrefused
    perform_unsave := Store.run_unsave_of_error s.store hrefused
    save := fun hread ↦ ?_
    unsave := change_of_run_eq (Store.run_unsave_of_error s.store hrefused)
    reference := fun _ _ _ ↦ Expression.evaluate_parameter _ _ _ h
    call := fun _ _ _ ↦ Expression.evaluate_call_parameter _ _ _ h
    meaning_unseen := fun function body e ↦ ?_ }
  · rw [Session.save, hread]
    exact change_of_run_eq (Store.run_save_of_error s.store _ hrefused)
  · have hname : parameter? name ≠ none := by simp [h]
    have hsame : SameButParameters s (s.withMeaning name function body) :=
      ⟨rfl, rfl, rfl, .insert_right _ hname _, .insert_right _ hname _⟩
    obtain ⟨hresult, hbehind⟩ := hsame.evaluateExpression e
    exact ⟨hresult, hbehind.chance⟩

/-- **Parameters are not assignable, as far as they can be counted.** A name in digits is reserved
for the parameter whose number it denotes, however many zeros it begins with. If that number is
beyond the largest count, there is no such parameter: functions can be saved under the name, and a
reference to it looks the name up in the session. -/
theorem reserves_of_isNumbered (s : Session ρ) {name : String} (h : IsNumbered name) :
    (numberOf name ≤ Count.largest → s.Reserves name (numberOf name)) ∧
      (Count.largest < numberOf name →
        (∀ e, Store.Act.perform s.store (.save name e)
          = (.ok (), { s.store with saved := s.store.saved.insert name e })) ∧
        ∀ (rules : Rules) (depth : Nat) (frames : List (List Expression)),
          ((Expression.reference name).evaluate rules depth frames : Play ρ Value)
            = Play.resolve rules name >>= Expression.evaluateNested rules depth frames none) := by
  refine ⟨fun hle ↦ ?_, fun hlt ↦ ?_⟩
  · exact s.reserves_of_parameter? h.trim_ne_nil (h.parameter?_eq.trans (if_pos hle))
  · obtain ⟨hname, hassignable⟩ := h.checkAssignable_of_largest_lt hlt
    exact ⟨fun e ↦ Store.run_save_of_ok s.store e hassignable,
      fun _ _ _ ↦ Expression.evaluate_reference _ _ _ hname⟩

/-- Zeros before its number do not make another name of a parameter. -/
theorem reserves_zeros :
    let s : Session Script := .start (.ofFaces [1]) 10
    IsNumbered "007" ∧ s.Reserves "007" 7 := by
  intro s
  have h : IsNumbered "007" := by decide
  exact ⟨h, (reserves_of_isNumbered s h).1 (by decide)⟩

/-- The first number that is no count can be saved, and is then looked up. -/
theorem save_beyondLargest :
    let s : Session Script := .start (.ofFaces [1]) 10
    let name := "18446744073709551616"
    IsNumbered name ∧ ∃ s', s.save name "1" = (.ok (), s') ∧
      Store.resolve s'.store.saved s'.store.locals name = .ok (.literal (.ofNat 1)) := by
  intro s name
  have h : IsNumbered name := by decide
  have hread : Expression.read "1" = .ok (.literal (.ofNat 1)) := by
    rw [Expression.read, Expression.readAt_eq]
    rfl
  obtain ⟨-, hassignable⟩ := h.checkAssignable_of_largest_lt (by decide)
  refine ⟨h, { s with store := { s.store with saved := s.store.saved.insert name _ } }, ?_, rfl⟩
  rw [Session.save, hread]
  exact change_of_run_eq (Store.run_save_of_ok s.store _ hassignable)

end Session

end DiceNotation
