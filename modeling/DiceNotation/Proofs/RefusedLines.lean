import DiceNotation.Chance.Script
import DiceNotation.Console

/-!
# Lines that are refused

Much that is typed at the console comes to nothing: blank lines, commands that there are not, or
that lack what they need, functions that cannot be read or saved, functions to be removed that are
not saved, and inputs that cannot be read. What these have in common is that the session does not
get to see them, or refuses them before anything is drawn, set or saved. That such a line was typed
can afterwards be told neither from the session nor from the rest of the conversation.

Whether a line is refused may depend on the session (`Refused`): a function that was saved at the
beginning may have been removed before. A line is therefore looked at where it stands, behind the
lines before it.
-/

namespace DiceNotation

-- A property of all members is decided by going through them, whatever is imported.
attribute [local instance (high)] List.decidableBAll Option.decidableForallMem

namespace Blank

variable {text rest : List Char}

theorem cutAtBlank?_eq_none (h : ∀ c ∈ text, isBlank c = false) : cutAtBlank? text = none := by
  induction text with
  | nil => rfl
  | cons c text ih =>
    rw [List.forall_mem_cons] at h
    rw [cutAtBlank?, if_neg (by simp [h.1]), ih h.2]
    rfl

theorem cutAtBlank?_append (h : ∀ c ∈ text, isBlank c = false) {c : Char} (hc : isBlank c = true) :
    cutAtBlank? (text ++ c :: rest) = some (text, rest) := by
  induction text with
  | nil => exact if_pos hc
  | cons d text ih =>
    rw [List.forall_mem_cons] at h
    rw [List.cons_append, cutAtBlank?, if_neg (by simp [h.1]), ih h.2]
    rfl

theorem trim_cons_of_isBlank {c : Char} (hc : isBlank c = true) : trim (c :: text) = trim text := by
  rw [trim, trim, List.dropWhile_cons_of_pos hc]

theorem trim_eq_nil (h : ∀ c ∈ text, isBlank c = true) : trim text = [] := by
  induction text with
  | nil => rfl
  | cons c text ih =>
    rw [List.forall_mem_cons] at h
    rw [trim_cons_of_isBlank h.1, ih h.2]

end Blank

namespace Console

variable {ρ : Type}

/-! ## What is refused -/

/-- The text is a command: a word behind a colon, and what the command is about behind a blank. -/
def IsCommand (text word about : List Char) : Prop :=
  (∀ c ∈ word, Blank.isBlank c = false) ∧
    ∃ behind, text = ':' :: (word ++ behind) ∧ (∀ c ∈ behind.head?, Blank.isBlank c = true) ∧
      about = Blank.trim behind

/-- Why a function that is not saved cannot be removed. -/
def notSaved (name : String) : RollError :=
  match Store.checkAssignable name with
  | .error error => error
  | .ok () => .unknownReference name

theorem run_unsave_eq_notSaved {store : Store} {name : String}
    (h : store.saved.get? name = none) :
    (Store.unsave name).run.run store = (.error (notSaved name), store) := by
  rw [notSaved]
  rcases hname : Store.checkAssignable name with error | ⟨⟩
  · exact Store.run_unsave_of_error store hname
  · exact Store.run_unsave_of_eq_none hname h

/-- The session refuses the line, for this reason if it gives one. -/
inductive Refused (s : Session ρ) (line : String) : Option RollError → Prop
  | blank (h : ∀ c ∈ line.toList, Blank.isBlank c = true) : Refused s line none
  | unknownCommand {word about : List Char} (h : IsCommand (Blank.trim line.toList) word about)
      (hsave : word ≠ "save".toList) (hunsave : word ≠ "unsave".toList) :
      Refused s line (some (.misuse (.worded ("unknown command :" ++ String.ofList word))))
  /-- There are not both a name and a source behind the word. -/
  | incompleteSave {about : List Char} (h : IsCommand (Blank.trim line.toList) "save".toList about)
      (habout : ∀ c ∈ about, Blank.isBlank c = false) :
      Refused s line (some (.misuse (.worded "usage: :save <name> <expression>")))
  | unreadableSave {name source : List Char} {c : Char} {e : ReadError}
      (h : IsCommand (Blank.trim line.toList) "save".toList (name ++ c :: source))
      (hname : ∀ c ∈ name, Blank.isBlank c = false) (hc : Blank.isBlank c = true)
      (hread : Expression.read (String.ofList (Blank.trim source)) = .error e) :
      Refused s line (some (.read e))
  | unassignableSave {name source : List Char} {c : Char} {e : Expression} {error : RollError}
      (h : IsCommand (Blank.trim line.toList) "save".toList (name ++ c :: source))
      (hname : ∀ c ∈ name, Blank.isBlank c = false) (hc : Blank.isBlank c = true)
      (hread : Expression.read (String.ofList (Blank.trim source)) = .ok e)
      (herror : Store.checkAssignable (String.ofList name) = .error error) :
      Refused s line (some error)
  | unsavedUnsave {name : List Char}
      (h : IsCommand (Blank.trim line.toList) "unsave".toList name)
      (hsaved : s.store.saved.get? (String.ofList name) = none) :
      Refused s line (some (notSaved (String.ofList name)))
  | unreadableInput {e : ReadError} (hcolon : (Blank.trim line.toList).head? ≠ some ':')
      (hblank : Blank.trim line.toList ≠ [])
      (hread : Expression.read (String.ofList (Blank.trim line.toList)) = .error e) :
      Refused s line (some (.read e))

/-! ## Answers

The word of a command is what stands before the first blank, and a command is obeyed as what it is
read as. -/

/-- The reply to a line that is refused. -/
def refusal : Option RollError → Reply
  | none => .silent
  | some error => .failure error

section Command

variable {text about : List Char}

theorem cutAtBlank?_of_isCommand {word : List Char} (h : IsCommand (':' :: text) word about) :
    ∃ behind, (Blank.cutAtBlank? text).getD (text, []) = (word, behind) ∧
      Blank.trim behind = about := by
  obtain ⟨hword, behind, htext, hbehind, rfl⟩ := h
  obtain rfl : text = word ++ behind := (List.cons.inj htext).2
  rcases behind with _ | ⟨c, behind⟩
  · refine ⟨[], ?_, rfl⟩
    rw [List.append_nil, Blank.cutAtBlank?_eq_none hword]
    rfl
  · have hc : Blank.isBlank c = true := hbehind c rfl
    refine ⟨behind, ?_, (Blank.trim_cons_of_isBlank hc).symm⟩
    rw [Blank.cutAtBlank?_append hword hc]
    rfl

theorem ofText_unknown {word : List Char} (h : IsCommand (':' :: text) word about)
    (hsave : word ≠ "save".toList) (hunsave : word ≠ "unsave".toList) :
    Command.ofText text = .unknown (String.ofList word) := by
  obtain ⟨behind, hcut, -⟩ := cutAtBlank?_of_isCommand h
  unfold Command.ofText
  rw [hcut]
  have hword {name : String} (hname : word ≠ name.toList) : String.ofList word ≠ name := by
    rintro rfl
    exact hname String.toList_ofList.symm
  dsimp only
  split
  · next heq => exact absurd heq (hword hsave)
  · next heq => exact absurd heq (hword hunsave)
  · rfl

theorem ofText_unsave (h : IsCommand (':' :: text) "unsave".toList about) :
    Command.ofText text = .unsave (String.ofList about) := by
  obtain ⟨behind, hcut, rfl⟩ := cutAtBlank?_of_isCommand h
  unfold Command.ofText
  rw [hcut]
  rfl

theorem ofText_save_incomplete (h : IsCommand (':' :: text) "save".toList about)
    (habout : ∀ c ∈ about, Blank.isBlank c = false) :
    Command.ofText text = .saveIncomplete := by
  obtain ⟨behind, hcut, rfl⟩ := cutAtBlank?_of_isCommand h
  have hnone : Blank.cutAtBlank? (Blank.trim behind) = none := Blank.cutAtBlank?_eq_none habout
  unfold Command.ofText
  rw [hcut]
  simp only [String.ofList_toList, hnone]

theorem ofText_save {name source : List Char} {c : Char}
    (h : IsCommand (':' :: text) "save".toList (name ++ c :: source))
    (hname : ∀ c ∈ name, Blank.isBlank c = false) (hc : Blank.isBlank c = true) :
    Command.ofText text
      = .save (String.ofList name) (String.ofList (Blank.trim source)) := by
  obtain ⟨behind, hcut, hbehind⟩ := cutAtBlank?_of_isCommand h
  have hsome : Blank.cutAtBlank? (Blank.trim behind) = some (name, source) := by
    rw [hbehind]
    exact Blank.cutAtBlank?_append hname hc
  unfold Command.ofText
  rw [hcut]
  simp only [String.ofList_toList, hsome]

end Command

variable [Chance ρ]

theorem respond_of_isCommand (s : Session ρ) {line : String} {word about : List Char}
    {command : Command} (h : IsCommand (Blank.trim line.toList) word about)
    (hcommand : ∀ {text}, IsCommand (':' :: text) word about → Command.ofText text = command) :
    respond s line = obey s command := by
  obtain ⟨behind, htext, -⟩ := h.2
  rw [htext] at h
  unfold respond
  rw [htext, ← hcommand h]
  rfl

/-- A refused line is answered by the reason at most, and the session stays as it is. -/
theorem respond_of_refused {s : Session ρ} {line : String} {error : Option RollError}
    (h : Refused s line error) : respond s line = (refusal error, s) := by
  rcases h with hblank | ⟨hcommand, hsave, hunsave⟩ | ⟨hcommand, habout⟩ |
    ⟨hcommand, hname, hc, hread⟩ | ⟨hcommand, hname, hc, hread, herror⟩ | ⟨hcommand, hsaved⟩ |
    ⟨hcolon, hblank, hread⟩
  · unfold respond
    rw [Blank.trim_eq_nil hblank]
    rfl
  · rw [respond_of_isCommand s hcommand fun h ↦ ofText_unknown h hsave hunsave]
    rfl
  · rw [respond_of_isCommand s hcommand fun h ↦ ofText_save_incomplete h habout]
    rfl
  · rw [respond_of_isCommand s hcommand fun h ↦ ofText_save h hname hc, obey, Session.save, hread]
    rfl
  · rw [respond_of_isCommand s hcommand fun h ↦ ofText_save h hname hc, obey, Session.save, hread]
    dsimp only
    rw [Session.change_of_run_eq (Store.run_save_of_error s.store _ herror)]
    rfl
  · rw [respond_of_isCommand s hcommand fun h ↦ ofText_unsave h, obey, Session.unsave,
      Session.change_of_run_eq (run_unsave_eq_notSaved hsaved)]
    rfl
  · unfold respond
    split
    · next hnil => exact absurd hnil hblank
    · next htext =>
      rw [htext] at hcolon
      exact absurd rfl hcolon
    · rw [Session.evaluate, hread]
      rfl

/-! ## Conversations -/

theorem converse_cons (s : Session ρ) (line : String) (rest : List String) :
    converse s (line :: rest)
      = ((respond s line).1 :: (converse (respond s line).2 rest).1,
        (converse (respond s line).2 rest).2) :=
  rfl

theorem converse_append (s : Session ρ) (before after : List String) :
    converse s (before ++ after)
      = ((converse s before).1 ++ (converse (converse s before).2 after).1,
        (converse (converse s before).2 after).2) := by
  induction before generalizing s with
  | nil => rfl
  | cons line before ih =>
    rw [List.cons_append, converse_cons, converse_cons, ih]
    rfl

/-- What replies add to the output. -/
def shown (replies : List Reply) : String :=
  String.join (replies.map fun r ↦ String.join (r.shown.map (· ++ "\n")) ++ prompt)

theorem output_append (past later : List Reply) :
    output (past ++ later) = output past ++ shown later := by
  rw [output, output, shown, List.map_append, String.join_append, String.append_assoc]

theorem shown_refusal_cons (error : Option RollError) (later : List Reply) :
    shown (refusal error :: later) = prompt ++ shown later := by
  have hsilent : (refusal error).shown = [] := by cases error <;> rfl
  rw [shown, List.map_cons, String.join_cons, hsilent]
  rfl

theorem errors_append (past later : List Reply) :
    errors (past ++ later) = errors past ++ errors later := by
  rw [errors, errors, errors, List.filterMap_append, String.join_append]

theorem errors_refusal_cons (error : Option RollError) (later : List Reply) :
    errors (refusal error :: later)
      = (error.elim "" fun e ↦ "Error: " ++ e.message ++ "\n") ++ errors later := by
  rcases error with _ | e
  · exact String.empty_append.symm
  · exact String.join_cons

/-- **A refused line leaves no trace.** Of two conversations that differ in a line that is refused
where it stands, the session is the same in the end. The output is the same but for one more prompt
at the place of the line, and the errors are the same but for that of the line at its place, if it
has one. -/
theorem converse_insert_refused (s : Session ρ) (before after : List String) {line : String}
    {error : Option RollError} (h : Refused (converse s before).2 line error) :
    let past := converse s before
    let plain := converse s (before ++ after)
    let inserted := converse s (before ++ line :: after)
    inserted.2 = plain.2 ∧ ∃ answers failures,
      output plain.1 = output past.1 ++ answers ∧
      output inserted.1 = output past.1 ++ (prompt ++ answers) ∧
      errors plain.1 = errors past.1 ++ failures ∧
      errors inserted.1 = errors past.1 ++
        ((error.elim "" fun e ↦ "Error: " ++ e.message ++ "\n") ++ failures) := by
  intro past plain inserted
  have hplain : plain = (past.1 ++ (converse past.2 after).1, (converse past.2 after).2) :=
    converse_append s before after
  have hinserted : inserted
      = (past.1 ++ refusal error :: (converse past.2 after).1, (converse past.2 after).2) := by
    rw [show inserted = _ from converse_append s before (line :: after), converse_cons,
      respond_of_refused h]
  rw [hinserted, hplain]
  refine ⟨rfl, shown (converse past.2 after).1, errors (converse past.2 after).1,
    output_append _ _, ?_, errors_append _ _, ?_⟩
  · rw [output_append, shown_refusal_cons]
  · rw [errors_append, errors_refusal_cons]

/-- A session with one function. -/
def withFunction : Session Script :=
  { Session.start (.ofFaces [4]) 1000 with
    store := { Store.empty with
      saved := Bindings.empty.insert "f" (.prefixed .die (.literal (.ofNat 6))) } }

/-- A function is removed once, or once more before it is used. -/
theorem converse_insert_refused_unsave :
    let plain := converse withFunction [":unsave f", "\x7bf\x7d"]
    let inserted := converse withFunction [":unsave f", ":unsave f", "\x7bf\x7d"]
    Refused (converse withFunction [":unsave f"]).2 ":unsave f" (some (.unknownReference "f")) ∧
      inserted.2 = plain.2 ∧ ∃ answers failures,
        output plain.1 = "> removed \x7bf\x7d\n> " ++ answers ∧
        output inserted.1 = "> removed \x7bf\x7d\n> " ++ ("> " ++ answers) ∧
        errors plain.1 = failures ∧
        errors inserted.1
          = "Error: no saved function or variable named \x7bf\x7d\n" ++ failures := by
  intro plain inserted
  have hcommand : IsCommand (Blank.trim ":unsave f".toList) "unsave".toList ['f'] :=
    ⟨by decide, [' ', 'f'], rfl, by decide, rfl⟩
  have hrefused : Refused (converse withFunction [":unsave f"]).2 ":unsave f"
      (some (.unknownReference "f")) :=
    .unsavedUnsave hcommand rfl
  obtain ⟨hsession, answers, failures, h⟩ :=
    converse_insert_refused withFunction [":unsave f"] ["\x7bf\x7d"] hrefused
  have houtput : output (converse withFunction [":unsave f"]).1 = "> removed \x7bf\x7d\n> " := rfl
  have herrors : errors (converse withFunction [":unsave f"]).1 = "" := rfl
  rw [houtput, herrors, String.empty_append, String.empty_append] at h
  exact ⟨hrefused, hsession, answers, failures, h⟩

end Console

end DiceNotation
