import DiceNotation.Session

/-!
# The console

A conversation of lines with a session. A line that starts with a colon is a command, one that is
blank is passed over, and any other is an input to evaluate. An answer goes to the output, a
failure to the errors, and the prompt follows in either case.

The conversation ends with the input, or at the first line that is not text.
-/

namespace DiceNotation.Console

/-- What asks for a line. -/
def prompt : String := "> "

/-- The answer to a line: the lines that are shown, and the error, if there is one. -/
structure Reply where
  shown : List String
  error : Option String
deriving DecidableEq

namespace Reply

/-- The reply to a line that asks for nothing. -/
def silent : Reply := ⟨[], none⟩

/-- The reply that shows an error. -/
def failure (e : RollError) : Reply := ⟨[], some ("Error: " ++ e.message)⟩

/-- The reply that shows an evaluation: its steps by priority, indented, and the value. -/
def evaluation (ev : Evaluation) : Reply :=
  let steps := ev.trace.byLevel.flatMap fun (_, texts) ↦ texts.map ("  " ++ ·)
  ⟨steps ++ [ev.value.display Value.usualDepth], none⟩

end Reply

/-! ## Commands -/

/-- A line that starts with a colon. -/
inductive Command where
  | save (name source : String)
  | saveIncomplete
  | unsave (name : String)
  | unknown (word : String)

/-- The command that stands behind a colon: a word, and what it is about. -/
def Command.ofText (text : List Char) : Command :=
  let (word, about) := (Blank.cutAtBlank? text).getD (text, [])
  let about := Blank.trim about
  match String.ofList word with
  | "save" =>
    match Blank.cutAtBlank? about with
    | some (name, source) =>
      .save (String.ofList name) (String.ofList (Blank.trim source))
    | none => .saveIncomplete
  | "unsave" => .unsave (String.ofList about)
  | word => .unknown word

variable {ρ : Type} [Chance ρ]

/-- Obeys a command. -/
def obey (s : Session ρ) : Command → Reply × Session ρ
  | .save name source =>
    match s.save name source with
    | (.ok (), s) => (⟨["saved " ++ braced name], none⟩, s)
    | (.error e, s) => (.failure e, s)
  | .saveIncomplete => (.failure (.misuse (.worded "usage: :save <name> <expression>")), s)
  | .unsave name =>
    match s.unsave name with
    | (.ok (), s) => (⟨["removed " ++ braced name], none⟩, s)
    | (.error e, s) => (.failure e, s)
  | .unknown word => (.failure (.misuse (.worded ("unknown command :" ++ word))), s)

/-! ## Lines -/

/-- Answers a line. -/
def respond (s : Session ρ) (line : String) : Reply × Session ρ :=
  match Blank.trim line.toList with
  | [] => (.silent, s)
  | ':' :: text => obey s (.ofText text)
  | text =>
    match s.evaluate (String.ofList text) with
    | (.ok ev, s) => (.evaluation ev, s)
    | (.error e, s) => (.failure e, s)

/-- Answers lines, one after the other. -/
def converse (s : Session ρ) : List String → List Reply × Session ρ
  | [] => ([], s)
  | line :: rest =>
    let (reply, s) := respond s line
    let (replies, s) := converse s rest
    (reply :: replies, s)

/-- The lines of an input, each without the line feed that ends it. -/
def cutLines : List UInt8 → List (List UInt8)
  | [] => []
  | b :: rest =>
    if b = 10 then [] :: cutLines rest
    else
      match cutLines rest with
      | [] => [[b]]
      | line :: lines => (b :: line) :: lines

/-- The lines of an input before the first that is not text. -/
def textLines (input : List UInt8) : List String :=
  ((cutLines input).map fun line ↦ String.fromUTF8? ⟨line.toArray⟩).takeWhile Option.isSome
    |>.filterMap id

/-- What stands on the output after some replies. -/
def output (replies : List Reply) : String :=
  prompt ++ String.join (replies.map fun r ↦ String.join (r.shown.map (· ++ "\n")) ++ prompt)

/-- What stands on the errors after some replies. -/
def errors (replies : List Reply) : String :=
  String.join (replies.filterMap fun r ↦ r.error.map (· ++ "\n"))

end DiceNotation.Console
