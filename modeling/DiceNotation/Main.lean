import DiceNotation.Chance.Generator
import DiceNotation.Console

/-!
# The program

Holds the conversation of `Console` over the standard streams, with a seeded generator.
-/

namespace DiceNotation.Program

/-- Reads up to the next line feed; nothing at the end of the input. -/
partial def readLine? (input : IO.FS.Stream) (line : ByteArray) : IO (Option ByteArray) := do
  let bytes ← input.read 1
  match bytes.data.toList with
  | [] => return if line.isEmpty then none else some line
  | b :: _ => if b = 10 then return some line else readLine? input (line.push b)

/-- Answers lines until there are none, or one that is not text. -/
partial def converse (s : Session Generator) : IO Unit := do
  let out ← IO.getStdout
  out.putStr Console.prompt
  out.flush
  match (← readLine? (← IO.getStdin) .empty).bind String.fromUTF8? with
  | none => return
  | some line =>
    let (reply, s) := Console.respond s line
    for shown in reply.shown do
      out.putStrLn shown
    for error in reply.error do
      (← IO.getStderr).putStrLn error
    converse s

/-- A generator that starts from the randomness of the system. -/
def seeded : IO Generator := do
  let bytes ← IO.getRandomBytes 8
  return ⟨bytes.foldl (fun seed b ↦ seed * 256 + b.toUInt64) 0⟩

end DiceNotation.Program

open DiceNotation in
def main : IO Unit := do
  let limit := Limit.ofSetting (← IO.getEnv Limit.variableName)
  Program.converse (.start (← Program.seeded) limit)
