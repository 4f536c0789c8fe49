import DiceNotation.Proofs.Divisions
import DiceNotation.Proofs.Joints

/-!
# Quoted texts in the three scans

The end of a quoted text is found in three places: where it becomes a token, and in both scans of a
reference that it stands in, for the closing brace and for the commas. All three find the same one
(`Token.quoted_taken_whole`): a scan that comes to the first quote outside of quoted text is outside
of it again behind the last character of the token, and nowhere between, and it counts no bracket on
its way. What is written for a text is such a quoted text, whatever characters the text has.

A scan keeps nothing of what is behind it but the number of open brackets and the quotation, so it
is enough to look at a scan that starts at the first quote (`Scan.GoesOver`).
-/

namespace DiceNotation

open Token

namespace Scan

variable {s : Scan} {quoted : List Char}

/-- From outside quoted text, the scan goes over the quoted text as a whole: with as many brackets
open as before, and outside quoted text again at the end of it and not earlier. -/
def GoesOver (s : Scan) (quoted : List Char) : Prop :=
  ∀ depth m, 0 < m → m ≤ quoted.length → ∃ quotation,
    s.walk (depth, .outside) (quoted.take m) = some (depth, quotation) ∧
      (quotation = .outside ↔ m = quoted.length)

theorem goesOver_of_textTail? {tail : List Char} {n : Nat} (h : textTail? tail = some n)
    (hquote : ∀ depth, s.step (depth, .outside) '"' = some (depth, .inside)) :
    s.GoesOver ('"' :: tail.take n) := by
  have hle : n ≤ tail.length := (textTail?_append h).1
  have hlength : ('"' :: tail.take n).length = n + 1 := by
    rw [List.length_cons, List.length_take_of_le hle]
  intro depth m hpos hm
  obtain ⟨m, rfl⟩ := Nat.exists_eq_succ_of_ne_zero (Nat.ne_of_gt hpos)
  rw [hlength] at hm ⊢
  have hm := Nat.le_of_succ_le_succ hm
  obtain ⟨quotation, hwalk, hends⟩ := exists_walk_take_of_textTail? h hm s depth
  refine ⟨quotation, ?_, hends.trans (by omega)⟩
  rw [List.take_succ_cons, List.take_take, Nat.min_eq_left hm, walk_cons, hquote]
  exact hwalk

theorem GoesOver.walk_eq (h : s.GoesOver quoted) (depth : Nat) :
    s.walk (depth, .outside) quoted = some (depth, .outside) := by
  cases quoted with
  | nil => rfl
  | cons c quoted =>
    obtain ⟨quotation, hwalk, hends⟩ := h depth (c :: quoted).length (by simp) (Nat.le_refl _)
    rw [List.take_length, hends.mpr rfl] at hwalk
    exact hwalk

end Scan

namespace Token

variable {before quoted rest : List Char}

/-- Where one of the scans of references comes to the quoted text outside of quoted text, it takes
it as a whole. In both scans, as many brackets are open behind each of its characters as before it,
and the first place behind it that is outside quoted text is its end. -/
structure TakenWhole (before quoted rest : List Char) : Prop where
  braces : ∀ depth, Scan.braces.walk (0, .outside) before = some (depth, .outside) →
    ∀ m, 0 < m → m ≤ quoted.length → ∃ quotation,
      Scan.braces.walk (0, .outside) (before ++ quoted.take m) = some (depth, quotation) ∧
        (quotation = .outside ↔ m = quoted.length)
  /-- The closing brace is the one that is found behind the quoted text. -/
  closes : ∀ depth, Scan.braces.walk (0, .outside) before = some (depth, .outside) →
    referenceTail? 1 .outside (before ++ (quoted ++ rest))
      = (referenceTail? (depth + 1) .outside rest).map (· + (before.length + quoted.length))
  commas : ∀ depth, standing before = (depth, .outside) →
    ∀ m, 0 < m → m ≤ quoted.length → ∃ quotation,
      standing (before ++ quoted.take m) = (depth, quotation) ∧
        (quotation = .outside ↔ m = quoted.length)
  /-- The quoted text stands in one part, and the rest is divided by itself. -/
  divides : ∀ depth, standing before = (depth, .outside) →
    parts (0, .outside) (before ++ (quoted ++ rest))
      = glued (parts (0, .outside) before)
          ((parts (depth, .outside) rest).modifyHead (quoted ++ ·))

theorem takenWhole_of_goesOver (hbraces : Scan.braces.GoesOver quoted)
    (hcommas : Scan.commas.GoesOver quoted) (before rest : List Char) :
    TakenWhole before quoted rest where
  braces depth h m hpos hm := by
    rw [Scan.walk_append h]
    exact hbraces depth m hpos hm
  closes depth h := by
    have hwalk : Scan.braces.walk (0, .outside) (before ++ quoted) = some (depth, .outside) := by
      rw [Scan.walk_append h]
      exact hbraces.walk_eq depth
    rw [← List.append_assoc, ← List.length_append]
    exact referenceTail?_of_walk hwalk rest
  commas depth h m hpos hm := by
    obtain ⟨quotation, hwalk, hends⟩ := hcommas depth m hpos hm
    refine ⟨quotation, ?_, hends⟩
    rw [standing, List.foldl_append, ← standing, h]
    exact Scan.foldl_pass_of_walk hwalk
  divides depth h := by
    rw [parts_append, ← standing, h]
    refine congrArg (glued _) ?_
    rw [parts, divide_of_walk (hcommas.walk_eq depth) rest]
    rfl

theorem textTail?_of_munch {tail : List Char} {kind : Kind} {n : Nat}
    (h : munch '"' tail = .ok (kind, n)) : textTail? tail = some n := by
  simp only [munch] at h
  split at h
  · next htail =>
    cases h
    exact htail
  · cases h

theorem takenWhole_encode (text before rest : List Char) :
    TakenWhole before (Quoted.encode text) rest := by
  have htail := textTail?_encodeBody text []
  have hbraces := Scan.goesOver_of_textTail? htail step_braces_quote
  have hcommas := Scan.goesOver_of_textTail? htail step_commas_quote
  rw [take_encodeBody] at hbraces hcommas
  exact takenWhole_of_goesOver hbraces hcommas before rest

/-- **Quoted texts.** A quoted text that would be made a token is taken as a whole by both scans of
a reference that come to it. What is written for a text is taken as a whole wherever it stands; at
the head of a source that falls into tokens it is the first of them, and it stands for the text. -/
theorem quoted_taken_whole :
    (∀ before tail n, munch '"' tail = .ok (.text, n) →
      TakenWhole before ('"' :: tail.take n) (tail.drop n)) ∧
    ∀ text rest, (∀ before, TakenWhole before (Quoted.encode text) rest) ∧
      ∀ offset,
        (∀ tokens, scan offset (Quoted.encode text ++ rest) = .ok tokens →
          tokens.head? = some ⟨.text, Quoted.encode text, offset⟩) ∧
        text? ⟨.text, Quoted.encode text, offset⟩ = some (String.ofList text) := by
  refine ⟨fun before tail n h ↦ ?_, fun text rest ↦ ⟨fun before ↦ ?_, fun offset ↦ ⟨?_, ?_⟩⟩⟩
  · have htail := textTail?_of_munch h
    exact takenWhole_of_goesOver (Scan.goesOver_of_textTail? htail step_braces_quote)
      (Scan.goesOver_of_textTail? htail step_commas_quote) _ _
  · exact takenWhole_encode text before rest
  · intro tokens h
    have hscan := @scans_quoted (fun _ ↦ True) text offset rest trivial
    rw [scan, hscan] at h
    cases hrest : scanFrom (offset + byteLength (Quoted.encode text)) 0 rest with
    | error error =>
      rw [hrest] at h
      cases h
    | ok more =>
      rw [hrest] at h
      cases h
      rfl
  · simp [text?, inner, Quoted.encode, Quoted.decode_encodeBody]

/-- Brackets, a comma and a quote in a quoted text that stands inside a parenthesis. -/
theorem quoted_taken_whole_brackets :
    munch '"' "),\x7d\\\",\"),1".toList = .ok (.text, 7) ∧
      Scan.braces.walk (0, .outside) "f,(".toList = some (0, .outside) ∧
      standing "f,(".toList = (1, .outside) ∧
      TakenWhole "f,(".toList "\"),\x7d\\\",\"".toList "),1".toList ∧
      referenceTail? 1 .outside "f,(\"),\x7d\\\",\"),1\x7d".toList = some 15 ∧
      parts (0, .outside) "f,(\"),\x7d\\\",\"),1".toList
        = ["f".toList, "(\"),\x7d\\\",\")".toList, "1".toList] := by
  have hmunch : munch '"' "),\x7d\\\",\"),1".toList = .ok (.text, 7) := rfl
  exact ⟨hmunch, rfl, rfl, quoted_taken_whole.1 "f,(".toList _ 7 hmunch, rfl, rfl⟩

end Token

end DiceNotation
