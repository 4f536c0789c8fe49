/-!
# Quoted text

A text is written between double quotes, with a backslash before each quote and each backslash
in it. Reading takes whatever follows a backslash for itself, so it also accepts a backslash
where none is needed; a backslash at the very end stands for nothing.

`decode_encodeBody` says that reading what was written gives the text back.
-/

namespace DiceNotation.Quoted

/-- The characters of a text as they are written between the quotes. -/
def encodeBody : List Char → List Char
  | [] => []
  | c :: rest =>
    if c = '"' ∨ c = '\\' then '\\' :: c :: encodeBody rest else c :: encodeBody rest

/-- The text that is written with these characters between the quotes. -/
def decode : List Char → List Char
  | [] => []
  | ['\\'] => []
  | '\\' :: c :: rest => c :: decode rest
  | c :: rest => c :: decode rest

/-- A text with its quotes. -/
def encode (text : List Char) : List Char := '"' :: encodeBody text ++ ['"']

theorem decode_encodeBody (text : List Char) : decode (encodeBody text) = text := by
  induction text with
  | nil => rfl
  | cons c rest ih =>
    by_cases h : c = '"' ∨ c = '\\'
    · simp [encodeBody, h, decode, ih]
    · have hb : c ≠ '\\' := fun hc ↦ h (.inr hc)
      rw [encodeBody, if_neg h]
      cases hr : encodeBody rest with
      | nil => rw [hr] at ih; simp [decode, hb, ← ih]
      | cons d ds => rw [hr] at ih; simp [decode, hb, ih]

end DiceNotation.Quoted
