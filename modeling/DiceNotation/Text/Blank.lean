/-!
# Blank characters

The characters that Unicode counts as white space, and the two ways in which they divide text:
around it, where they are dropped, and inside it, where the first of them parts a line in two.
-/

namespace DiceNotation.Blank

/-- Whether a character is white space. -/
def isBlank (c : Char) : Bool :=
  ('\t' ≤ c && c ≤ '\x0d') || c == ' ' || c == '\u0085' || c == '\u00a0' || c == '\u1680'
    || ('\u2000' ≤ c && c ≤ '\u200a') || c == '\u2028' || c == '\u2029' || c == '\u202f'
    || c == '\u205f' || c == '\u3000'

/-- The text without the blanks at both its ends. -/
def trim (text : List Char) : List Char :=
  ((text.dropWhile isBlank).reverse.dropWhile isBlank).reverse

/-- The text before the first blank and the text behind it, if there is one. -/
def cutAtBlank? : List Char → Option (List Char × List Char)
  | [] => none
  | c :: rest =>
    if isBlank c then some ([], rest)
    else (cutAtBlank? rest).map fun (before, behind) ↦ (c :: before, behind)

end DiceNotation.Blank
