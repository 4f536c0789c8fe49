import DiceNotation.Text.Graphic

/-!
# Characters and texts shown in messages

A message shows a piece of source between quotes, in such a way that every character can be seen:
the common controls, the backslash and the enclosing quote by a backslash and a letter, and every
other character that is not graphic by its code point.
-/

namespace DiceNotation.Shown

/-- A character that stands between quotes of the given kind. -/
def escape (quote c : Char) : String :=
  if c = '\x00' then "\\0"
  else if c = '\t' then "\\t"
  else if c = '\r' then "\\r"
  else if c = '\n' then "\\n"
  else if c = '\\' || c = quote then "\\" ++ c.toString
  else if isGraphic c then c.toString
  else "\\u\x7b" ++ String.ofList (Nat.toDigits 16 c.toNat) ++ "\x7d"

/-- A character between single quotes. -/
def char (c : Char) : String := "'" ++ escape '\'' c ++ "'"

/-- A text between double quotes. -/
def text (s : String) : String := "\"" ++ String.join (s.toList.map (escape '"')) ++ "\""

/-- Alternatives in a row: commas between them, and the last one after "or". -/
def alternatives : List String → String
  | [] => ""
  | [a] => a
  | [a, b] => a ++ " or " ++ b
  | items =>
    String.intercalate ", " items.dropLast ++ ", or " ++ (items.getLast?.getD "")

end DiceNotation.Shown
