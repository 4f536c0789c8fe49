import DiceNotation.Number
import DiceNotation.Text.Quoted

/-!
# Values

What an expression evaluates to: a number, a list of values or a text. Operators read any value
as the kind they need: as one number (`total`), as a list (`items`) or as a text (`asText`).

A value has two written forms. Its code is source text that evaluates to it again; its display is
for readers, gives lists of numbers their total and leaves out what is nested too deep.
-/

namespace DiceNotation

/-- The result of evaluating an expression. -/
inductive Value where
  | number (x : Number)
  | list (items : List Value)
  | text (s : String)

namespace Value

instance : Inhabited Value := ⟨.list []⟩

/-! ## Comparing -/

mutual

/-- Values are equal if they are built alike from equal numbers and texts. -/
def equals : Value → Value → Bool
  | .number x, .number y => x == y
  | .list xs, .list ys => listEquals xs ys
  | .text s, .text t => s == t
  | _, _ => false

/-- Whether two lists are equal item by item. -/
def listEquals : List Value → List Value → Bool
  | [], [] => true
  | x :: xs, y :: ys => equals x y && listEquals xs ys
  | _, _ => false

end

instance : BEq Value := ⟨equals⟩

/-! ## One number

A list is the sum of its items, a text the sum of its code points. -/

/-- The code points of a text, as constants. -/
def codePoints (s : String) : List Number := s.toList.map fun c ↦ Number.ofNat c.toNat

mutual

/-- The value as one number. -/
def total : Value → Number
  | .number x => x
  | .list items => totalFrom Number.zero items
  | .text s => Number.sum (codePoints s)

/-- Adds the items up from the left. -/
def totalFrom (start : Number) : List Value → Number
  | [] => start
  | item :: rest => totalFrom (start + total item) rest

end

theorem totalFrom_eq_foldl (start : Number) (items : List Value) :
    totalFrom start items = (items.map total).foldl (· + ·) start := by
  induction items generalizing start with
  | nil => rfl
  | cons item rest ih => rw [totalFrom, ih, List.map_cons, List.foldl_cons]

theorem total_list (items : List Value) : (list items).total = Number.sum (items.map total) := by
  rw [total, totalFrom_eq_foldl, Number.sum]

/-! ## Lists and texts -/

/-- The value as a list: anything but a list is its only item. -/
def items : Value → List Value
  | .list items => items
  | v => [v]

/-- The number of items. -/
def size (v : Value) : Nat := v.items.length

/-- The character with this code point; the replacement character stands in where there is
none. -/
def character (x : Binary64) : Char :=
  if x.isNegative || (Binary64.ofNat (UInt32.size - 1)).lt x then '\ufffd'
  else
    let n := x.toNat (UInt32.size - 1)
    if n.isValidChar then Char.ofNat n else '\ufffd'

/-- The value as a text: a list gives one character for each item. -/
def asText : Value → String
  | .number x => x.text
  | .list items => String.ofList (items.map fun item ↦ character item.total.value.floor)
  | .text s => s

/-- Whether the value is a text. -/
def isText : Value → Bool
  | .text _ => true
  | _ => false

mutual

/-- Whether there is a text anywhere in the value. -/
def containsText : Value → Bool
  | .number _ => false
  | .list items => anyContainsText items
  | .text _ => true

/-- Whether there is a text anywhere in one of the values. -/
def anyContainsText : List Value → Bool
  | [] => false
  | item :: rest => containsText item || anyContainsText rest

end

mutual

/-- Whether every number in the value is finite. -/
def isFinite : Value → Bool
  | .number x => x.value.isFinite
  | .list items => allFinite items
  | .text _ => true

/-- Whether every number in the values is finite. -/
def allFinite : List Value → Bool
  | [] => true
  | item :: rest => isFinite item && allFinite rest

end

mutual

/-- Negates every number in the value; a text becomes the list of its negated code points. -/
def negate : Value → Value
  | .number x => .number (-x)
  | .list items => .list (negateAll items)
  | .text s => .list ((codePoints s).map fun x ↦ .number (-x))

/-- Negates every number in the values. -/
def negateAll : List Value → List Value
  | [] => []
  | item :: rest => negate item :: negateAll rest

end

/-- What is done to each item from the first to the last is what `map` does. -/
theorem eq_map_of_cons {α β : Type} {f : α → β} {all : List α → List β} (hnil : all [] = [])
    (hcons : ∀ a rest, all (a :: rest) = f a :: all rest) (items : List α) :
    all items = items.map f := by
  induction items with
  | nil => rw [hnil, List.map_nil]
  | cons a rest ih => rw [hcons, ih, List.map_cons]

theorem negateAll_eq_map (items : List Value) : negateAll items = items.map negate :=
  eq_map_of_cons rfl (fun _ _ ↦ rfl) items

/-- The sum of two numbers, the texts of which one is a text one behind the other, and otherwise
the items of the one before those of the other. -/
def join : Value → Value → Value
  | .number x, .number y => .number (x + y)
  | .text s, w => .text (s ++ w.asText)
  | v, .text t => .text (v.asText ++ t)
  | v, w => .list (v.items ++ w.items)

/-! ## Written forms -/

/-- A text in quotes. -/
def quoted (s : String) : String := String.ofList (Quoted.encode s.toList)

/-- What is written item by item, with a separator behind each item but the last, is the texts of
the items with separators between them. -/
theorem eq_intercalate_map {α : Type} {separator : String} {texts : List α → String}
    {text : α → String} (hnil : texts [] = "") (hsingle : ∀ a, texts [a] = text a)
    (hcons : ∀ a b rest, texts (a :: b :: rest) = text a ++ separator ++ texts (b :: rest))
    (items : List α) : texts items = separator.intercalate (items.map text) := by
  induction items with
  | nil => rw [hnil, List.map_nil, String.intercalate_nil]
  | cons a items ih =>
    cases items with
    | nil => rw [hsingle, List.map_singleton, String.intercalate_singleton]
    | cons b items =>
      rw [hcons, ih]
      exact String.intercalate_cons_cons.symm

mutual

/-- The source text of the value. -/
def code : Value → String
  | .number x => x.code
  | .list items => "[" ++ codes items ++ "]"
  | .text s => quoted s

/-- The source texts of the items with commas between them. -/
def codes : List Value → String
  | [] => ""
  | [item] => code item
  | item :: rest => code item ++ "," ++ codes rest

end

theorem codes_eq_intercalate (items : List Value) :
    codes items = ",".intercalate (items.map code) :=
  eq_intercalate_map rfl (fun _ ↦ rfl) (fun _ _ _ ↦ rfl) items

/-- What stands before the items of a list in its display: their total, unless there is a text
among them. -/
def heading (items : List Value) : String :=
  if anyContainsText items then "" else (list items).total.text ++ " "

mutual

/-- The text for readers, with lists shown down to the given depth. -/
def display (depth : Nat) : Value → String
  | .number x => x.text
  | .list [] => "[]"
  | .list (item :: rest) =>
    match depth with
    | 0 => heading (item :: rest) ++ "[...]"
    | depth + 1 => heading (item :: rest) ++ "[" ++ displays depth (item :: rest) ++ "]"
  | .text s => quoted s

/-- The displays of the items with commas between them. -/
def displays (depth : Nat) : List Value → String
  | [] => ""
  | [item] => display depth item
  | item :: rest => display depth item ++ ", " ++ displays depth rest

end

theorem displays_eq_intercalate (depth : Nat) (items : List Value) :
    displays depth items = ", ".intercalate (items.map (display depth)) :=
  eq_intercalate_map rfl (fun _ ↦ rfl) (fun _ _ _ ↦ rfl) items

/-- How deep lists are shown where nothing else is asked for. -/
def usualDepth : Nat := 2

end Value

end DiceNotation
