import DiceNotation.Binary64.Decimal
import DiceNotation.ReadError
import DiceNotation.Text.Blank
import DiceNotation.Text.Quoted

/-!
# Tokens

The pieces that a source falls into: numbers, operators, brackets, commas, quoted texts and
references. A reference is one token from its opening brace to the closing brace that balances
it, however much source its arguments hold.

Whether a token can be taken off the head of a source, and how many characters it has, is decided
by `munch`; `scan` takes one token after the other, skips blanks, and keeps the byte at which each
token starts. Inside a reference and between its arguments, brackets and commas count only
outside quoted text; both places follow the same `Quotation`.
-/

namespace DiceNotation

/-- The number of bytes that characters take in a source. -/
def byteLength (cs : List Char) : Nat := cs.foldr (fun c n ↦ c.utf8Size + n) 0

/-- The kinds of tokens. -/
inductive Token.Kind where
  | number
  | operator
  | openParen
  | closeParen
  | openBracket
  | closeBracket
  | comma
  | text
  | reference
deriving DecidableEq, Repr

/-- A piece of source and the byte at which it starts. -/
structure Token where
  kind : Token.Kind
  lexeme : List Char
  position : Nat
deriving DecidableEq

/-! ## Quotation -/

/-- Where a place in a source stands with respect to quoted text. -/
inductive Quotation where
  | outside
  | inside
  /-- Behind a backslash, which takes the next character for itself. -/
  | escaped
deriving DecidableEq, Repr

/-- Where the place behind a character stands. -/
def Quotation.step : Quotation → Char → Quotation
  | .outside, c => if c = '"' then .inside else .outside
  | .inside, c => if c = '\\' then .escaped else if c = '"' then .outside else .inside
  | .escaped, _ => .inside

namespace Token

/-! ## Lengths of tokens

Each of these is given what stands behind the first character of a token and finds how many
characters of it belong to the token. -/

/-- The rest of a number: digits, and a point with digits behind it. -/
def numberTail (cs : List Char) : Nat :=
  let whole := (cs.takeWhile Char.isDigit).length
  match cs.drop whole with
  | '.' :: rest =>
    match (rest.takeWhile Char.isDigit).length with
    | 0 => whole
    | places + 1 => whole + 1 + (places + 1)
  | _ => whole

/-- The rest of a quoted text. A backslash takes the next character with it, which cannot be the
end of a line. -/
def textTail? : List Char → Option Nat
  | [] => none
  | '"' :: _ => some 1
  | ['\\'] => none
  | '\\' :: c :: rest => if c = '\n' then none else (textTail? rest).map (· + 2)
  | _ :: rest => (textTail? rest).map (· + 1)

/-- The rest of a reference, when as many braces as `depth` are open. -/
def referenceTail? : Nat → Quotation → List Char → Option Nat
  | _, _, [] => none
  | depth, .outside, '{' :: rest => (referenceTail? (depth + 1) .outside rest).map (· + 1)
  | depth, .outside, '}' :: rest =>
    if depth ≤ 1 then some 1 else (referenceTail? (depth - 1) .outside rest).map (· + 1)
  | depth, quotation, c :: rest => (referenceTail? depth (quotation.step c) rest).map (· + 1)

/-- How many characters the longest operator at the head of a source has; none if there is no
operator. -/
def operatorLength (cs : List Char) : Nat :=
  operatorSymbols.foldl
    (fun longest s ↦ if s.toList.isPrefixOf cs then max longest s.length else longest) 0

/-- The kind of the token that starts with `c`, and how many of the characters behind `c` belong
to it. -/
def munch (c : Char) (rest : List Char) : Except ReadError.Cause (Kind × Nat) :=
  match c with
  | '(' => .ok (.openParen, 0)
  | ')' => .ok (.closeParen, 0)
  | '[' => .ok (.openBracket, 0)
  | ']' => .ok (.closeBracket, 0)
  | ',' => .ok (.comma, 0)
  | '"' =>
    match textTail? rest with
    | some n => .ok (.text, n)
    | none => .error .unterminatedText
  | '{' =>
    match referenceTail? 1 .outside rest with
    | some n => .ok (.reference, n)
    | none => .error .unterminatedReference
  | c =>
    if c.isDigit then .ok (.number, numberTail rest)
    else
      match operatorLength (c :: rest) with
      | 0 => .error (.unexpectedCharacter c)
      | n + 1 => .ok (.operator, n)

/-- Whether a character may stand between tokens. -/
def isSpace (c : Char) : Bool := c == ' ' || c == '\t' || c == '\r' || c == '\n'

/-- The tokens of a source whose first character stands at `position`, after passing over the
first `skip` characters. -/
def scanFrom : (position skip : Nat) → List Char → Except ReadError (List Token)
  | _, _, [] => .ok []
  | position, skip + 1, c :: rest => scanFrom (position + c.utf8Size) skip rest
  | position, 0, c :: rest =>
    if isSpace c then scanFrom (position + c.utf8Size) 0 rest
    else
      match munch c rest with
      | .error cause => .error ⟨position, cause⟩
      | .ok (kind, n) =>
        match scanFrom (position + c.utf8Size) n rest with
        | .error e => .error e
        | .ok tokens => .ok (⟨kind, c :: rest.take n, position⟩ :: tokens)

/-- The tokens of a source that starts at byte `offset` of a larger one. -/
def scan (offset : Nat) (source : List Char) : Except ReadError (List Token) :=
  scanFrom offset 0 source

theorem length_lexeme_le_of_mem_scanFrom {source : List Char} {position skip : Nat}
    {tokens : List Token} (h : scanFrom position skip source = .ok tokens) {t : Token}
    (ht : t ∈ tokens) : t.lexeme.length ≤ source.length := by
  induction source generalizing position skip tokens with
  | nil => simp [scanFrom] at h; subst h; simp at ht
  | cons c rest ih =>
    cases skip with
    | succ skip =>
      exact Nat.le_succ_of_le (ih h ht)
    | zero =>
      rw [scanFrom] at h
      split at h
      · exact Nat.le_succ_of_le (ih h ht)
      · split at h
        · cases h
        · split at h
          · cases h
          · next htokens =>
            cases h
            rcases List.mem_cons.1 ht with rfl | ht
            · exact Nat.succ_le_succ (List.length_take_le' _ _)
            · exact Nat.le_succ_of_le (ih htokens ht)

/-! ## What tokens hold -/

/-- The name of a kind in messages. -/
def Kind.name : Kind → String
  | .number => "<number>"
  | .operator => "<operator>"
  | .openParen => "'('"
  | .closeParen => "')'"
  | .openBracket => "'['"
  | .closeBracket => "']'"
  | .comma => "','"
  | .text => "<string>"
  | .reference => "<reference>"

/-- Whether a token of this kind can only begin an operand. -/
def Kind.beginsOperand : Kind → Bool
  | .number | .text | .reference | .openParen | .openBracket => true
  | _ => false

/-- The lexeme as a string. -/
def slice (t : Token) : String := String.ofList t.lexeme

/-- The lexeme without the mark at either end. -/
def inner (t : Token) : List Char := t.lexeme.tail.dropLast

/-- The number that a numeral stands for. -/
def numeral (lexeme : List Char) : Binary64 :=
  .ofDecimal (lexeme.takeWhile (· != '.')) ((lexeme.dropWhile (· != '.')).drop 1)

/-- The number that a number token stands for. -/
def number? (t : Token) : Option Binary64 :=
  match t.kind with
  | .number => some (numeral t.lexeme)
  | _ => none

/-- The text that a quoted text stands for. -/
def text? (t : Token) : Option String :=
  match t.kind with
  | .text => some (String.ofList (Quoted.decode t.inner))
  | _ => none

/-! ## References

The commas that divide a reference are those outside quoted text and outside brackets of its
own. -/

/-- How many brackets are open behind a character; a closing one too many opens none. -/
def nesting (depth : Nat) (c : Char) : Nat :=
  if c = '{' ∨ c = '[' ∨ c = '(' then depth + 1
  else if c = '}' ∨ c = ']' ∨ c = ')' then depth - 1
  else depth

/-- The text up to the first dividing comma, and the texts between the others. -/
def divide : Nat → Quotation → List Char → List Char × List (List Char)
  | _, _, [] => ([], [])
  | depth, quotation, c :: rest =>
    if quotation = .outside ∧ depth = 0 ∧ c = ',' then
      let (part, parts) := divide 0 .outside rest
      ([], part :: parts)
    else
      let depth := if quotation = .outside then nesting depth c else depth
      let (part, parts) := divide depth (quotation.step c) rest
      (c :: part, parts)

/-- Texts that follow one another with a byte between them, each with its own first byte. -/
def located (position : Nat) : List (List Char) → List (List Char × Nat)
  | [] => []
  | part :: rest => (part, position) :: located (position + byteLength part + 1) rest

/-- The name of a reference token. -/
def name (t : Token) : List Char := Blank.trim (divide 0 .outside t.inner).1

/-- The sources of the arguments of a reference token, each with its first byte. -/
def arguments (t : Token) : List (List Char × Nat) :=
  let (name, parts) := divide 0 .outside t.inner
  located (t.position + 1 + byteLength name + 1) parts

theorem fst_mem_of_mem_located {position : Nat} {parts : List (List Char)}
    {a : List Char × Nat} (h : a ∈ located position parts) : a.1 ∈ parts := by
  induction parts generalizing position with
  | nil => simp [located] at h
  | cons part rest ih =>
    rcases List.mem_cons.1 h with rfl | h
    · exact List.mem_cons_self
    · exact List.mem_cons_of_mem _ (ih h)

/-- A part and the comma before it fit into the text that was divided. -/
theorem length_lt_of_mem_divide {source part : List Char} {depth : Nat} {quotation : Quotation}
    (h : part ∈ (divide depth quotation source).2) : part.length < source.length := by
  suffices hs : (divide depth quotation source).1.length ≤ source.length ∧
      ∀ part ∈ (divide depth quotation source).2, part.length < source.length from hs.2 part h
  clear h
  induction source generalizing depth quotation with
  | nil => simp [divide]
  | cons c rest ih =>
    rw [divide]
    split
    · have := @ih 0 .outside
      refine ⟨Nat.zero_le _, fun p hp ↦ ?_⟩
      rcases List.mem_cons.1 hp with rfl | hp
      · exact Nat.lt_succ_of_le this.1
      · exact Nat.lt_succ_of_lt (this.2 p hp)
    · have := @ih (if quotation = .outside then nesting depth c else depth) (quotation.step c)
      exact ⟨Nat.succ_le_succ this.1, fun p hp ↦ Nat.lt_succ_of_lt (this.2 p hp)⟩

/-- An argument is shorter than the token that it stands in. -/
theorem length_lt_of_mem_arguments {t : Token} {a : List Char × Nat} (h : a ∈ t.arguments) :
    a.1.length < t.lexeme.length := by
  have hd := length_lt_of_mem_divide (fst_mem_of_mem_located h)
  have hi : t.inner.length ≤ t.lexeme.length := by
    simp [inner]; omega
  exact Nat.lt_of_lt_of_le hd hi

end Token

end DiceNotation
