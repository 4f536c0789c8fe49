import DiceNotation.Expression
import DiceNotation.Token

/-!
# Reading expressions

Reading alternates between two states: an operand is due, or an operand has been read and an
operator may follow. A token settles at once which it is in, so reading is one pass over the
tokens with two stacks: the operators that still wait for their right operand, and, for each
bracket that is open, the operators that wait outside it.

An operator that arrives behind an operand first completes the waiting operators that bind at
least as tightly as it does itself, which makes operators of one class group from the left;
a closing bracket or a comma completes all that wait inside the bracket.

The arguments of a reference are sources of their own, shorter than the one they stand in, so
`Expression.readAt` ends by the length of the source.
-/

namespace DiceNotation

/-- An operator with what has been read of its operands, waiting for the rest. -/
inductive Waiting where
  | prefixed (op : PrefixOp)
  | binary (left : Expression) (op : BinaryOp)

/-- A bracket that is open; a list has the items before the last comma, in reverse. -/
inductive OpenBracket where
  | group
  | list (items : List Expression)

/-- A token with the expression that it denotes when it stands as an operand by itself, or the
error of standing there. -/
structure Term where
  token : Token
  operand : Except ReadError Expression

namespace Waiting

/-- How tightly the waiting operator binds. -/
def priority : Waiting → Priority
  | .prefixed op => op.priority
  | .binary _ op => op.priority

/-- The operation with its last operand. -/
def complete : Waiting → Expression → Expression
  | .prefixed op, e => .prefixed op e
  | .binary left op, e => .binary left op e

/-- Gives an operand to the waiting operators that bind at least as tightly as `priority`. -/
def yield (priority : Priority) (e : Expression) : List Waiting → Expression × List Waiting
  | [] => (e, [])
  | w :: rest =>
    if priority ≤ w.priority then yield priority (w.complete e) rest else (e, w :: rest)

/-- Gives an operand to all waiting operators. -/
def completeAll (e : Expression) (waiting : List Waiting) : Expression :=
  waiting.foldl (fun e w ↦ w.complete e) e

end Waiting

namespace Reading

/-- What can close a bracket, or follow inside it. -/
def closers : OpenBracket → List String
  | .group => [Token.Kind.closeParen.name]
  | .list _ => [Token.Kind.comma.name, Token.Kind.closeBracket.name]

/-- The error at a token that fits none of the expectations. -/
def unexpected (t : Token) (expected : List String) : ReadError :=
  ⟨t.position, .unexpectedToken (some t.slice) expected⟩

mutual

/-- Reads on where an operand is due. `stop` is the byte at which the source ends. -/
def operandDue (stop : Nat) (waiting : List Waiting)
    (outer : List (OpenBracket × List Waiting)) : List Term → Except ReadError Expression
  | [] => .error ⟨stop, .missingOperand⟩
  | ⟨t, operand⟩ :: rest =>
    match t.kind with
    | .operator =>
      match PrefixOp.ofSymbol? t.slice with
      | some op => operandDue stop (.prefixed op :: waiting) outer rest
      | none => .error ⟨t.position, .unknownOperator t.slice [.before]⟩
    | .openParen => operandDue stop [] ((.group, waiting) :: outer) rest
    | .openBracket => operandDue stop [] ((.list [], waiting) :: outer) rest
    | .closeBracket =>
      match waiting, outer with
      | [], (.list [], waiting) :: outer => operatorDue stop (.list []) waiting outer rest
      | _, _ => .error ⟨t.position, .missingOperand⟩
    | _ =>
      match operand with
      | .ok e => operatorDue stop e waiting outer rest
      | .error e => .error e

/-- Reads on behind the operand `e`. -/
def operatorDue (stop : Nat) (e : Expression) (waiting : List Waiting)
    (outer : List (OpenBracket × List Waiting)) : List Term → Except ReadError Expression
  | [] =>
    match outer with
    | [] => .ok (Waiting.completeAll e waiting)
    | (bracket, _) :: _ => .error ⟨stop, .unexpectedToken none (closers bracket)⟩
  | ⟨t, _⟩ :: rest =>
    if t.kind.beginsOperand then .error ⟨t.position, .expectedOperator⟩
    else if t.kind = .operator then
      match BinaryOp.ofSymbol? t.slice with
      | some op =>
        let (e, waiting) := Waiting.yield op.priority e waiting
        operandDue stop (.binary e op :: waiting) outer rest
      | none =>
        match PostfixOp.ofSymbol? t.slice with
        | some op =>
          let (e, waiting) := Waiting.yield op.priority e waiting
          operatorDue stop (.postfixed e op) waiting outer rest
        | none => .error ⟨t.position, .unknownOperator t.slice [.between, .after]⟩
    else
      match outer, t.kind with
      | (.group, outside) :: outer, .closeParen =>
        operatorDue stop (Waiting.completeAll e waiting) outside outer rest
      | (.list items, outside) :: outer, .closeBracket =>
        operatorDue stop (.list (Waiting.completeAll e waiting :: items).reverse) outside outer
          rest
      | (.list items, outside) :: outer, .comma =>
        operandDue stop []
          ((.list (Waiting.completeAll e waiting :: items), outside) :: outer) rest
      | (bracket, _) :: _, _ => .error (unexpected t (closers bracket))
      | [], _ => .error (unexpected t ["an operator"])

end

/-- The expression that terms make up; `stop` is the byte at which the source ends. -/
def expression (stop : Nat) (terms : List Term) : Except ReadError Expression :=
  if terms.isEmpty then .error ⟨stop, .emptyExpression⟩ else operandDue stop [] [] terms

end Reading

/-- What a token denotes as an operand, if its arguments were read with these outcomes. -/
def Token.operand (t : Token) (arguments : List (Except ReadError Expression)) :
    Except ReadError Expression :=
  match t.kind with
  | .number => .ok (.literal (.const (Token.numeral t.lexeme)))
  | .text => .ok (.text (String.ofList (Quoted.decode t.inner)))
  | .reference =>
    if t.name.isEmpty then .error ⟨t.position, .emptyReferenceName⟩
    else
      match arguments with
      | [] => .ok (.reference (String.ofList t.name))
      | arguments => (arguments.mapM id).map (.call (String.ofList t.name))
  | _ => .error ⟨t.position, .missingOperand⟩

/-- Reads a source that starts at byte `offset` of a larger one. -/
def Expression.readAt (offset : Nat) (source : List Char) : Except ReadError Expression :=
  match _h : Token.scan offset source with
  | .error e => .error e
  | .ok tokens =>
    Reading.expression (offset + byteLength source) <|
      tokens.attach.map fun ⟨t, _⟩ ↦
        ⟨t, t.operand (t.arguments.attach.map fun ⟨a, _⟩ ↦ readAt a.2 a.1)⟩
termination_by source.length
decreasing_by
  exact Nat.lt_of_lt_of_le (Token.length_lt_of_mem_arguments ‹_›)
    (Token.length_lexeme_le_of_mem_scanFrom ‹Token.scan offset source = .ok _› ‹_›)

/-- Reads a source. -/
def Expression.read (source : String) : Except ReadError Expression :=
  readAt 0 source.toList

/-- Reading in one equation: the tokens, with the operands they denote, make up the
expression. -/
theorem Expression.readAt_eq (offset : Nat) (source : List Char) :
    readAt offset source =
      match Token.scan offset source with
      | .error e => .error e
      | .ok tokens =>
        Reading.expression (offset + byteLength source) <|
          tokens.map fun t ↦ ⟨t, t.operand (t.arguments.map fun a ↦ readAt a.2 a.1)⟩ := by
  have inner (t : Token) : t.arguments.attach.map (fun a ↦ readAt a.1.2 a.1.1) =
      t.arguments.map fun a ↦ readAt a.2 a.1 :=
    List.attach_map_val (f := fun a : List Char × Nat ↦ readAt a.2 a.1)
  rw [readAt]
  split
  · next h => rw [h]
  · next h => simp [h, inner]

end DiceNotation
