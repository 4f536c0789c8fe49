import DiceNotation.Proofs.Scanning
import DiceNotation.Reading

/-!
# Texts that read as one operand

A text *spells* an expression if its tokens, wherever an operand is due, are read as this
expression, whatever operators wait and brackets are open (`Spells`). Such texts can be put
together without regard to priorities: in parentheses with an operator, in a list, or as the
arguments of a reference. Reading a whole source is the case in which nothing waits
(`Spells.readAt_eq`).
-/

namespace DiceNotation

-- A property of all members is decided by going through them, whatever is imported.
attribute [local instance (high)] List.decidableBAll Option.decidableForallMem
  Option.decidableExistsMem

open Token Reading

/-! ## Symbols -/

theorem PrefixOp.symbol_mem (op : PrefixOp) : op.symbol ∈ operatorSymbols := by
  cases op <;> decide

theorem BinaryOp.symbol_mem (op : BinaryOp) : op.symbol ∈ operatorSymbols := by
  cases op with
  | rollUntil cmp => cases cmp <;> decide
  | _ => decide

theorem PostfixOp.symbol_mem (op : PostfixOp) : op.symbol ∈ operatorSymbols := by
  cases op
  decide

theorem endsNumeral_symbol {s : String} (hs : s ∈ operatorSymbols) (rest : List Char) :
    Binary64.EndsNumeral (s.toList ++ rest) := by
  have hhead : ∀ s ∈ operatorSymbols, ∃ c ∈ s.toList.head?, c.isDigit = false ∧ c ≠ '.' := by
    decide
  obtain ⟨c, hc, h⟩ := hhead s hs
  intro d hd
  rw [List.head?_append, Option.mem_def.mp hc] at hd
  cases hd
  exact h

/-! ## Terms of an operand -/

/-- A token with what it denotes as an operand. -/
def Token.term (t : Token) : Term :=
  ⟨t, t.operand (t.arguments.map fun a ↦ Expression.readAt a.2 a.1)⟩

/-- Where an operand is due, the terms are read as this one. -/
def ReadsAs (terms : List Term) (e : Expression) : Prop :=
  ∀ stop waiting outer rest,
    operandDue stop waiting outer (terms ++ rest) = operatorDue stop e waiting outer rest

/-- The text falls into tokens that are read as the operand `e`. -/
def Spells (text : List Char) (e : Expression) : Prop :=
  ∀ position, ∃ tokens, Scans Binary64.EndsNumeral position text tokens ∧
    ReadsAs (tokens.map Token.term) e

theorem endsNumeral_nil : Binary64.EndsNumeral [] := fun _ hc ↦ absurd hc (by simp)

/-- A source that spells an expression is read as it, wherever it starts. -/
theorem Spells.readAt_eq {text : List Char} {e : Expression} (h : Spells text e) (offset : Nat) :
    Expression.readAt offset text = .ok e := by
  obtain ⟨tokens, hscan, hread⟩ := h offset
  rw [Expression.readAt_eq, hscan.scan_eq endsNumeral_nil]
  change Reading.expression _ (tokens.map Token.term) = _
  have hdue := hread (offset + byteLength text) [] [] []
  rw [List.append_nil] at hdue
  rw [Reading.expression, if_neg, hdue]
  · rfl
  · intro hnil
    rw [List.isEmpty_iff] at hnil
    rw [hnil] at hdue
    cases hdue

theorem readsAs_singleton {t : Token} {e : Expression}
    (hk : t.kind = .number ∨ t.kind = .text ∨ t.kind = .reference)
    (h : t.term.operand = .ok e) : ReadsAs [t.term] e := by
  intro stop waiting outer rest
  obtain ⟨kind, lexeme, position⟩ := t
  rcases hk with hk | hk | hk <;> cases hk <;>
    simp only [Token.term, List.singleton_append, operandDue] at h ⊢ <;> rw [h]

theorem spells_numeral {text : List Char} (h : Binary64.IsNumeral text) :
    Spells text (.literal (.const (Token.numeral text))) :=
  fun position ↦ ⟨_, scans_numeral h position, readsAs_singleton (.inl rfl) rfl⟩

theorem spells_quoted (text : List Char) :
    Spells (Quoted.encode text) (.text (String.ofList text)) := by
  intro position
  refine ⟨_, scans_quoted text position, readsAs_singleton (.inr (.inl rfl)) ?_⟩
  have hinner : (Quoted.encode text).tail.dropLast = Quoted.encodeBody text := by
    simp [Quoted.encode]
  simp [Token.term, Token.operand, Token.inner, hinner, Quoted.decode_encodeBody]

/-! ## Steps of reading -/

section Steps

variable (stop position : Nat) (lexeme : List Char) (waiting : List Waiting)
  (outer : List (OpenBracket × List Waiting)) (rest : List Term) (e : Expression)

theorem operandDue_openParen :
    operandDue stop waiting outer (Token.term ⟨.openParen, lexeme, position⟩ :: rest)
      = operandDue stop [] ((.group, waiting) :: outer) rest := rfl

theorem operandDue_openBracket :
    operandDue stop waiting outer (Token.term ⟨.openBracket, lexeme, position⟩ :: rest)
      = operandDue stop [] ((.list [], waiting) :: outer) rest := rfl

theorem operandDue_closeBracket :
    operandDue stop [] ((.list [], waiting) :: outer)
        (Token.term ⟨.closeBracket, lexeme, position⟩ :: rest)
      = operatorDue stop (.list []) waiting outer rest := rfl

theorem operandDue_prefix (op : PrefixOp) :
    operandDue stop waiting outer (Token.term ⟨.operator, op.symbol.toList, position⟩ :: rest)
      = operandDue stop (.prefixed op :: waiting) outer rest := by
  simp only [Token.term, operandDue, Token.slice, String.ofList_toList,
    PrefixOp.ofSymbol?_symbol]

theorem operatorDue_binary (op : BinaryOp) :
    operatorDue stop e waiting outer
        (Token.term ⟨.operator, op.symbol.toList, position⟩ :: rest)
      = operandDue stop (.binary (Waiting.yield op.priority e waiting).1 op ::
          (Waiting.yield op.priority e waiting).2) outer rest := by
  simp [Token.term, operatorDue, Token.slice, BinaryOp.ofSymbol?_symbol, Kind.beginsOperand]

theorem operatorDue_postfix (op : PostfixOp) :
    operatorDue stop e waiting outer
        (Token.term ⟨.operator, op.symbol.toList, position⟩ :: rest)
      = operatorDue stop (.postfixed (Waiting.yield op.priority e waiting).1 op)
          (Waiting.yield op.priority e waiting).2 outer rest := by
  have hbinary : BinaryOp.ofSymbol? op.symbol = none := by
    cases op
    decide
  simp [Token.term, operatorDue, Token.slice, hbinary, PostfixOp.ofSymbol?_symbol,
    Kind.beginsOperand]

theorem operatorDue_closeParen (outside : List Waiting) :
    operatorDue stop e waiting ((.group, outside) :: outer)
        (Token.term ⟨.closeParen, lexeme, position⟩ :: rest)
      = operatorDue stop (Waiting.completeAll e waiting) outside outer rest := rfl

theorem operatorDue_comma (items : List Expression) (outside : List Waiting) :
    operatorDue stop e waiting ((.list items, outside) :: outer)
        (Token.term ⟨.comma, lexeme, position⟩ :: rest)
      = operandDue stop [] ((.list (Waiting.completeAll e waiting :: items), outside) :: outer)
          rest := rfl

theorem operatorDue_closeBracket (items : List Expression) (outside : List Waiting) :
    operatorDue stop e waiting ((.list items, outside) :: outer)
        (Token.term ⟨.closeBracket, lexeme, position⟩ :: rest)
      = operatorDue stop (.list (Waiting.completeAll e waiting :: items).reverse) outside outer
          rest := rfl

end Steps

/-! ## Operations in parentheses -/

theorem Spells.prefixed {text : List Char} {e : Expression} (h : Spells text e)
    (ht : ∀ rest, EndsOperator (text ++ rest)) (op : PrefixOp) :
    Spells ('(' :: (op.symbol.toList ++ (text ++ [')']))) (.prefixed op e) := by
  intro position
  obtain ⟨tokens, hscan, hread⟩ := h (position + byteLength ['('] + byteLength op.symbol.toList)
  have hbody := hscan.append_mark isMark_closeParen Binary64.EndsNumeral
  have hop := (scans_operator op.symbol_mem (position + byteLength ['('])).append hbody
    fun rest _ ↦ by rw [List.append_assoc]; exact ht _
  refine ⟨_, isMark_openParen.scans_cons hop, ?_⟩
  intro stop waiting outer rest
  simp only [List.map_append, List.map_cons, List.map_nil, List.append_assoc, List.cons_append,
    List.nil_append]
  rw [operandDue_openParen, operandDue_prefix, hread, operatorDue_closeParen]
  rfl

theorem Spells.binary {text text' : List Char} {e e' : Expression} (h : Spells text e)
    (h' : Spells text' e') (ht : ∀ rest, EndsOperator (text' ++ rest)) (op : BinaryOp) :
    Spells ('(' :: (text ++ (op.symbol.toList ++ (text' ++ [')'])))) (.binary e op e') := by
  intro position
  obtain ⟨tokens, hscan, hread⟩ := h (position + byteLength ['('])
  obtain ⟨tokens', hscan', hread'⟩ :=
    h' (position + byteLength ['('] + byteLength text + byteLength op.symbol.toList)
  have hbody := hscan'.append_mark isMark_closeParen Binary64.EndsNumeral
  have hop := (scans_operator op.symbol_mem
    (position + byteLength ['('] + byteLength text)).append hbody
    fun rest _ ↦ by rw [List.append_assoc]; exact ht _
  have hleft := hscan.append hop fun rest _ ↦ by
    rw [List.append_assoc]
    exact endsNumeral_symbol op.symbol_mem _
  refine ⟨_, isMark_openParen.scans_cons hleft, ?_⟩
  intro stop waiting outer rest
  simp only [List.map_append, List.map_cons, List.map_nil, List.append_assoc, List.cons_append,
    List.nil_append]
  rw [operandDue_openParen, hread, operatorDue_binary, hread', operatorDue_closeParen]
  rfl

theorem Spells.postfixed {text : List Char} {e : Expression} (h : Spells text e)
    (op : PostfixOp) : Spells ('(' :: (text ++ (op.symbol.toList ++ [')']))) (.postfixed e op) := by
  intro position
  obtain ⟨tokens, hscan, hread⟩ := h (position + byteLength ['('])
  have hclose := isMark_closeParen.scans Binary64.EndsNumeral
    (position + byteLength ['('] + byteLength text + byteLength op.symbol.toList)
  have hop := (scans_operator op.symbol_mem
    (position + byteLength ['('] + byteLength text)).append hclose
    fun rest _ ↦ isMark_closeParen.endsOperator rest
  have hleft := hscan.append hop fun rest _ ↦ by
    rw [List.append_assoc]
    exact endsNumeral_symbol op.symbol_mem _
  refine ⟨_, isMark_openParen.scans_cons hleft, ?_⟩
  intro stop waiting outer rest
  simp only [List.map_append, List.map_cons, List.map_nil, List.append_assoc, List.cons_append,
    List.nil_append]
  rw [operandDue_openParen, hread, operatorDue_postfix, operatorDue_closeParen]
  rfl

/-! ## Lists -/

/-- Behind an opening bracket, the text is read as the items of a list. -/
def SpellsItems (text : List Char) (items : List Expression) : Prop :=
  ∀ position, ∃ tokens, Scans Binary64.EndsNumeral position text tokens ∧
    ∀ stop before close outside outer rest, close.kind = .closeBracket →
      operandDue stop [] ((.list before, outside) :: outer)
          (tokens.map Token.term ++ Token.term close :: rest)
        = operatorDue stop (.list (before.reverse ++ items)) outside outer rest

theorem Spells.item {text : List Char} {e : Expression} (h : Spells text e) :
    SpellsItems text [e] := by
  intro position
  obtain ⟨tokens, hscan, hread⟩ := h position
  refine ⟨tokens, hscan, ?_⟩
  rintro stop before ⟨kind, lexeme, position⟩ outside outer rest ⟨⟩
  rw [hread, operatorDue_closeBracket, List.reverse_cons]
  rfl

theorem Spells.items {text text' : List Char} {e : Expression} {items : List Expression}
    (h : Spells text e) (h' : SpellsItems text' items) :
    SpellsItems (text ++ ',' :: text') (e :: items) := by
  intro position
  obtain ⟨tokens, hscan, hread⟩ := h position
  obtain ⟨tokens', hscan', hread'⟩ := h' (position + byteLength text + byteLength [','])
  refine ⟨_, hscan.append (isMark_comma.scans_cons hscan') fun rest _ ↦
    isMark_comma.endsNumeral _, ?_⟩
  intro stop before close outside outer rest hclose
  simp only [List.map_append, List.map_cons, List.append_assoc, List.cons_append]
  rw [hread, operatorDue_comma, hread' _ _ _ _ _ _ hclose]
  simp [Waiting.completeAll]

theorem SpellsItems.list {text : List Char} {items : List Expression}
    (h : SpellsItems text items) : Spells ('[' :: (text ++ [']'])) (.list items) := by
  intro position
  obtain ⟨tokens, hscan, hread⟩ := h (position + byteLength ['['])
  refine ⟨_, isMark_openBracket.scans_cons
    (hscan.append_mark isMark_closeBracket Binary64.EndsNumeral), ?_⟩
  intro stop waiting outer rest
  simp only [List.map_append, List.map_cons, List.map_nil, List.append_assoc, List.cons_append,
    List.nil_append]
  rw [operandDue_openBracket, hread _ _ _ _ _ _ rfl]
  rfl

theorem spells_emptyList : Spells ['[', ']'] (.list []) := by
  intro position
  refine ⟨_, isMark_openBracket.scans_cons (isMark_closeBracket.scans _ _), ?_⟩
  intro stop waiting outer rest
  simp only [List.map_cons, List.map_nil, List.cons_append, List.nil_append]
  rw [operandDue_openBracket, operandDue_closeBracket]

/-! ## Blanks around a text

Only blanks are taken away from the ends of a text, and a blank means nothing to the scans of
references. -/

namespace Blank

/-- There are no blanks at the ends of the text. -/
structure Trimmed (text : List Char) : Prop where
  head : ∀ c ∈ text.head?, isBlank c = false
  last : ∀ c ∈ text.getLast?, isBlank c = false

theorem dropWhile_eq_self {p : Char → Bool} {text : List Char}
    (h : ∀ c ∈ text.head?, p c = false) : text.dropWhile p = text := by
  cases text with
  | nil => rfl
  | cons c text => rw [List.dropWhile_cons_of_neg (by simp [h c rfl])]

theorem Trimmed.trim_eq {text : List Char} (h : Trimmed text) : trim text = text := by
  rw [trim, dropWhile_eq_self h.head, dropWhile_eq_self, List.reverse_reverse]
  rw [List.head?_reverse]
  exact h.last

theorem head_dropWhile (text : List Char) :
    ∀ c ∈ (text.dropWhile isBlank).head?, isBlank c = false := by
  intro c hc
  have hhead := List.head?_dropWhile_not isBlank text
  rw [Option.mem_def.mp hc] at hhead
  exact hhead

theorem trimmed_trim (text : List Char) : Trimmed (trim text) where
  head := by
    -- The text without the blanks at its end still has the same head, if anything is left of it.
    have hprefix : trim text <+: text.dropWhile isBlank := by
      rw [trim, ← List.reverse_suffix, List.reverse_reverse]
      exact List.dropWhile_suffix isBlank
    obtain ⟨behind, hbehind⟩ := hprefix
    intro c hc
    refine head_dropWhile text c ?_
    rw [← hbehind, List.head?_append, Option.mem_def.mp hc]
    rfl
  last := by
    rw [trim, List.getLast?_reverse]
    exact head_dropWhile _

theorem exists_append_trim (text : List Char) :
    ∃ before behind, text = before ++ (trim text ++ behind) ∧
      (∀ c ∈ before, isBlank c = true) ∧ ∀ c ∈ behind, isBlank c = true := by
  have hblank (text : List Char) : ∀ c ∈ text.takeWhile isBlank, isBlank c = true :=
    fun c hc ↦ List.all_eq_true.mp List.all_takeWhile c hc
  refine ⟨text.takeWhile isBlank, ((text.dropWhile isBlank).reverse.takeWhile isBlank).reverse, ?_,
    hblank text, fun c hc ↦ hblank _ c (List.mem_reverse.mp hc)⟩
  rw [trim, ← List.reverse_append, List.takeWhile_append_dropWhile, List.reverse_reverse,
    List.takeWhile_append_dropWhile]

theorem notMem_of_isBlank {c : Char} (h : isBlank c = true) :
    c ∉ ['{', '[', '(', '}', ']', ')', '"', ','] := by
  intro hmem
  simp only [List.mem_cons, List.not_mem_nil, or_false] at hmem
  rcases hmem with rfl | rfl | rfl | rfl | rfl | rfl | rfl | rfl <;> exact absurd h (by decide)

theorem passed_of_isBlank {text : List Char} (h : ∀ c ∈ text, isBlank c = true) :
    Passed 0 text :=
  .of_forall_plain fun c hc ↦ notMem_of_isBlank (h c hc)

end Blank

/-! ## References

Arguments are read alike wherever they stand, so the token of a reference denotes the same in every
source. -/

/-- A name as it can be written in a reference: there are no blanks at its ends, and it has no
character that means something to the scans of references. -/
structure IsName (name : List Char) : Prop where
  ne_nil : name ≠ []
  head_not_blank : ∀ c ∈ name.head?, Blank.isBlank c = false
  last_not_blank : ∀ c ∈ name.getLast?, Blank.isBlank c = false
  plain : ∀ c ∈ name, c ∉ ['{', '[', '(', '}', ']', ')', '"', ',']

theorem IsName.trim_eq {name : List Char} (h : IsName name) : Blank.trim name = name :=
  Blank.Trimmed.trim_eq ⟨h.head_not_blank, h.last_not_blank⟩

theorem IsName.passed {name : List Char} (h : IsName name) : Passed 0 name :=
  .of_forall_plain h.plain

/-- A name and the sources of arguments, into which a reference falls apart that is put together
from them. -/
structure IsReference (name : List Char) (sources : List (List Char)) : Prop where
  ne_nil : name ≠ []
  trim_eq : Blank.trim name = name
  braces : Scan.braces.walk (0, .outside) name = some (0, .outside)
  passed : ∀ s ∈ sources, Passed 0 s
  divide_eq : divide 0 .outside (name ++ argumentText sources) = (name, sources)

theorem IsName.isReference {name : List Char} (hn : IsName name) {sources : List (List Char)}
    (h : ∀ s ∈ sources, Passed 0 s) : IsReference name sources where
  ne_nil := hn.ne_nil
  trim_eq := hn.trim_eq
  braces := hn.passed.braces
  passed := h
  divide_eq := by
    have hdivide := divide_of_walk (hn.passed.commas 0) (argumentText sources)
    rwa [divide_argumentText h, List.append_nil] at hdivide

/-- The reference to a name, which is a call if there are arguments. -/
def referenceTo (name : String) : List Expression → Expression
  | [] => .reference name
  | arguments => .call name arguments

/-- The token of a reference with the given name and sources of arguments. -/
def referenceToken (position : Nat) (name : List Char) (sources : List (List Char)) : Token :=
  ⟨.reference, '{' :: (name ++ argumentText sources ++ ['}']), position⟩

namespace IsReference

variable {name : List Char} {sources : List (List Char)} (h : IsReference name sources)

include h

theorem braces_inner :
    Scan.braces.walk (0, .outside) (name ++ argumentText sources) = some (0, .outside) :=
  (Scan.walk_append h.braces).trans (passed_argumentText h.passed).braces

variable (position : Nat)

theorem divide_inner : divide 0 .outside (referenceToken position name sources).inner
    = (name, sources) := by
  have hinner : (referenceToken position name sources).inner = name ++ argumentText sources := by
    simp [Token.inner, referenceToken]
  rw [hinner, h.divide_eq]

theorem name_eq : (referenceToken position name sources).name = name := by
  rw [Token.name, h.divide_inner, h.trim_eq]

theorem exists_arguments_eq :
    ∃ first, (referenceToken position name sources).arguments = located first sources := by
  rw [Token.arguments, h.divide_inner]
  exact ⟨_, rfl⟩

end IsReference

theorem mapM_id_map_ok (es : List Expression) :
    ((es.map Except.ok).mapM id : Except ReadError (List Expression)) = .ok es := by
  induction es with
  | nil => rfl
  | cons e es ih =>
    rw [List.map_cons, List.mapM_cons, ih]
    rfl

theorem map_readAt_located {arguments : List (List Char × Expression)}
    (h : ∀ a ∈ arguments, ∀ offset, Expression.readAt offset a.1 = .ok a.2) (first : Nat) :
    (located first (arguments.map Prod.fst)).map (fun a ↦ Expression.readAt a.2 a.1)
      = (arguments.map Prod.snd).map Except.ok := by
  induction arguments generalizing first with
  | nil => rfl
  | cons a arguments ih =>
    rw [List.forall_mem_cons] at h
    simp only [List.map_cons, located]
    rw [h.1, ih h.2]

theorem operand_referenceToken {name : List Char} {arguments : List (List Char × Expression)}
    (hn : IsReference name (arguments.map Prod.fst))
    (h : ∀ a ∈ arguments, ∀ offset, Expression.readAt offset a.1 = .ok a.2) (position : Nat) :
    (referenceToken position name (arguments.map Prod.fst)).term.operand
      = .ok (referenceTo (String.ofList name) (arguments.map Prod.snd)) := by
  obtain ⟨first, hargs⟩ := hn.exists_arguments_eq position
  have hne : name.isEmpty = false := by
    rw [List.isEmpty_eq_false_iff]
    exact hn.ne_nil
  have hif (a b : Except ReadError Expression) : (if name.isEmpty = true then a else b) = b := by
    rw [hne, if_neg Bool.false_ne_true]
  rw [Token.term, hargs, map_readAt_located h]
  change (if (referenceToken position name (arguments.map Prod.fst)).name.isEmpty then _ else _)
    = _
  rw [hn.name_eq, hif]
  cases arguments with
  | nil => rfl
  | cons a arguments =>
    change Except.map _ (((a.2 :: arguments.map Prod.snd).map Except.ok).mapM id) = _
    rw [mapM_id_map_ok]
    rfl

/-- A reference spells the call of its name with what its arguments are read as. -/
theorem spells_reference {name : List Char} {arguments : List (List Char × Expression)}
    (hn : IsReference name (arguments.map Prod.fst))
    (h : ∀ a ∈ arguments, ∀ offset, Expression.readAt offset a.1 = .ok a.2) :
    Spells ('{' :: (name ++ argumentText (arguments.map Prod.fst) ++ ['}']))
      (referenceTo (String.ofList name) (arguments.map Prod.snd)) := by
  intro position
  exact ⟨_, scans_reference hn.braces_inner _ position,
    readsAs_singleton (.inr (.inr rfl)) (operand_referenceToken hn h position)⟩

end DiceNotation
