import DiceNotation.Proofs.Literals
import DiceNotation.Proofs.Spelling

/-!
# Expressions read back

The code of an expression is fully bracketed, so every part of it is read as one operand, and the
expression is read back from its parts. Only literals change: a negative one is written as a
negation, negative zero without its sign, and potentials are not written at all. Names have to be
such that a reference can be cut out of its surroundings (`IsName`), and a call without arguments
would be read as a plain reference.
-/

namespace DiceNotation

-- A property of all members is decided by going through them, whatever is imported.
attribute [local instance (high)] List.decidableBAll Option.decidableForallMem
  Option.decidableExistsMem

/-! ## The code of a number

A finite number is negative, or it has no sign to be written. The text of one that is not negative
reads back as its magnitude. -/

namespace Binary64

theorem rank?_zero : (0 : Binary64).rank? = some 0 := by
  have hzero : (0 : Binary64) = .finite false 0 representable_zero :=
    ofQuotient_of_representable false representable_zero
  rw [hzero]
  rfl

theorem isNegative_finite (s : Bool) (n : Nat) (h : Representable n) :
    (finite s n h).isNegative = (s && n != 0) := by
  rw [isNegative, lt, rank?_zero]
  cases s with
  | false => simp [rank?]
  | true =>
    change decide (-(n : Int) < 0) = (n != 0)
    rw [Bool.eq_iff_iff]
    simp only [decide_eq_true_eq, bne_iff_ne]
    omega

theorem finite_cases {x : Binary64} (h : x.isFinite = true) :
    (∃ n hn, x = .finite true n hn ∧ x.isNegative = true) ∨
      ∃ s n hn, x = .finite s n hn ∧ x.isNegative = false ∧ (s = false ∨ n = 0) := by
  cases x with
  | nan => exact absurd h Bool.false_ne_true
  | infinite s => exact absurd h Bool.false_ne_true
  | finite s n hn =>
    have hneg := isNegative_finite s n hn
    by_cases hs : s = true ∧ n ≠ 0
    · left
      obtain ⟨rfl, hne⟩ := hs
      exact ⟨n, hn, rfl, by simp [hneg, hne]⟩
    · right
      refine ⟨s, n, hn, rfl, ?_, ?_⟩ <;> cases s <;> simp_all

theorem beq_of_rank?_eq {x y : Binary64} {r : Int} (hx : x.rank? = some r)
    (hy : y.rank? = some r) : (x == y) = true := by
  unfold BEq.beq instBEq
  simp [hx, hy]

theorem finite_beq_finite {s t : Bool} {n : Nat} (h h' : Representable n)
    (hst : s = t ∨ n = 0) : (finite s n h == finite t n h') = true := by
  obtain rfl | rfl := hst
  · exact beq_of_rank?_eq rfl rfl
  · have hzero : ∀ (s : Bool) (h : Representable 0), (finite s 0 h).rank? = some 0 := by
      rintro (_ | _) h <;> rfl
    exact beq_of_rank?_eq (hzero s h) (hzero t h')

theorem toList_text_finite {s : Bool} {n : Nat} (h : Representable n) (hs : s = false ∨ n = 0) :
    (finite s n h).text.toList = magnitudeText n := by
  rw [text, String.toList_ofList, if_neg]
  rintro ⟨hneg, hne⟩
  rcases hs with rfl | rfl
  · exact Bool.false_ne_true hneg
  · exact hne rfl

theorem spells_text_finite {s : Bool} {n : Nat} (h : Representable n) (hs : s = false ∨ n = 0) :
    Spells (finite s n h).text.toList (.literal (.const (finite false n h))) := by
  rw [toList_text_finite h hs, ← numeral_magnitudeText h]
  exact spells_numeral (isNumeral_magnitudeText n)

theorem IsNumeral.endsOperator {text : List Char} (h : IsNumeral text) (rest : List Char) :
    Token.EndsOperator (text ++ rest) := by
  obtain ⟨c, tail, rfl, hc, -⟩ := h.exists_munch
  rintro d ⟨⟩ s hs hmem
  have hdigit := (by decide : ∀ s ∈ operatorSymbols, ∀ c ∈ s.toList, c.isDigit = false) s hs c hmem
  rw [hdigit] at hc
  exact absurd hc (by decide)

end Binary64

/-! ## Literals -/

/-- A literal as it is written: a negative one as a negation. -/
def Number.spelled (x : Number) : Expression :=
  if x.value.isNegative then .prefixed .negate (.literal (-x)) else .literal x

/-- A literal as it is read back: its magnitude, negated if it is negative. -/
def Number.reread (x : Number) : Expression :=
  if x.value.isNegative then .prefixed .negate (.literal (.const x.value.abs))
  else .literal (.const x.value.abs)

namespace Expression

/-- The expression with a negation in place of every negative literal. -/
def spelled (e : Expression) : Expression := e.mapLiterals Number.spelled

/-- The expression that is read where `e` is written. -/
def reread (e : Expression) : Expression := e.mapLiterals Number.reread

/-- An expression that can be written such that it is read back: its literals are finite, its
names can be written, and its calls have arguments. -/
inductive Spellable : Expression → Prop
  | literal {x : Number} (h : x.value.isFinite = true) : Spellable (.literal x)
  | list {items : List Expression} (h : ∀ e ∈ items, Spellable e) : Spellable (.list items)
  | text (s : String) : Spellable (.text s)
  | reference {name : String} (hn : IsName name.toList) : Spellable (.reference name)
  | call {name : String} {arguments : List Expression} (hn : IsName name.toList)
      (hne : arguments ≠ []) (h : ∀ e ∈ arguments, Spellable e) :
      Spellable (.call name arguments)
  | prefixed (op : PrefixOp) {operand : Expression} (h : Spellable operand) :
      Spellable (.prefixed op operand)
  | binary {left right : Expression} (op : BinaryOp) (hl : Spellable left)
      (hr : Spellable right) : Spellable (.binary left op right)
  | postfixed {operand : Expression} (op : PostfixOp) (h : Spellable operand) :
      Spellable (.postfixed operand op)

/-! ## The code of a literal

A literal is written as its magnitude, or as the negation of it. -/

section Literal

variable {x : Number} (h : x.value.isFinite = true)

include h

theorem literal_cases :
    (∃ n hn, x.code.toList
        = '(' :: ("-".toList ++ ((Binary64.finite false n hn).text.toList ++ [')']))
      ∧ x.reread = .prefixed .negate (.literal (.const (.finite false n hn)))
      ∧ x.spelled = .prefixed .negate (.literal ⟨.finite false n hn, x.potential⟩)) ∨
    ∃ s n hn, (s = false ∨ n = 0) ∧ x.code.toList = (Binary64.finite s n hn).text.toList
      ∧ x.reread = .literal (.const (.finite false n hn))
      ∧ x.spelled = .literal ⟨.finite s n hn, x.potential⟩ := by
  obtain ⟨value, potential⟩ := x
  rcases Binary64.finite_cases h with ⟨n, hn, rfl, hneg⟩ | ⟨s, n, hn, rfl, hneg, hs⟩
  · left
    refine ⟨n, hn, ?_, ?_, ?_⟩
    · simp [Number.code, hneg]
    · rw [Number.reread, if_pos hneg]
      rfl
    · rw [Number.spelled, if_pos hneg]
      rfl
  · right
    refine ⟨s, n, hn, hs, ?_, ?_, ?_⟩
    · simp [Number.code, hneg]
    · rw [Number.reread, if_neg (by simp [hneg])]
      rfl
    · rw [Number.spelled, if_neg (by simp [hneg])]

theorem passed_code_literal : Token.Passed 0 x.code.toList := by
  have hpassed {s : Bool} {n : Nat} (hn : Binary64.Representable n) (hs : s = false ∨ n = 0) :
      Token.Passed 0 (Binary64.finite s n hn).text.toList := by
    rw [Binary64.toList_text_finite hn hs]
    exact Token.passed_numeral (Binary64.isNumeral_magnitudeText n)
  rcases literal_cases h with ⟨n, hn, hcode, -⟩ | ⟨s, n, hn, hs, hcode, -⟩
  · rw [hcode]
    have hminus : Token.Passed 0 "-".toList := .of_forall_plain (by decide)
    have hinner := (hminus.append (hpassed hn (.inl rfl))).mono (Nat.zero_le 1)
    exact hinner.bracketed (.inl rfl) (.inl rfl)
  · rw [hcode]
    exact hpassed hn hs

theorem endsOperator_code_literal (rest : List Char) :
    Token.EndsOperator (x.code.toList ++ rest) := by
  rcases literal_cases h with ⟨n, hn, hcode, -⟩ | ⟨s, n, hn, hs, hcode, -⟩
  · rw [hcode]
    exact Token.isMark_openParen.endsOperator _
  · rw [hcode, Binary64.toList_text_finite hn hs]
    exact (Binary64.isNumeral_magnitudeText n).endsOperator rest

theorem spells_code_literal : Spells x.code.toList x.reread := by
  rcases literal_cases h with ⟨n, hn, hcode, hreread, -⟩ | ⟨s, n, hn, hs, hcode, hreread, -⟩
  · rw [hcode, hreread]
    refine (Binary64.spells_text_finite hn (.inl rfl)).prefixed (fun rest ↦ ?_) .negate
    rw [Binary64.toList_text_finite hn (.inl rfl)]
    exact (Binary64.isNumeral_magnitudeText n).endsOperator rest
  · rw [hcode, hreread]
    exact Binary64.spells_text_finite hn hs

theorem code_reread_literal : x.reread.code = x.code := by
  have hconst {n : Nat} (hn : Binary64.Representable n) :
      (Number.const (.finite false n hn)).code = (Binary64.finite false n hn).text := by
    rw [Number.code, Number.const, Binary64.isNegative_finite, if_neg (by simp)]
  rw [← String.toList_inj]
  rcases literal_cases h with ⟨n, hn, hcode, hreread, -⟩ | ⟨s, n, hn, hs, hcode, hreread, -⟩
  · rw [hcode, hreread, code, code, hconst]
    simp [PrefixOp.symbol]
  · rw [hcode, hreread, code, hconst, Binary64.toList_text_finite hn hs,
      Binary64.toList_text_finite hn (.inl rfl)]

theorem reread_equals_spelled_literal : equals x.reread x.spelled = true := by
  rcases literal_cases h with ⟨n, hn, -, hreread, hspelled⟩ | ⟨s, n, hn, hs, -, hreread, hspelled⟩
  · rw [hreread, hspelled, equals, equals, Bool.and_eq_true]
    exact ⟨beq_self_eq_true _, Binary64.finite_beq_finite hn hn (.inl rfl)⟩
  · rw [hreread, hspelled, equals]
    exact Binary64.finite_beq_finite hn hn (hs.imp_left Eq.symm)

end Literal

/-! ## The code of an expression -/

theorem toList_code_list (items : List Expression) :
    (code (.list items)).toList = '[' :: ((codes items).toList ++ [']']) := by
  change ("[" ++ codes items ++ "]").toList = _
  rw [String.toList_append, String.toList_append]
  rfl

theorem codes_cons_cons (e e' : Expression) (es : List Expression) :
    (codes (e :: e' :: es)).toList = e.code.toList ++ ',' :: (codes (e' :: es)).toList := by
  change (e.code ++ "," ++ codes (e' :: es)).toList = _
  rw [String.toList_append, String.toList_append, List.append_assoc]
  rfl

theorem toList_code_text (s : String) : (code (.text s)).toList = Quoted.encode s.toList := by
  change (Value.quoted s).toList = _
  rw [Value.quoted, String.toList_ofList]

theorem toList_argumentCodes (arguments : List Expression) :
    (argumentCodes arguments).toList
      = Token.argumentText (arguments.map fun e ↦ e.code.toList) := by
  induction arguments with
  | nil => rfl
  | cons e arguments ih =>
    change ("," ++ e.code ++ argumentCodes arguments).toList = _
    rw [String.toList_append, String.toList_append, ih]
    rfl

theorem toList_code_reference (name : String) :
    (code (.reference name)).toList
      = '{' :: (name.toList ++ Token.argumentText [] ++ ['}']) := by
  change ("\x7b" ++ name ++ "\x7d").toList = _
  rw [String.toList_append, String.toList_append]
  simp [Token.argumentText]

theorem toList_code_call (name : String) (arguments : List Expression) :
    (code (.call name arguments)).toList
      = '{' :: (name.toList ++ Token.argumentText (arguments.map fun e ↦ e.code.toList)
          ++ ['}']) := by
  change ("\x7b" ++ name ++ argumentCodes arguments ++ "\x7d").toList = _
  rw [String.toList_append, String.toList_append, String.toList_append, toList_argumentCodes]
  rfl

theorem toList_code_prefixed (op : PrefixOp) (operand : Expression) :
    (code (.prefixed op operand)).toList
      = '(' :: (op.symbol.toList ++ (operand.code.toList ++ [')'])) := by
  change ("(" ++ op.symbol ++ operand.code ++ ")").toList = _
  simp

theorem toList_code_binary (left : Expression) (op : BinaryOp) (right : Expression) :
    (code (.binary left op right)).toList
      = '(' :: (left.code.toList ++ (op.symbol.toList ++ (right.code.toList ++ [')']))) := by
  change ("(" ++ left.code ++ op.symbol ++ right.code ++ ")").toList = _
  simp

theorem toList_code_postfixed (operand : Expression) (op : PostfixOp) :
    (code (.postfixed operand op)).toList
      = '(' :: (operand.code.toList ++ (op.symbol.toList ++ [')'])) := by
  change ("(" ++ operand.code ++ op.symbol ++ ")").toList = _
  simp

/-! ## References pass over codes -/

theorem passed_codes {items : List Expression} (h : ∀ e ∈ items, Token.Passed 0 e.code.toList) :
    Token.Passed 1 (codes items).toList := by
  induction items with
  | nil => exact .nil 1
  | cons e items ih =>
    rw [List.forall_mem_cons] at h
    have he := h.1.mono (Nat.zero_le 1)
    cases items with
    | nil => exact he
    | cons e' items =>
      have hcomma : Token.Passed 1 [','] := .plain (by decide) fun h1 ↦ absurd h1 (by decide)
      rw [codes_cons_cons]
      exact he.append (hcomma.append (ih h.2))

/-- A literal that has a numeral, or a name that is passed over inside brackets; anything else. -/
def IsPassable : Expression → Prop
  | .literal x => x.value.isFinite = true
  | .reference name => Token.Passed 1 name.toList
  | .call name _ => Token.Passed 1 name.toList
  | _ => True

/-- The scans of references pass over the code of an expression. -/
theorem passed_code {e : Expression} (h : e.Everywhere IsPassable) :
    Token.Passed 0 e.code.toList := by
  induction e using induction with
  | step e ih =>
    have hchild : ∀ c ∈ e.children, Token.Passed 0 c.code.toList :=
      fun c hc ↦ ih c hc (h.of_mem_children hc)
    have hself := h.self
    cases e with
    | literal x => exact passed_code_literal hself
    | list items =>
      rw [toList_code_list]
      exact (passed_codes hchild).bracketed (.inr rfl) (.inr rfl)
    | text s =>
      rw [toList_code_text]
      exact Token.passed_encode s.toList
    | reference name =>
      rw [toList_code_reference]
      have hargs := Token.passed_argumentText fun s hs ↦ absurd hs List.not_mem_nil
      exact Token.Leads.braced (Token.Leads.append hself hargs)
    | call name arguments =>
      rw [toList_code_call]
      refine Token.Leads.braced (Token.Leads.append hself (Token.passed_argumentText fun s hs ↦ ?_))
      obtain ⟨e, he, rfl⟩ := List.mem_map.mp hs
      exact hchild e he
    | prefixed op operand =>
      have hoperand := hchild operand List.mem_cons_self
      rw [toList_code_prefixed, ← List.append_assoc]
      exact (((Token.passed_symbol op.symbol_mem).append hoperand).mono (Nat.zero_le 1)).bracketed
        (.inl rfl) (.inl rfl)
    | binary left op right =>
      have hleft := hchild left List.mem_cons_self
      have hright := hchild right (List.mem_cons_of_mem _ List.mem_cons_self)
      rw [toList_code_binary, ← List.append_assoc, ← List.append_assoc]
      exact (((hleft.append (Token.passed_symbol op.symbol_mem)).append hright).mono
        (Nat.zero_le 1)).bracketed (.inl rfl) (.inl rfl)
    | postfixed operand op =>
      have hoperand := hchild operand List.mem_cons_self
      rw [toList_code_postfixed, ← List.append_assoc]
      exact ((hoperand.append (Token.passed_symbol op.symbol_mem)).mono (Nat.zero_le 1)).bracketed
        (.inl rfl) (.inl rfl)

/-! ## Codes are read back -/

/-- A literal that has a numeral, or a reference whose code falls apart into its name and the codes
of its arguments; anything else. -/
def IsLegible : Expression → Prop
  | .literal x => x.value.isFinite = true
  | .reference name => IsReference name.toList []
  | .call name arguments =>
    arguments ≠ [] ∧ IsReference name.toList (arguments.map fun e ↦ e.code.toList)
  | _ => True

theorem IsLegible.endsOperator {e : Expression} (h : e.IsLegible) (rest : List Char) :
    Token.EndsOperator (e.code.toList ++ rest) := by
  cases e with
  | literal x => exact endsOperator_code_literal h rest
  | list items =>
    rw [toList_code_list]
    exact Token.isMark_openBracket.endsOperator _
  | text s =>
    rw [toList_code_text]
    exact Token.endsOperator_cons (by decide) _
  | reference name =>
    rw [toList_code_reference]
    exact Token.endsOperator_cons (by decide) _
  | call name arguments =>
    rw [toList_code_call]
    exact Token.endsOperator_cons (by decide) _
  | prefixed op operand =>
    rw [toList_code_prefixed]
    exact Token.isMark_openParen.endsOperator _
  | binary left op right =>
    rw [toList_code_binary]
    exact Token.isMark_openParen.endsOperator _
  | postfixed operand op =>
    rw [toList_code_postfixed]
    exact Token.isMark_openParen.endsOperator _

theorem spellsItems_codes {f : Expression → Expression} {e : Expression} {items : List Expression}
    (h : ∀ e' ∈ e :: items, Spells e'.code.toList (f e')) :
    SpellsItems (codes (e :: items)).toList ((e :: items).map f) := by
  induction items generalizing e with
  | nil => exact (h e List.mem_cons_self).item
  | cons e' items ih =>
    rw [List.forall_mem_cons] at h
    rw [codes_cons_cons]
    exact h.1.items (ih h.2)

/-- The code of an expression spells what is read back. -/
theorem spells_code {e : Expression} (h : e.Everywhere IsLegible) :
    Spells e.code.toList e.reread := by
  induction e using induction with
  | step e ih =>
    have hchild : ∀ c ∈ e.children, Spells c.code.toList c.reread :=
      fun c hc ↦ ih c hc (h.of_mem_children hc)
    have hself := h.self
    cases e with
    | literal x => exact spells_code_literal hself
    | list items =>
      rw [toList_code_list, reread, mapLiterals_list]
      cases items with
      | nil => exact spells_emptyList
      | cons e items => exact (spellsItems_codes hchild).list
    | text s =>
      have hs := spells_quoted s.toList
      rw [String.ofList_toList] at hs
      rw [toList_code_text]
      exact hs
    | reference name =>
      have hs := @spells_reference name.toList [] hself fun a ha ↦ absurd ha List.not_mem_nil
      rw [String.ofList_toList] at hs
      rw [toList_code_reference]
      exact hs
    | call name arguments =>
      obtain ⟨hne, hname⟩ := hself
      have hargs : ∀ a ∈ arguments.map (fun e ↦ (e.code.toList, e.reread)),
          ∀ offset, readAt offset a.1 = .ok a.2 := by
        intro a ha
        obtain ⟨e, he, rfl⟩ := List.mem_map.mp ha
        exact (hchild e he).readAt_eq
      have hs := spells_reference (by rwa [List.map_map]) hargs
      rw [String.ofList_toList, List.map_map, List.map_map] at hs
      rw [toList_code_call, reread, mapLiterals_call]
      cases arguments with
      | nil => exact absurd rfl hne
      | cons e arguments => exact hs
    | prefixed op operand =>
      have hends := (h.of_mem_children List.mem_cons_self).self.endsOperator
      rw [toList_code_prefixed]
      exact (hchild operand List.mem_cons_self).prefixed hends op
    | binary left op right =>
      have hmem : right ∈ (binary left op right).children :=
        List.mem_cons_of_mem _ List.mem_cons_self
      have hends := (h.of_mem_children hmem).self.endsOperator
      rw [toList_code_binary]
      exact (hchild left List.mem_cons_self).binary (hchild right hmem) hends op
    | postfixed operand op =>
      rw [toList_code_postfixed]
      exact (hchild operand List.mem_cons_self).postfixed op

/-! ## Expressions that can be written

All that stands in an expression that can be written can be written. What is read back has the same
code, and equals what was written with its negative literals spelled out. -/

namespace Spellable

theorem of_mem_children {e e' : Expression} (h : Spellable e) (he : e' ∈ e.children) :
    Spellable e' := by
  cases h with
  | literal | text | reference => exact absurd he List.not_mem_nil
  | list h => exact h e' he
  | call _ _ h => exact h e' he
  | prefixed op h => exact List.mem_singleton.mp he ▸ h
  | binary op hl hr =>
    rcases List.mem_cons.mp he with rfl | he
    · exact hl
    · exact List.mem_singleton.mp he ▸ hr
  | postfixed op h => exact List.mem_singleton.mp he ▸ h

theorem everywhere {P : Expression → Prop} {e : Expression} (h : Spellable e)
    (hP : ∀ x, Spellable x → P x) : e.Everywhere P := by
  intro x hx
  induction hx with
  | self => exact hP x h
  | child hc _ ih => exact ih (h.of_mem_children hc)

theorem passed {e : Expression} (h : Spellable e) : Token.Passed 0 e.code.toList := by
  refine passed_code (h.everywhere fun x hx ↦ ?_)
  cases hx with
  | literal h => exact h
  | reference hn => exact hn.passed.mono (Nat.zero_le 1)
  | call hn => exact hn.passed.mono (Nat.zero_le 1)
  | _ => trivial

theorem spells {e : Expression} (h : Spellable e) : Spells e.code.toList e.reread := by
  refine spells_code (h.everywhere fun x hx ↦ ?_)
  cases hx with
  | literal h => exact h
  | reference hn => exact hn.isReference fun s hs ↦ absurd hs List.not_mem_nil
  | call hn hne h =>
    refine ⟨hne, hn.isReference fun s hs ↦ ?_⟩
    obtain ⟨e, he, rfl⟩ := List.mem_map.mp hs
    exact (h e he).passed
  | _ => trivial

theorem isFinite_of_within {x : Number} {e : Expression} (h : Spellable e)
    (hx : Within (.literal x) e) : x.value.isFinite = true := by
  have hliteral : ∀ y, Spellable y → ∀ x, y = .literal x → x.value.isFinite = true := by
    rintro _ ⟨h⟩ x ⟨⟩
    exact h
  exact h.everywhere hliteral _ hx x rfl

end Spellable

theorem Spellable.code_reread {e : Expression} (h : Spellable e) : e.reread.code = e.code :=
  code_mapLiterals fun _ hx ↦ code_reread_literal (h.isFinite_of_within hx)

theorem listEquals_map {f g : Expression → Expression} {es : List Expression}
    (h : ∀ e ∈ es, equals (f e) (g e) = true) : listEquals (es.map f) (es.map g) = true := by
  induction es with
  | nil => rfl
  | cons e es ih =>
    rw [List.forall_mem_cons] at h
    rw [List.map_cons, List.map_cons, listEquals, h.1, ih h.2, Bool.and_self]

theorem Spellable.reread_equals_spelled {e : Expression} (h : Spellable e) :
    equals e.reread e.spelled = true := by
  induction h with
  | literal h => exact reread_equals_spelled_literal h
  | list h ih =>
    rw [reread, spelled, mapLiterals_list, mapLiterals_list, equals]
    exact listEquals_map ih
  | text s => exact beq_self_eq_true s
  | @reference name hn => exact beq_self_eq_true name
  | @call name arguments hn hne h ih =>
    rw [reread, spelled, mapLiterals_call, mapLiterals_call, equals, beq_self_eq_true,
      Bool.true_and]
    exact listEquals_map ih
  | prefixed op h ih =>
    rw [reread, spelled, mapLiterals, mapLiterals, equals, beq_self_eq_true, Bool.true_and]
    exact ih
  | binary op hl hr ihl ihr =>
    rw [reread, spelled, mapLiterals, mapLiterals, equals, beq_self_eq_true, Bool.true_and,
      Bool.and_eq_true]
    exact ⟨ihl, ihr⟩
  | postfixed op h ih =>
    rw [reread, spelled, mapLiterals, mapLiterals, equals, beq_self_eq_true, Bool.true_and]
    exact ih

/-- **Expressions read back.** The code of an expression is read as the expression itself, with
its negative literals as negations, and what is read has the same code again. -/
theorem read_code {e : Expression} (h : Spellable e) :
    ∃ t, Expression.read e.code = .ok t ∧ (t == e.spelled) = true ∧ t.code = e.code :=
  ⟨e.reread, h.spells.readAt_eq 0, h.reread_equals_spelled, h.code_reread⟩

/-- A die with a negative number of sides, rolled until it meets what a call gives that has a
brace and a quotation mark in one argument and a parameter in the other. -/
def awkward : Expression :=
  .binary (.prefixed .die (.literal (-Number.ofNat 6))) (.rollUntil .greaterEqual)
    (.call "wild card" [.text "\x7d\"", .reference "1"])

theorem spellable_awkward : Spellable awkward := by
  refine .binary _ (.prefixed _ (.literal (by decide +kernel))) (.call ?_ (by simp) ?_)
  · exact ⟨by decide, by decide, by decide, by decide⟩
  · rintro e (_ | ⟨_, _ | ⟨_, ⟨⟩⟩⟩)
    · exact .text _
    · exact .reference ⟨by decide, by decide, by decide, by decide⟩

theorem read_code_awkward :
    Spellable awkward ∧ ∃ t, Expression.read awkward.code = .ok t ∧
      (t == awkward.spelled) = true ∧ t.code = awkward.code :=
  ⟨spellable_awkward, read_code spellable_awkward⟩

end Expression

end DiceNotation
