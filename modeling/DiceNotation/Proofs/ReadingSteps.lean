import DiceNotation.Proofs.Spelling
import Mathlib.Data.List.Forall2

/-!
# Reading, one token at a time

What reading does is a matter of single tokens: each one leads from one state to the next, or there
is an error at it. `Step` says which steps there are, and a source is read as `e` exactly if its
tokens lead from the state where nothing waits to one where the operand `e` is all there is
(`Expression.readAt_eq_ok_iff`). What a reading preserves is shown step by step (`Run.invariant`).

A step is forgetful about errors and about positions, and it does not read the arguments of a
reference itself: they are sources of their own. What holds of all expressions that are read is
therefore shown by induction on the length of sources (`Expression.readAt_induction`).
-/

namespace DiceNotation

open Token

/-! ## Spellings -/

theorem find?_symbol_eq_some_iff {α : Type} {all : List α} {symbol : α → String}
    (hall : ∀ op, all.find? (symbol · == symbol op) = some op) {s : String} {op : α} :
    all.find? (symbol · == s) = some op ↔ s = symbol op := by
  constructor
  · intro h
    have hs := List.find?_some h
    exact (eq_of_beq hs).symm
  · rintro rfl
    exact hall op

theorem PrefixOp.ofSymbol?_eq_some_iff {s : String} {op : PrefixOp} :
    ofSymbol? s = some op ↔ s = op.symbol :=
  find?_symbol_eq_some_iff ofSymbol?_symbol

theorem BinaryOp.ofSymbol?_eq_some_iff {s : String} {op : BinaryOp} :
    ofSymbol? s = some op ↔ s = op.symbol :=
  find?_symbol_eq_some_iff ofSymbol?_symbol

theorem PostfixOp.ofSymbol?_eq_some_iff {s : String} {op : PostfixOp} :
    ofSymbol? s = some op ↔ s = op.symbol :=
  find?_symbol_eq_some_iff ofSymbol?_symbol

/-- The token is the operator with this spelling. -/
def Token.IsSymbol (t : Token) (symbol : String) : Prop := t.kind = .operator ∧ t.slice = symbol

/-! ## Where tokens come from

Every token is munched off the head of some end of the source, and is a piece of it. An argument is
a piece of the token that it stands in. -/

namespace Token

theorem exists_munch_of_mem_scanFrom {source : List Char} {position skip : Nat}
    {tokens : List Token} (h : scanFrom position skip source = .ok tokens) {t : Token}
    (ht : t ∈ tokens) :
    ∃ c rest n, c :: rest <:+ source ∧ munch c rest = .ok (t.kind, n) ∧
      t.lexeme = c :: rest.take n := by
  induction source generalizing position skip tokens with
  | nil =>
    cases h
    exact absurd ht List.not_mem_nil
  | cons c rest ih =>
    have hrest {position skip : Nat} {tokens : List Token}
        (h : scanFrom position skip rest = .ok tokens) (ht : t ∈ tokens) :
        ∃ c' rest' n, c' :: rest' <:+ c :: rest ∧ munch c' rest' = .ok (t.kind, n) ∧
          t.lexeme = c' :: rest'.take n := by
      obtain ⟨c', rest', n, hsuffix, hmunch⟩ := ih h ht
      exact ⟨c', rest', n, hsuffix.trans (List.suffix_cons c rest), hmunch⟩
    cases skip with
    | succ skip => exact hrest h ht
    | zero =>
      rw [scanFrom] at h
      split at h
      · exact hrest h ht
      · split at h
        · cases h
        · next kind n hmunch =>
          split at h
          · cases h
          · next htokens =>
            cases h
            rcases List.mem_cons.mp ht with rfl | ht
            · exact ⟨c, rest, n, List.suffix_refl _, hmunch, rfl⟩
            · exact hrest htokens ht

/-- A token is a piece of the source. -/
theorem lexeme_infix_of_mem_scan {source : List Char} {offset : Nat} {tokens : List Token}
    (h : scan offset source = .ok tokens) {t : Token} (ht : t ∈ tokens) :
    t.lexeme <:+: source := by
  obtain ⟨c, rest, n, hsuffix, -, hlexeme⟩ := exists_munch_of_mem_scanFrom h ht
  have hprefix : t.lexeme <+: c :: rest := by
    rw [hlexeme, List.prefix_cons_inj]
    exact List.take_prefix n rest
  exact hprefix.isInfix.trans hsuffix.isInfix

theorem isLexeme_of_mem_scan {source : List Char} {offset : Nat} {tokens : List Token}
    (h : scan offset source = .ok tokens) {t : Token} (ht : t ∈ tokens) :
    IsLexeme t.kind t.lexeme := by
  obtain ⟨c, rest, n, -, hmunch, hlexeme⟩ := exists_munch_of_mem_scanFrom h ht
  rw [hlexeme]
  exact isLexeme_of_munch hmunch

theorem kind_ne_openParen {source : List Char} {offset : Nat} {tokens : List Token}
    (hp : '(' ∉ source) (h : scan offset source = .ok tokens) {t : Token} (ht : t ∈ tokens) :
    t.kind ≠ .openParen := by
  intro hk
  have hlexeme : ∀ kind text, IsLexeme kind text → kind = .openParen → '(' ∈ text := by
    rintro _ _ ⟨⟩ ⟨⟩
    exact List.mem_cons_self
  have hmem := hlexeme t.kind t.lexeme (isLexeme_of_mem_scan h ht) hk
  exact hp ((lexeme_infix_of_mem_scan h ht).mem hmem)

theorem divide_pieces (depth : Nat) (quotation : Quotation) (source : List Char) :
    (divide depth quotation source).1 <+: source ∧
      ∀ part ∈ (divide depth quotation source).2, part <:+: source := by
  induction source generalizing depth quotation with
  | nil => simp [divide]
  | cons c rest ih =>
    rw [divide]
    split
    · obtain ⟨hfirst, hparts⟩ := ih 0 .outside
      refine ⟨List.nil_prefix, fun part hpart ↦ ?_⟩
      rcases List.mem_cons.mp hpart with rfl | hpart
      · exact hfirst.isInfix.trans (List.suffix_cons c rest).isInfix
      · exact (hparts part hpart).trans (List.suffix_cons c rest).isInfix
    · obtain ⟨hfirst, hparts⟩ :=
        ih (if quotation = .outside then nesting depth c else depth) (quotation.step c)
      exact ⟨(List.prefix_cons_inj c).mpr hfirst, fun part hpart ↦
        (hparts part hpart).trans (List.suffix_cons c rest).isInfix⟩

theorem infix_of_mem_arguments {t : Token} {a : List Char × Nat} (h : a ∈ t.arguments) :
    a.1 <:+: t.lexeme := by
  have hinner : t.inner <:+: t.lexeme :=
    (List.dropLast_prefix _).isInfix.trans (List.tail_suffix _).isInfix
  exact ((divide_pieces 0 .outside t.inner).2 a.1 (fst_mem_of_mem_located h)).trans hinner

end Token

/-! ## What a token denotes

A token denotes what it is read as where an operand is due. A reference is a call if it has
arguments, and denotes it if all of them can be read. -/

/-- The token is an operand by itself, and this is what it denotes. -/
inductive Token.Denotes (t : Token) : Expression → Prop
  | number (hk : t.kind = .number) : Denotes t (.literal (.const (numeral t.lexeme)))
  | text (hk : t.kind = .text) : Denotes t (.text (String.ofList (Quoted.decode t.inner)))
  | reference (hk : t.kind = .reference) (hn : t.name ≠ []) (ha : t.arguments = []) :
      Denotes t (.reference (String.ofList t.name))
  | call {es : List Expression} (hk : t.kind = .reference) (hn : t.name ≠ [])
      (ha : t.arguments ≠ [])
      (hes : List.Forall₂ (fun a e ↦ Expression.readAt a.2 a.1 = .ok e) t.arguments es) :
      Denotes t (.call (String.ofList t.name) es)

theorem mapM_eq_ok_iff {ε α β : Type} {f : α → Except ε β} {as : List α} {bs : List β} :
    as.mapM f = .ok bs ↔ List.Forall₂ (fun a b ↦ f a = .ok b) as bs := by
  induction as generalizing bs with
  | nil => cases bs <;> simp [pure, Except.pure]
  | cons a as ih =>
    rw [List.mapM_cons]
    cases ha : f a with
    | error error => cases bs <;> simp [bind, Except.bind, ha]
    | ok b =>
      cases has : as.mapM f with
      | error error => cases bs <;> simp [bind, Except.bind, ← ih, has, ha]
      | ok bs' => cases bs <;> simp [bind, Except.bind, pure, Except.pure, ← ih, has, ha]

theorem exists_of_mem_of_forall₂ {α β : Type} {R : α → β → Prop} {as : List α} {bs : List β}
    (h : List.Forall₂ R as bs) {a : α} (ha : a ∈ as) : ∃ b ∈ bs, R a b := by
  induction h with
  | nil => exact absurd ha List.not_mem_nil
  | @cons a' b as bs hab _ ih =>
    rcases List.mem_cons.mp ha with rfl | ha
    · exact ⟨b, List.mem_cons_self, hab⟩
    · obtain ⟨b', hb', h⟩ := ih ha
      exact ⟨b', List.mem_cons_of_mem _ hb', h⟩

section Reference

variable {t : Token} (hk : t.kind = .reference)

include hk

theorem Token.operand_of_name_eq_nil (hn : t.name = [])
    (arguments : List (Except ReadError Expression)) :
    t.operand arguments = .error ⟨t.position, .emptyReferenceName⟩ := by
  obtain ⟨kind, lexeme, position⟩ := t
  cases hk
  exact if_pos (List.isEmpty_iff.mpr hn)

theorem Token.operand_nil (hn : t.name ≠ []) :
    t.operand [] = .ok (.reference (String.ofList t.name)) := by
  obtain ⟨kind, lexeme, position⟩ := t
  cases hk
  exact if_neg (mt List.isEmpty_iff.mp hn)

theorem Token.operand_cons (hn : t.name ≠ []) (a : Except ReadError Expression)
    (as : List (Except ReadError Expression)) :
    t.operand (a :: as) = ((a :: as).mapM id).map (.call (String.ofList t.name)) := by
  obtain ⟨kind, lexeme, position⟩ := t
  cases hk
  exact if_neg (mt List.isEmpty_iff.mp hn)

theorem Token.operand_reference_eq_ok_iff {e : Expression} :
    t.term.operand = .ok e ↔ t.Denotes e := by
  change t.operand (t.arguments.map fun a ↦ Expression.readAt a.2 a.1) = .ok e ↔ _
  by_cases hn : t.name = []
  · rw [operand_of_name_eq_nil hk hn]
    constructor
    · rintro ⟨⟩
    · intro h
      cases h with
      | number h | text h => rw [hk] at h; cases h
      | reference _ hne | call _ hne => exact absurd hn hne
  cases ha : t.arguments with
  | nil =>
    rw [List.map_nil, operand_nil hk hn]
    constructor
    · rintro ⟨⟩
      exact .reference hk hn ha
    · intro h
      cases h with
      | number h | text h => rw [hk] at h; cases h
      | reference => rfl
      | call _ _ hne => exact absurd ha hne
  | cons a as =>
    have hne : t.arguments ≠ [] := by simp [ha]
    have hread {es : List Expression} :
        ((a :: as).map fun a ↦ Expression.readAt a.2 a.1).mapM id = .ok es ↔
          List.Forall₂ (fun a e ↦ Expression.readAt a.2 a.1 = .ok e) t.arguments es := by
      rw [List.mapM_map, mapM_eq_ok_iff, ha]
      rfl
    have hoperand : t.operand ((a :: as).map fun a ↦ Expression.readAt a.2 a.1)
        = (((a :: as).map fun a ↦ Expression.readAt a.2 a.1).mapM id).map
            (.call (String.ofList t.name)) := operand_cons hk hn _ _
    rw [hoperand]
    constructor
    · intro h
      cases hes : ((a :: as).map fun a ↦ Expression.readAt a.2 a.1).mapM id with
      | error error => rw [hes] at h; cases h
      | ok es =>
        rw [hes] at h
        cases h
        exact .call hk hn hne (hread.mp hes)
    · intro h
      cases h with
      | number h | text h => rw [hk] at h; cases h
      | reference _ _ hnil => exact absurd hnil hne
      | call _ _ _ hes => rw [hread.mpr hes]; rfl

end Reference

theorem Token.denotes_iff {t : Token} {e : Expression} :
    t.Denotes e ↔ (t.kind = .number ∨ t.kind = .text ∨ t.kind = .reference) ∧
      t.term.operand = .ok e := by
  have hnumber : t.kind = .number →
      t.term.operand = .ok (.literal (.const (numeral t.lexeme))) := by
    obtain ⟨kind, lexeme, position⟩ := t
    rintro ⟨⟩
    rfl
  have htext : t.kind = .text →
      t.term.operand = .ok (.text (String.ofList (Quoted.decode t.inner))) := by
    obtain ⟨kind, lexeme, position⟩ := t
    rintro ⟨⟩
    rfl
  constructor
  · intro h
    cases h with
    | number hk => exact ⟨.inl hk, hnumber hk⟩
    | text hk => exact ⟨.inr (.inl hk), htext hk⟩
    | reference hk hn ha =>
      exact ⟨.inr (.inr hk), (operand_reference_eq_ok_iff hk).mpr (.reference hk hn ha)⟩
    | call hk hn ha hes =>
      exact ⟨.inr (.inr hk), (operand_reference_eq_ok_iff hk).mpr (.call hk hn ha hes)⟩
  · rintro ⟨hk | hk | hk, h⟩
    · rw [hnumber hk] at h
      cases h
      exact .number hk
    · rw [htext hk] at h
      cases h
      exact .text hk
    · exact (operand_reference_eq_ok_iff hk).mp h

/-! ## Steps

Reading goes on behind a step where the step leads, and where it succeeds there is a step. -/

namespace Reading

/-- Where reading stands between two tokens: an operand is due, or the operand `e` has just been
read. -/
inductive State where
  | operandDue (waiting : List Waiting) (outer : List (OpenBracket × List Waiting))
  | operatorDue (e : Expression) (waiting : List Waiting)
      (outer : List (OpenBracket × List Waiting))

/-- Reads on from a state. -/
def State.resume (stop : Nat) : State → List Term → Except ReadError Expression
  | .operandDue waiting outer => Reading.operandDue stop waiting outer
  | .operatorDue e waiting outer => Reading.operatorDue stop e waiting outer

/-- A token leads from one state to another. -/
inductive Step : State → Token → State → Prop
  | prefixed {t : Token} {waiting : List Waiting} {outer : List (OpenBracket × List Waiting)}
      (op : PrefixOp) (ht : t.IsSymbol op.symbol) :
      Step (.operandDue waiting outer) t (.operandDue (.prefixed op :: waiting) outer)
  | operand {t : Token} {waiting : List Waiting} {outer : List (OpenBracket × List Waiting)}
      {e : Expression} (h : t.Denotes e) :
      Step (.operandDue waiting outer) t (.operatorDue e waiting outer)
  | openParen {t : Token} {waiting : List Waiting} {outer : List (OpenBracket × List Waiting)}
      (hk : t.kind = .openParen) :
      Step (.operandDue waiting outer) t (.operandDue [] ((.group, waiting) :: outer))
  | openBracket {t : Token} {waiting : List Waiting} {outer : List (OpenBracket × List Waiting)}
      (hk : t.kind = .openBracket) :
      Step (.operandDue waiting outer) t (.operandDue [] ((.list [], waiting) :: outer))
  | emptyList {t : Token} {outside : List Waiting} {outer : List (OpenBracket × List Waiting)}
      (hk : t.kind = .closeBracket) :
      Step (.operandDue [] ((.list [], outside) :: outer)) t
        (.operatorDue (.list []) outside outer)
  | binary {t : Token} {e : Expression} {waiting : List Waiting}
      {outer : List (OpenBracket × List Waiting)} (op : BinaryOp) (ht : t.IsSymbol op.symbol) :
      Step (.operatorDue e waiting outer) t
        (.operandDue (.binary (Waiting.yield op.priority e waiting).1 op ::
          (Waiting.yield op.priority e waiting).2) outer)
  | postfixed {t : Token} {e : Expression} {waiting : List Waiting}
      {outer : List (OpenBracket × List Waiting)} (op : PostfixOp) (ht : t.IsSymbol op.symbol) :
      Step (.operatorDue e waiting outer) t
        (.operatorDue (.postfixed (Waiting.yield op.priority e waiting).1 op)
          (Waiting.yield op.priority e waiting).2 outer)
  | closeParen {t : Token} {e : Expression} {waiting outside : List Waiting}
      {outer : List (OpenBracket × List Waiting)} (hk : t.kind = .closeParen) :
      Step (.operatorDue e waiting ((.group, outside) :: outer)) t
        (.operatorDue (Waiting.completeAll e waiting) outside outer)
  | closeBracket {t : Token} {e : Expression} {waiting outside : List Waiting}
      {outer : List (OpenBracket × List Waiting)} {items : List Expression}
      (hk : t.kind = .closeBracket) :
      Step (.operatorDue e waiting ((.list items, outside) :: outer)) t
        (.operatorDue (.list (Waiting.completeAll e waiting :: items).reverse) outside outer)
  | comma {t : Token} {e : Expression} {waiting outside : List Waiting}
      {outer : List (OpenBracket × List Waiting)} {items : List Expression}
      (hk : t.kind = .comma) :
      Step (.operatorDue e waiting ((.list items, outside) :: outer)) t
        (.operandDue [] ((.list (Waiting.completeAll e waiting :: items), outside) :: outer))

variable {stop : Nat} {t : Token} {s s' : State} {r : Expression}

theorem Step.resume_eq (h : Step s t s') (rest : List Term) :
    s.resume stop (t.term :: rest) = s'.resume stop rest := by
  obtain ⟨kind, lexeme, position⟩ := t
  cases h with
  | prefixed op ht =>
    obtain ⟨⟨⟩, hs⟩ := ht
    simp only [State.resume, Token.term, operandDue, hs, PrefixOp.ofSymbol?_symbol]
  | operand h =>
    obtain ⟨hk, he⟩ := denotes_iff.mp h
    rcases hk with hk | hk | hk <;> cases hk <;>
      simp only [State.resume, Token.term, operandDue] at he ⊢ <;> rw [he]
  | openParen hk | openBracket hk | emptyList hk | closeParen hk | closeBracket hk | comma hk =>
    cases hk
    rfl
  | binary op ht =>
    obtain ⟨⟨⟩, hs⟩ := ht
    simp [State.resume, Token.term, operatorDue, hs, BinaryOp.ofSymbol?_symbol,
      Kind.beginsOperand]
  | postfixed op ht =>
    obtain ⟨⟨⟩, hs⟩ := ht
    have hbinary : BinaryOp.ofSymbol? op.symbol = none := by
      cases op
      decide
    simp [State.resume, Token.term, operatorDue, hs, hbinary, PostfixOp.ofSymbol?_symbol,
      Kind.beginsOperand]

/-- Where reading succeeds, a token leads on. -/
theorem exists_step {rest : List Term} (h : s.resume stop (t.term :: rest) = .ok r) :
    ∃ s', Step s t s' := by
  cases s with
  | operandDue waiting outer =>
    obtain ⟨kind, lexeme, position⟩ := t
    cases kind with
    | operator =>
      simp only [State.resume, Token.term, operandDue] at h
      split at h
      · next op hop => exact ⟨_, .prefixed op ⟨rfl, PrefixOp.ofSymbol?_eq_some_iff.mp hop⟩⟩
      · cases h
    | openParen => exact ⟨_, .openParen rfl⟩
    | openBracket => exact ⟨_, .openBracket rfl⟩
    | closeBracket =>
      simp only [State.resume, Token.term, operandDue] at h
      split at h
      · exact ⟨_, .emptyList rfl⟩
      · cases h
    | closeParen | comma => cases h
    | number | text | reference =>
      simp only [State.resume, Token.term, operandDue] at h
      split at h
      · next e he => exact ⟨_, .operand (denotes_iff.mpr ⟨by simp, he⟩)⟩
      · cases h
  | operatorDue e waiting outer =>
    obtain ⟨kind, lexeme, position⟩ := t
    cases kind with
    | operator =>
      have hbegins : ¬(Kind.operator.beginsOperand = true) := by decide
      simp only [State.resume, Token.term, operatorDue, if_neg hbegins] at h
      rw [if_pos trivial] at h
      split at h
      · next op hop => exact ⟨_, .binary op ⟨rfl, BinaryOp.ofSymbol?_eq_some_iff.mp hop⟩⟩
      · split at h
        · next op hop => exact ⟨_, .postfixed op ⟨rfl, PostfixOp.ofSymbol?_eq_some_iff.mp hop⟩⟩
        · cases h
    | closeParen =>
      rcases outer with _ | ⟨⟨_ | items, outside⟩, outer⟩
      · cases h
      · exact ⟨_, .closeParen rfl⟩
      · cases h
    | closeBracket =>
      rcases outer with _ | ⟨⟨_ | items, outside⟩, outer⟩
      · cases h
      · cases h
      · exact ⟨_, .closeBracket rfl⟩
    | comma =>
      rcases outer with _ | ⟨⟨_ | items, outside⟩, outer⟩
      · cases h
      · cases h
      · exact ⟨_, .comma rfl⟩
    | number | text | reference | openParen | openBracket => cases h

/-! ## Runs -/

/-- Tokens that lead from one state to another, step by step. -/
inductive Run : State → List Token → State → Prop
  | nil (s : State) : Run s [] s
  | cons {t : Token} {ts : List Token} {s s' s'' : State} (h : Step s t s') (hs : Run s' ts s'') :
      Run s (t :: ts) s''

variable {s'' : State} {ts us : List Token}

theorem Step.run (h : Step s t s') : Run s [t] s' := .cons h (.nil s')

theorem Run.append (h : Run s ts s') (h' : Run s' us s'') : Run s (ts ++ us) s'' := by
  induction h with
  | nil => exact h'
  | cons hstep _ ih => exact .cons hstep (ih h')

theorem Run.resume_eq (h : Run s ts s') (rest : List Term) :
    s.resume stop (ts.map Token.term ++ rest) = s'.resume stop rest := by
  induction h with
  | nil => rfl
  | cons hstep _ ih => exact (hstep.resume_eq _).trans ih

/-- **Invariants of reading.** What holds of a state and the tokens that have led there, and goes on
to hold with every step, holds after every run. -/
theorem Run.invariant {motive : State → List Token → Prop} (h : Run s ts s')
    (step : ∀ t ∈ ts, ∀ s s' done, Step s t s' → motive s done → motive s' (done ++ [t]))
    (done : List Token) (hs : motive s done) : motive s' (done ++ ts) := by
  induction h generalizing done with
  | nil => rwa [List.append_nil]
  | cons hstep _ ih =>
    obtain ⟨hfirst, hrest⟩ := List.forall_mem_cons.mp step
    have hnext := ih hrest _ (hfirst _ _ done hstep hs)
    rwa [List.append_assoc] at hnext

/-- Where reading succeeds, it has gone through all tokens and left no bracket open. -/
theorem exists_run (h : s.resume stop (ts.map Token.term) = .ok r) :
    ∃ e waiting, Run s ts (.operatorDue e waiting []) ∧ r = Waiting.completeAll e waiting := by
  induction ts generalizing s with
  | nil =>
    cases s with
    | operandDue waiting outer => cases h
    | operatorDue e waiting outer =>
      cases outer with
      | nil =>
        cases h
        exact ⟨e, waiting, .nil _, rfl⟩
      | cons => cases h
  | cons t ts ih =>
    obtain ⟨s', hstep⟩ := exists_step h
    rw [List.map_cons, hstep.resume_eq] at h
    obtain ⟨e, waiting, hrun, hr⟩ := ih h
    exact ⟨e, waiting, .cons hstep hrun, hr⟩

/-- Nothing has been read yet. -/
def State.start : State := .operandDue [] []

/-- The tokens are read as the expression. -/
def Reads (ts : List Token) (r : Expression) : Prop :=
  ∃ e waiting, Run .start ts (.operatorDue e waiting []) ∧ r = Waiting.completeAll e waiting

theorem expression_eq_ok_iff :
    Reading.expression stop (ts.map Token.term) = .ok r ↔ Reads ts r := by
  cases ts with
  | nil =>
    constructor
    · rintro ⟨⟩
    · rintro ⟨e, waiting, hrun, -⟩
      cases hrun
  | cons t ts =>
    change State.start.resume stop ((t :: ts).map Token.term) = .ok r ↔ _
    constructor
    · exact exists_run
    · rintro ⟨e, waiting, hrun, rfl⟩
      have hresume : State.start.resume stop ((t :: ts).map Token.term ++ []) = _ :=
        hrun.resume_eq []
      rw [List.append_nil] at hresume
      exact hresume

end Reading

/-! ## Sources -/

namespace Expression

/-- **Reading, step by step.** A source is read as an expression exactly if it falls into tokens
that are. -/
theorem readAt_eq_ok_iff {offset : Nat} {source : List Char} {e : Expression} :
    readAt offset source = .ok e ↔
      ∃ tokens, Token.scan offset source = .ok tokens ∧ Reading.Reads tokens e := by
  rw [readAt_eq]
  cases hscan : Token.scan offset source with
  | error error =>
    constructor
    · rintro ⟨⟩
    · rintro ⟨tokens, ⟨⟩, -⟩
  | ok tokens =>
    change Reading.expression _ (tokens.map Token.term) = .ok e ↔ _
    rw [Reading.expression_eq_ok_iff]
    constructor
    · intro h
      exact ⟨tokens, rfl, h⟩
    · rintro ⟨_, ⟨⟩, h⟩
      exact h

theorem readAt_eq_operand {offset : Nat} {source : List Char} {t : Token}
    (hscan : Token.scan offset source = .ok [t]) (hk : t.kind = .reference) :
    readAt offset source = t.term.operand := by
  obtain ⟨kind, lexeme, position⟩ := t
  cases hk
  have hexpression (stop : Nat) (operand : Except ReadError Expression) :
      Reading.expression stop [⟨⟨.reference, lexeme, position⟩, operand⟩] = operand := by
    cases operand <;> rfl
  rw [readAt_eq, hscan]
  exact hexpression _ _

/-- **Induction along reading.** What holds of an expression that tokens are read as, as soon as it
holds of all expressions that arguments of these tokens are read as, holds of every expression that
is read. -/
theorem readAt_induction {motive : Nat → List Char → Expression → Prop}
    (step : ∀ offset source tokens e, Token.scan offset source = .ok tokens →
      (∀ t ∈ tokens, ∀ a ∈ t.arguments, ∀ e', readAt a.2 a.1 = .ok e' → motive a.2 a.1 e') →
      Reading.Reads tokens e → motive offset source e)
    {offset : Nat} {source : List Char} {e : Expression} (h : readAt offset source = .ok e) :
    motive offset source e := by
  obtain ⟨tokens, hscan, hreads⟩ := readAt_eq_ok_iff.mp h
  refine step offset source tokens e hscan (fun t ht a ha e' he' ↦ ?_) hreads
  have hlexeme := Token.length_lexeme_le_of_mem_scanFrom hscan ht
  have hargument := Token.length_lt_of_mem_arguments ha
  exact readAt_induction step he'
termination_by source.length

end Expression

end DiceNotation
