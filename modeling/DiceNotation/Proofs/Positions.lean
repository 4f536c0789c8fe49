import DiceNotation.Proofs.ReadingSteps

/-!
# Sources further on

Nothing that is read depends on where a source starts: at a place further on, it falls into the same
tokens further on, and is read as the same expression, or there is the same error further on
(`Expression.readAt_add`). This goes through the arguments of references, which are sources that
start behind their commas.
-/

namespace DiceNotation

open Token Reading

/-! ## Further on -/

/-- The error at a byte that is `k` further on. -/
def ReadError.shift (k : Nat) (error : ReadError) : ReadError :=
  ⟨error.position + k, error.cause⟩

/-- The outcome with an error `k` further on, if it is one. -/
def shifted {α : Type} (k : Nat) : Except ReadError α → Except ReadError α :=
  Except.mapError (ReadError.shift k)

theorem shifted_eq_ok_iff {α : Type} {k : Nat} {outcome : Except ReadError α} {a : α} :
    shifted k outcome = .ok a ↔ outcome = .ok a := by
  cases outcome <;> simp [shifted, Except.mapError]

theorem map_shifted {α β : Type} (f : α → β) (k : Nat) (outcome : Except ReadError α) :
    (shifted k outcome).map f = shifted k (outcome.map f) := by
  cases outcome <;> rfl

theorem mapM_id_map_shifted {α : Type} (k : Nat) (outcomes : List (Except ReadError α)) :
    (outcomes.map (shifted k)).mapM id = shifted k (outcomes.mapM id) := by
  induction outcomes with
  | nil => rfl
  | cons outcome outcomes ih =>
    rw [List.map_cons, List.mapM_cons, List.mapM_cons, ih]
    cases outcome with
    | error error => rfl
    | ok a => cases outcomes.mapM id <;> rfl

/-- The token at a byte that is `k` further on. -/
def Token.shift (k : Nat) (t : Token) : Token := ⟨t.kind, t.lexeme, t.position + k⟩

/-- The term at a byte that is `k` further on. -/
def Term.shift (k : Nat) (term : Term) : Term := ⟨term.token.shift k, shifted k term.operand⟩

/-! ## Tokens

A source falls into the same tokens further on, and the arguments of a reference are further on with
it. -/

namespace Token

theorem scanFrom_add (position skip k : Nat) (source : List Char) :
    scanFrom (position + k) skip source
      = (shifted k (scanFrom position skip source)).map (List.map (shift k)) := by
  induction source generalizing position skip with
  | nil => rfl
  | cons c rest ih =>
    have hnext : position + k + c.utf8Size = position + c.utf8Size + k := Nat.add_right_comm ..
    cases skip with
    | succ skip =>
      rw [scanFrom, scanFrom, hnext]
      exact ih _ _
    | zero =>
      rw [scanFrom, scanFrom, hnext]
      split
      · exact ih _ _
      · cases munch c rest with
        | error cause => rfl
        | ok munched =>
          obtain ⟨kind, n⟩ := munched
          simp only [ih]
          cases scanFrom (position + c.utf8Size) n rest <;> rfl

theorem located_add (position k : Nat) (parts : List (List Char)) :
    located (position + k) parts = (located position parts).map fun a ↦ (a.1, a.2 + k) := by
  induction parts generalizing position with
  | nil => rfl
  | cons part parts ih =>
    have hnext : position + k + byteLength part + 1 = position + byteLength part + 1 + k := by omega
    rw [located, hnext, ih]
    rfl

theorem arguments_shift (t : Token) (k : Nat) :
    (t.shift k).arguments = t.arguments.map fun a ↦ (a.1, a.2 + k) := by
  have hfirst (n : Nat) : t.position + k + 1 + n + 1 = t.position + 1 + n + 1 + k := by omega
  change located (t.position + k + 1 + _ + 1) _ = _
  rw [hfirst, located_add]
  rfl

theorem operand_shift (t : Token) (k : Nat) (arguments : List (Except ReadError Expression)) :
    (t.shift k).operand (arguments.map (shifted k)) = shifted k (t.operand arguments) := by
  obtain ⟨kind, lexeme, position⟩ := t
  cases kind with
  | reference =>
    by_cases hn : (Token.mk .reference lexeme position).name = []
    · rw [operand_of_name_eq_nil rfl hn]
      exact operand_of_name_eq_nil (t := ⟨.reference, lexeme, position + k⟩) rfl hn _
    cases arguments with
    | nil =>
      rw [operand_nil rfl hn]
      exact operand_nil (t := ⟨.reference, lexeme, position + k⟩) rfl hn
    | cons a arguments =>
      rw [operand_cons rfl hn, ← map_shifted, ← mapM_id_map_shifted]
      exact operand_cons (t := ⟨.reference, lexeme, position + k⟩) rfl hn _ _
  | _ => rfl

end Token

/-! ## Reading

From every state, terms are read alike further on, and so make up the same expression. -/

theorem Reading.State.resume_shift (s : State) (stop k : Nat) (terms : List Term) :
    s.resume (stop + k) (terms.map (Term.shift k)) = shifted k (s.resume stop terms) := by
  induction terms generalizing s with
  | nil =>
    rcases s with ⟨waiting, outer⟩ | ⟨e, waiting, _ | ⟨⟨bracket, outside⟩, outer⟩⟩ <;> rfl
  | cons term terms ih =>
    have hdue (waiting outer) : Reading.operandDue (stop + k) waiting outer
        (terms.map (Term.shift k)) = shifted k (Reading.operandDue stop waiting outer terms) :=
      ih (.operandDue waiting outer)
    have hbehind (e waiting outer) : Reading.operatorDue (stop + k) e waiting outer
        (terms.map (Term.shift k)) = shifted k (Reading.operatorDue stop e waiting outer terms) :=
      ih (.operatorDue e waiting outer)
    obtain ⟨⟨kind, lexeme, position⟩, operand⟩ := term
    cases s with
    | operandDue waiting outer =>
      cases kind with
      | operator =>
        simp only [resume, List.map_cons, Term.shift, Token.shift, Reading.operandDue, Token.slice]
        cases PrefixOp.ofSymbol? (String.ofList lexeme) with
        | none => rfl
        | some op => exact hdue _ _
      | openParen => exact hdue _ _
      | openBracket => exact hdue _ _
      | closeBracket =>
        rcases waiting with _ | ⟨w, waiting⟩
        · rcases outer with _ | ⟨⟨_ | ⟨_ | ⟨item, items⟩⟩, outside⟩, outer⟩
          · rfl
          · rfl
          · exact hbehind _ _ _
          · rfl
        · rfl
      | number | text | reference | closeParen | comma =>
        cases operand with
        | error error => rfl
        | ok e => exact hbehind _ _ _
    | operatorDue e waiting outer =>
      cases kind with
      | operator =>
        simp only [resume, List.map_cons, Term.shift, Token.shift, Reading.operatorDue, Token.slice]
        cases BinaryOp.ofSymbol? (String.ofList lexeme) with
        | some op => exact hdue _ _
        | none =>
          cases PostfixOp.ofSymbol? (String.ofList lexeme) with
          | none => rfl
          | some op => exact hbehind _ _ _
      | closeParen =>
        rcases outer with _ | ⟨⟨_ | items, outside⟩, outer⟩
        · rfl
        · exact hbehind _ _ _
        · rfl
      | closeBracket =>
        rcases outer with _ | ⟨⟨_ | items, outside⟩, outer⟩
        · rfl
        · rfl
        · exact hbehind _ _ _
      | comma =>
        rcases outer with _ | ⟨⟨_ | items, outside⟩, outer⟩
        · rfl
        · rfl
        · exact hdue _ _
      | number | text | reference | openParen | openBracket => rfl

theorem Reading.expression_shift (stop k : Nat) (terms : List Term) :
    Reading.expression (stop + k) (terms.map (Term.shift k))
      = shifted k (Reading.expression stop terms) := by
  cases terms with
  | nil => rfl
  | cons term terms => exact State.start.resume_shift stop k (term :: terms)

namespace Expression

/-- **Sources further on.** A source is read alike wherever it starts: as the same expression, or
with the same error at a byte that is further on with it. -/
theorem readAt_add (offset k : Nat) (source : List Char) :
    readAt (offset + k) source = shifted k (readAt offset source) := by
  rw [readAt_eq, readAt_eq, Token.scan, Token.scan, Token.scanFrom_add]
  cases hscan : Token.scanFrom offset 0 source with
  | error error => rfl
  | ok tokens =>
    have hterm : ∀ t ∈ tokens, (t.shift k).term = t.term.shift k := by
      intro t ht
      have hread : ∀ a ∈ t.arguments, readAt (a.2 + k) a.1 = shifted k (readAt a.2 a.1) := by
        intro a ha
        have hlexeme := Token.length_lexeme_le_of_mem_scanFrom hscan ht
        have hargument := Token.length_lt_of_mem_arguments ha
        exact readAt_add a.2 k a.1
      have hoperand : (t.shift k).operand ((t.shift k).arguments.map fun a ↦ readAt a.2 a.1)
          = shifted k (t.operand (t.arguments.map fun a ↦ readAt a.2 a.1)) := by
        rw [← Token.operand_shift, Token.arguments_shift, List.map_map, List.map_map]
        exact congrArg (t.shift k).operand (List.map_congr_left hread)
      rw [Token.term, hoperand]
      rfl
    have hterms : (tokens.map (Token.shift k)).map Token.term
        = (tokens.map Token.term).map (Term.shift k) := by
      rw [List.map_map, List.map_map]
      exact List.map_congr_left hterm
    change Reading.expression _ ((tokens.map (Token.shift k)).map Token.term)
      = shifted k (Reading.expression _ (tokens.map Token.term))
    rw [hterms, Nat.add_right_comm, Reading.expression_shift]
termination_by source.length

theorem readAt_eq_shifted (k : Nat) (source : List Char) :
    readAt k source = shifted k (readAt 0 source) := by
  rw [← readAt_add, Nat.zero_add]

theorem readAt_of_read {offset : Nat} {source : List Char} {e : Expression}
    (h : readAt offset source = .ok e) (offset' : Nat) : readAt offset' source = .ok e := by
  rw [readAt_eq_shifted, shifted_eq_ok_iff] at h ⊢
  exact h

/-- **Fragments.** A fragment of a larger source is read as it is by itself: as the same expression,
or with an error of the same cause, as many bytes further on as the fragment is. -/
theorem readAt_fragment (k : Nat) (source : List Char) :
    (∃ e, readAt 0 source = .ok e ∧ readAt k source = .ok e) ∨
      ∃ error, readAt 0 source = .error error ∧
        readAt k source = .error ⟨error.position + k, error.cause⟩ := by
  rw [readAt_eq_shifted k]
  cases readAt 0 source with
  | ok e => exact .inl ⟨e, rfl, rfl⟩
  | error error => exact .inr ⟨error, rfl, rfl⟩

end Expression

end DiceNotation
