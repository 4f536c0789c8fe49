import DiceNotation.Proofs.ReadingSteps

/-!
# Where errors show

An error of reading names a byte of the source, and most errors report a piece of it: a character,
an operator, the token that does not fit. The piece stands at that byte, also where the error comes
from an argument of a reference, or from an argument of a reference in an argument.

Every function of the reader hands on pieces of what it is given, with the bytes at which they
start: the scanner the tokens of a source, a reference its arguments, an error what it reports. So
there is one relation to look after, `IsPart`, which is transitive, and one induction, on the length
of sources (`Expression.isPart_of_readAt_error`).
-/

namespace DiceNotation

open Token

/-! ## Parts of texts

Parts of parts are parts. The empty text is a part of every text at its end, which is where an error
shows that has nothing to report. -/

/-- A text that starts at some byte is part of another one that does: it is a piece of it and stands
at its place. -/
def IsPart (piece source : List Char × Nat) : Prop :=
  ∃ before behind, source.1 = before ++ piece.1 ++ behind ∧
    piece.2 = source.2 + byteLength before

namespace IsPart

variable {piece source whole : List Char × Nat} {p n : Nat} {s t : List Char}

theorem trans (h : IsPart piece source) (h' : IsPart source whole) : IsPart piece whole := by
  obtain ⟨before, behind, hsource, hpiece⟩ := h
  obtain ⟨before', behind', hwhole, hposition⟩ := h'
  refine ⟨before' ++ before, behind ++ behind', ?_, ?_⟩
  · rw [hwhole, hsource]
    simp only [List.append_assoc]
  · rw [hpiece, hposition, byteLength_append, Nat.add_assoc]

theorem of_initial (h : s <+: t) (n : Nat) : IsPart (s, n) (t, n) := by
  obtain ⟨behind, rfl⟩ := h
  exact ⟨[], behind, rfl, rfl⟩

theorem append_left (before : List Char) (h : IsPart piece (t, n + byteLength before)) :
    IsPart piece (before ++ t, n) :=
  h.trans ⟨before, [], by rw [List.append_nil], rfl⟩

theorem cons (c : Char) (h : IsPart piece (t, n + c.utf8Size)) : IsPart piece (c :: t, n) :=
  append_left [c] h

theorem nil_end (t : List Char) (n : Nat) : IsPart ([], n + byteLength t) (t, n) :=
  ⟨t, [], by simp, rfl⟩

end IsPart

theorem utf8ByteSize_ofList_eq (cs : List Char) :
    (String.ofList cs).utf8ByteSize = byteLength cs := by
  induction cs with
  | nil => rfl
  | cons c cs ih =>
    rw [String.ofList_cons, String.utf8ByteSize_append, String.utf8ByteSize_singleton, ih]
    rfl

/-! ## What errors report -/

namespace ReadError

/-- The piece of source that a cause reports; nothing, if it reports none. -/
def Cause.reported : Cause → List Char
  | .unexpectedCharacter c => [c]
  | .unterminatedText => ['"']
  | .unterminatedReference | .emptyReferenceName => ['\x7b']
  | .unknownOperator symbol _ => symbol.toList
  | .unexpectedToken (some found) _ => found.toList
  | .unexpectedToken none _ | .emptyExpression | .missingOperand | .expectedOperator => []

/-- What an error reports, and where. -/
def report (error : ReadError) : List Char × Nat := (error.cause.reported, error.position)

/-- The error is one at a token: it shows where the token does and reports the head of it. -/
def IsAt (error : ReadError) (t : Token) : Prop :=
  error.position = t.position ∧ error.cause.reported <+: t.lexeme

theorem IsAt.isPart {error : ReadError} {t : Token} (h : error.IsAt t) :
    IsPart error.report (t.lexeme, t.position) := by
  obtain ⟨hposition, hreported⟩ := h
  rw [report, hposition]
  exact .of_initial hreported _

end ReadError

/-! ## Scanning

What cannot be a token is reported by its first character, and every token of a source is a part of
it. -/

namespace Token

theorem reported_of_munch_error {c : Char} {rest : List Char} {cause : ReadError.Cause}
    (h : munch c rest = .error cause) : cause.reported = [c] := by
  unfold munch at h
  split at h
  case h_6 | h_7 =>
    split at h
    · cases h
    · cases h
      rfl
  case h_8 =>
    split at h
    · cases h
    · split at h
      · cases h
        rfl
      · cases h
  all_goals cases h

/-- Errors of the scanner report a piece of the source. -/
theorem isPart_of_scanFrom_error {source : List Char} {position skip : Nat} {error : ReadError}
    (h : scanFrom position skip source = .error error) :
    IsPart error.report (source, position) := by
  induction source generalizing position skip with
  | nil => cases h
  | cons c rest ih =>
    cases skip with
    | succ skip => exact .cons c (ih h)
    | zero =>
      rw [scanFrom] at h
      split at h
      · exact .cons c (ih h)
      · split at h
        · next cause hmunch =>
          cases h
          rw [ReadError.report, reported_of_munch_error hmunch]
          exact .of_initial (List.prefix_append [c] rest) _
        · split at h
          · next hrest =>
            cases h
            exact .cons c (ih hrest)
          · cases h

/-- The tokens of a source are parts of it. -/
theorem isPart_of_mem_scanFrom {source : List Char} {position skip : Nat} {tokens : List Token}
    (h : scanFrom position skip source = .ok tokens) {t : Token} (ht : t ∈ tokens) :
    IsPart (t.lexeme, t.position) (source, position) := by
  induction source generalizing position skip tokens with
  | nil =>
    cases h
    exact absurd ht List.not_mem_nil
  | cons c rest ih =>
    cases skip with
    | succ skip => exact .cons c (ih h ht)
    | zero =>
      rw [scanFrom] at h
      split at h
      · exact .cons c (ih h ht)
      · split at h
        · cases h
        · next kind n hmunch =>
          split at h
          · cases h
          · next htokens =>
            cases h
            rcases List.mem_cons.mp ht with rfl | ht
            · exact .of_initial ((List.prefix_cons_inj c).mpr (List.take_prefix n rest)) _
            · exact .cons c (ih htokens ht)

/-! ## References

Each of several texts stands behind the comma before it, so the arguments of a reference are parts
of it. -/

theorem isPart_of_mem_located {parts : List (List Char)} {position : Nat} {a : List Char × Nat}
    (h : a ∈ located (position + 1) parts) : IsPart a (argumentText parts, position) := by
  induction parts generalizing position with
  | nil => exact absurd h List.not_mem_nil
  | cons part parts ih =>
    have hcomma : (',' : Char).utf8Size = 1 := by decide
    change IsPart a (',' :: (part ++ argumentText parts), position)
    refine .cons ',' ?_
    rw [hcomma]
    rcases List.mem_cons.mp h with rfl | h
    · exact .of_initial (List.prefix_append _ _) _
    · exact .append_left part (ih h)

theorem isPart_of_mem_arguments {t : Token} (hk : t.kind = .reference)
    (ht : IsLexeme t.kind t.lexeme) {a : List Char × Nat} (ha : a ∈ t.arguments) :
    IsPart a (t.lexeme, t.position) := by
  obtain ⟨kind, lexeme, position⟩ := t
  cases hk
  cases ht with
  | @reference inner hbraces =>
    have hbrace : ('\x7b' : Char).utf8Size = 1 := by decide
    have hinner : (Token.mk .reference ('{' :: (inner ++ ['}'])) position).inner = inner := by
      simp [Token.inner]
    rw [arguments, hinner] at ha
    obtain ⟨htext, -⟩ := exists_walk_of_divide (0, .outside) inner
    have harguments := isPart_of_mem_located ha
    refine .cons '{' ?_
    rw [hbrace]
    refine IsPart.trans ?_ (.of_initial (List.prefix_append inner ['}']) _)
    rw [htext]
    exact .append_left _ harguments

end Token

/-! ## Reading

Every term has to do with one state and with one error only. So an error shows where the source
ends, at one of the terms, or in one of them: a token that denotes no operand is to blame itself, or
one of its arguments is. -/

namespace Reading

/-- How reading comes out where a term is next: as it does from some state behind the term, with an
error at the term, or with the error of a term that denotes no operand. -/
inductive ComesOut (stop : Nat) (term : Term) (rest : List Term) :
    Except ReadError Expression → Prop
  | behind (s : State) : ComesOut stop term rest (s.resume stop rest)
  | here {cause : ReadError.Cause} (h : cause.reported <+: term.token.lexeme) :
      ComesOut stop term rest (.error ⟨term.token.position, cause⟩)
  | operand {error : ReadError} (h : term.operand = .error error) :
      ComesOut stop term rest (.error error)

theorem ComesOut.atToken {stop : Nat} {term : Term} {rest : List Term} {cause : ReadError.Cause}
    (h : cause.reported = term.token.slice.toList) :
    ComesOut stop term rest (.error ⟨term.token.position, cause⟩) := by
  have hlexeme : cause.reported = term.token.lexeme := by rw [h, Token.slice, String.toList_ofList]
  exact .here (hlexeme ▸ List.prefix_rfl)

theorem State.comesOut (s : State) (stop : Nat) (term : Term) (rest : List Term) :
    ComesOut stop term rest (s.resume stop (term :: rest)) := by
  have hnothing : ∀ lexeme : List Char, [] <+: lexeme := fun _ ↦ List.nil_prefix
  obtain ⟨⟨kind, lexeme, position⟩, operand⟩ := term
  cases s with
  | operandDue waiting outer =>
    cases kind with
    | operator =>
      simp only [State.resume, Reading.operandDue, Token.slice]
      cases PrefixOp.ofSymbol? (String.ofList lexeme) with
      | some op => exact .behind (.operandDue _ _)
      | none => exact .atToken rfl
    | openParen | openBracket => exact .behind (.operandDue _ _)
    | closeBracket =>
      rcases waiting with _ | ⟨w, waiting⟩
      · rcases outer with _ | ⟨⟨_ | ⟨_ | ⟨item, items⟩⟩, outside⟩, outer⟩
        · exact .here (hnothing _)
        · exact .here (hnothing _)
        · exact .behind (.operatorDue _ _ _)
        · exact .here (hnothing _)
      · exact .here (hnothing _)
    | number | text | reference | closeParen | comma =>
      cases operand with
      | ok e => exact .behind (.operatorDue _ _ _)
      | error error => exact .operand rfl
  | operatorDue e waiting outer =>
    cases kind with
    | operator =>
      simp only [State.resume, Reading.operatorDue, Token.slice]
      cases BinaryOp.ofSymbol? (String.ofList lexeme) with
      | some op => exact .behind (.operandDue _ _)
      | none =>
        cases PostfixOp.ofSymbol? (String.ofList lexeme) with
        | some op => exact .behind (.operatorDue _ _ _)
        | none => exact .atToken rfl
    | closeParen =>
      rcases outer with _ | ⟨⟨_ | items, outside⟩, outer⟩
      · exact .atToken rfl
      · exact .behind (.operatorDue _ _ _)
      · exact .atToken rfl
    | closeBracket =>
      rcases outer with _ | ⟨⟨_ | items, outside⟩, outer⟩
      · exact .atToken rfl
      · exact .atToken rfl
      · exact .behind (.operatorDue _ _ _)
    | comma =>
      rcases outer with _ | ⟨⟨_ | items, outside⟩, outer⟩
      · exact .atToken rfl
      · exact .atToken rfl
      · exact .behind (.operandDue _ _)
    | number | text | reference | openParen | openBracket => exact .here (hnothing _)

theorem State.resume_error {stop : Nat} {terms : List Term} {error : ReadError} (s : State)
    (h : s.resume stop terms = .error error) :
    error.report = ([], stop) ∨
      ∃ term ∈ terms, error.IsAt term.token ∨ term.operand = .error error := by
  induction terms generalizing s with
  | nil =>
    left
    rcases s with ⟨waiting, outer⟩ | ⟨e, waiting, _ | ⟨⟨bracket, outside⟩, outer⟩⟩ <;> cases h <;>
      rfl
  | cons term terms ih =>
    have hout := s.comesOut stop term terms
    generalize s.resume stop (term :: terms) = outcome at h hout
    cases hout with
    | behind s' =>
      exact (ih s' h).imp_right fun ⟨term', hmem, herror⟩ ↦
        ⟨term', List.mem_cons_of_mem _ hmem, herror⟩
    | here hreported =>
      cases h
      exact .inr ⟨term, List.mem_cons_self, .inl ⟨rfl, hreported⟩⟩
    | operand hoperand =>
      cases h
      exact .inr ⟨term, List.mem_cons_self, .inr hoperand⟩

theorem expression_error {stop : Nat} {terms : List Term} {error : ReadError}
    (h : Reading.expression stop terms = .error error) :
    error.report = ([], stop) ∨
      ∃ term ∈ terms, error.IsAt term.token ∨ term.operand = .error error := by
  cases terms with
  | nil =>
    cases h
    exact .inl rfl
  | cons term terms => exact State.start.resume_error h

end Reading

theorem error_mem_of_mapM_id {α : Type} {outcomes : List (Except ReadError α)}
    {error : ReadError} (h : outcomes.mapM id = .error error) : .error error ∈ outcomes := by
  induction outcomes with
  | nil => cases h
  | cons outcome outcomes ih =>
    rw [List.mapM_cons] at h
    cases outcome with
    | error error' =>
      cases h
      exact List.mem_cons_self
    | ok a =>
      cases hrest : outcomes.mapM id with
      | error error' =>
        rw [hrest] at h
        cases h
        exact List.mem_cons_of_mem _ (ih hrest)
      | ok as =>
        rw [hrest] at h
        cases h

theorem Token.operand_error {t : Token} (ht : IsLexeme t.kind t.lexeme) {error : ReadError}
    (h : t.term.operand = .error error) :
    error.IsAt t ∨ ∃ a ∈ t.arguments, t.kind = .reference ∧
      Expression.readAt a.2 a.1 = .error error := by
  by_cases hk : t.kind = .reference
  · by_cases hn : t.name = []
    · left
      cases (operand_of_name_eq_nil hk hn _).symm.trans h
      rw [hk] at ht
      generalize hlexeme : t.lexeme = lexeme at ht
      cases ht with
      | @reference inner =>
        refine ⟨rfl, ?_⟩
        rw [hlexeme]
        exact List.prefix_append ['\x7b'] _
    · right
      change t.operand (t.arguments.map fun a ↦ Expression.readAt a.2 a.1) = .error error at h
      cases ha : t.arguments with
      | nil =>
        rw [ha, List.map_nil, operand_nil hk hn] at h
        cases h
      | cons a as =>
        have hcall : t.operand ((a :: as).map fun a ↦ Expression.readAt a.2 a.1)
            = (((a :: as).map fun a ↦ Expression.readAt a.2 a.1).mapM id).map
                (.call (String.ofList t.name)) := operand_cons hk hn _ _
        rw [ha, hcall] at h
        cases hes : ((a :: as).map fun a ↦ Expression.readAt a.2 a.1).mapM id with
        | ok es =>
          rw [hes] at h
          cases h
        | error error' =>
          rw [hes] at h
          cases h
          obtain ⟨b, hb, herror⟩ := List.mem_map.mp (error_mem_of_mapM_id hes)
          exact ⟨b, hb, hk, herror⟩
  · left
    obtain ⟨kind, lexeme, position⟩ := t
    cases kind with
    | reference => exact absurd rfl hk
    | number | text => cases h
    | operator | openParen | closeParen | openBracket | closeBracket | comma =>
      cases h
      exact ⟨rfl, List.nil_prefix⟩

namespace Expression

/-- **Errors show where they are.** What an error of reading reports is part of the source, at the
byte that the error names. -/
theorem isPart_of_readAt_error {offset : Nat} {source : List Char} {error : ReadError}
    (h : readAt offset source = .error error) : IsPart error.report (source, offset) := by
  rw [readAt_eq] at h
  cases hscan : Token.scan offset source with
  | error error' =>
    rw [hscan] at h
    cases h
    exact Token.isPart_of_scanFrom_error hscan
  | ok tokens =>
    rw [hscan] at h
    change Reading.expression _ (tokens.map Token.term) = .error error at h
    rcases Reading.expression_error h with hend | ⟨term, hterm, herror⟩
    · rw [hend]
      exact .nil_end source offset
    · obtain ⟨t, ht, rfl⟩ := List.mem_map.mp hterm
      have htoken : IsPart (t.lexeme, t.position) (source, offset) :=
        Token.isPart_of_mem_scanFrom hscan ht
      have hlexeme := Token.isLexeme_of_mem_scan hscan ht
      rcases herror with hat | hoperand
      · exact hat.isPart.trans htoken
      · rcases Token.operand_error hlexeme hoperand with hat | ⟨a, ha, hk, hread⟩
        · exact hat.isPart.trans htoken
        · have hlength := Token.length_lexeme_le_of_mem_scanFrom hscan ht
          have hargument := Token.length_lt_of_mem_arguments ha
          have hpart := isPart_of_readAt_error hread
          exact hpart.trans ((Token.isPart_of_mem_arguments hk hlexeme ha).trans htoken)
termination_by source.length

/-- **Errors point at what they report.** The position of an error of reading is a byte of the
source or its end, a character starts there, and the text there is the one that the error reports,
however deep in arguments the error lies. -/
theorem reported_at_position {source : String} {error : ReadError}
    (h : read source = .error error) :
    error.position ≤ source.utf8ByteSize ∧
      (⟨error.position⟩ : String.Pos.Raw).IsValid source ∧
      ∃ before behind,
        source = before ++ String.ofList error.cause.reported ++ behind ∧
          before.utf8ByteSize = error.position := by
  obtain ⟨before, behind, hsource, hposition⟩ := isPart_of_readAt_error h
  have hbytes : (String.ofList before).utf8ByteSize = error.position := by
    rw [utf8ByteSize_ofList_eq]
    exact (hposition.trans (Nat.zero_add _)).symm
  have htext : source
      = String.ofList before ++ String.ofList error.cause.reported ++ String.ofList behind := by
    rw [← String.ofList_append, ← String.ofList_append, ← String.ofList_toList (s := source)]
    exact congrArg String.ofList hsource
  refine ⟨?_, ?_, _, _, htext, hbytes⟩
  · rw [htext, String.utf8ByteSize_append, String.utf8ByteSize_append, hbytes, Nat.add_assoc]
    exact Nat.le_add_right _ _
  · refine String.Pos.Raw.isValid_iff_exists_append.mpr
      ⟨String.ofList before, String.ofList error.cause.reported ++ String.ofList behind, ?_, ?_⟩
    · rw [htext, String.append_assoc]
    · exact String.Pos.Raw.ext hbytes.symm

/-- A character that cannot be a token, in an argument in an argument, behind a character of two
bytes. -/
theorem reported_at_position_nested :
    let source := "\x7bé,\x7bf,;\x7d\x7d"
    let error : ReadError := ⟨7, .unexpectedCharacter ';'⟩
    read source = .error error ∧ error.position ≤ source.utf8ByteSize ∧
      (⟨error.position⟩ : String.Pos.Raw).IsValid source ∧
      ∃ before behind,
        source = before ++ String.ofList error.cause.reported ++ behind ∧
          before.utf8ByteSize = error.position := by
  intro source error
  have hargument : readAt 7 ";".toList = .error error := by
    rw [readAt_eq]
    rfl
  have harguments : (Token.mk .reference "\x7bf,;\x7d".toList 4).arguments
      = [(";".toList, 7)] := rfl
  have hcall : readAt 4 "\x7bf,;\x7d".toList = .error error := by
    refine (readAt_eq_operand (t := ⟨.reference, "\x7bf,;\x7d".toList, 4⟩) rfl rfl).trans ?_
    rw [Token.term, harguments, List.map_singleton, hargument]
    rfl
  have hcalls : (Token.mk .reference "\x7bé,\x7bf,;\x7d\x7d".toList 0).arguments
      = [("\x7bf,;\x7d".toList, 4)] := rfl
  have h : read "\x7bé,\x7bf,;\x7d\x7d" = .error error := by
    refine (readAt_eq_operand (t := ⟨.reference, "\x7bé,\x7bf,;\x7d\x7d".toList, 0⟩)
      rfl rfl).trans ?_
    rw [Token.term, hcalls, List.map_singleton, hcall]
    rfl
  exact ⟨h, reported_at_position h⟩

end Expression

end DiceNotation
