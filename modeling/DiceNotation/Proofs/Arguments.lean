import DiceNotation.Proofs.Operands
import DiceNotation.Proofs.Positions

/-!
# Sources as arguments

A source that can be read by itself can stand as an argument of a call, and is read there as the
same expression: the two scans of the reference around it pass over it. They count the brackets that
are open, and so does reading, with the same result at every place between two tokens
(`Reading.Step.leads`).

Names are the exception. Reading does not look into them, and the scan for the closing brace counts
braces only; but the scan for commas counts all brackets. One that is left open in a name hides the
commas behind it, and one that is closed there shows commas of the lists around it. Neither happens
if the brackets in every name are balanced.
-/

namespace DiceNotation

-- A property of all members is decided by going through them, whatever is imported.
attribute [local instance (high)] List.decidableBAll Option.decidableForallMem

open Token Reading

/-- The brackets in the name are balanced, if the expression refers to one. -/
def Expression.HasBalancedName (e : Expression) : Prop :=
  ∀ name, e.name? = some name → Balanced name.toList

theorem Expression.aboutOperands_hasBalancedName : AboutOperands HasBalancedName where
  list _ := by rintro name ⟨⟩
  prefixed _ _ := by rintro name ⟨⟩
  binary _ _ _ := by rintro name ⟨⟩
  postfixed _ _ := by rintro name ⟨⟩

/-! ## Lexemes inside references

Numbers, operators and quoted texts are passed over wherever they stand. A reference is passed over
inside brackets if its name is balanced and its arguments, which are the parts behind the name, are
passed over. -/

namespace Token

/-- Inside brackets, a balanced name is passed over if it closes its own braces. -/
theorem passed_of_balanced {name : List Char}
    (hbraces : Scan.braces.walk (0, .outside) name = some (0, .outside)) (h : Balanced name) :
    Passed 1 name where
  braces := hbraces
  commas depth := by
    have hcommas := Scan.walk_commas_of_brackets h depth
    rwa [Nat.zero_add] at hcommas

theorem passed_inner {inner : List Char}
    (hbraces : Scan.braces.walk (0, .outside) inner = some (0, .outside))
    (hname : Balanced (Blank.trim (divide 0 .outside inner).1))
    (hargs : ∀ part ∈ (divide 0 .outside inner).2, Passed 0 part) : Passed 1 inner where
  braces := hbraces
  commas depth := by
    obtain ⟨hinner, -⟩ := exists_walk_of_divide (0, .outside) inner
    obtain ⟨before, behind, hfirst, hbefore, hbehind⟩ :=
      Blank.exists_append_trim (divide 0 .outside inner).1
    have hblank {text : List Char} (h : ∀ c ∈ text, Blank.isBlank c = true) : Passed 1 text :=
      (Blank.passed_of_isBlank h).mono (Nat.zero_le 1)
    have hname := Scan.walk_commas_of_brackets hname depth
    rw [Nat.zero_add] at hname
    have hfirst : Scan.commas.walk (depth + 1, .outside) (divide 0 .outside inner).1
        = some (depth + 1, .outside) := by
      rw [hfirst, Scan.walk_append ((hblank hbefore).commas depth), Scan.walk_append hname]
      exact (hblank hbehind).commas depth
    rw [hinner, Scan.walk_append hfirst]
    exact (passed_argumentText hargs).commas depth

theorem map_fst_located (position : Nat) (parts : List (List Char)) :
    (located position parts).map Prod.fst = parts := by
  induction parts generalizing position with
  | nil => rfl
  | cons part parts ih => rw [located, List.map_cons, ih]

theorem map_fst_arguments (t : Token) :
    t.arguments.map Prod.fst = (divide 0 .outside t.inner).2 :=
  map_fst_located _ _

theorem forall_mem_divide {t : Token} {P : List Char → Prop} (h : ∀ a ∈ t.arguments, P a.1) :
    ∀ part ∈ (divide 0 .outside t.inner).2, P part := by
  intro part hpart
  rw [← map_fst_arguments] at hpart
  obtain ⟨a, ha, rfl⟩ := List.mem_map.mp hpart
  exact h a ha

theorem walk_braces_inner {t : Token} (hk : t.kind = .reference) (ht : IsLexeme t.kind t.lexeme) :
    Scan.braces.walk (0, .outside) t.inner = some (0, .outside) := by
  obtain ⟨kind, lexeme, position⟩ := t
  cases hk
  cases ht with
  | reference hbraces => simpa [Token.inner] using hbraces

theorem passed_reference {t : Token} (hk : t.kind = .reference) (ht : IsLexeme t.kind t.lexeme)
    (hname : Balanced t.name) (hargs : ∀ a ∈ t.arguments, Passed 0 a.1) : Passed 0 t.lexeme := by
  have hinner := passed_inner (walk_braces_inner hk ht) hname (forall_mem_divide hargs)
  obtain ⟨kind, lexeme, position⟩ := t
  cases hk
  cases ht with
  | reference =>
    rw [Token.inner, List.tail_cons, List.dropLast_concat] at hinner
    exact hinner.braced

theorem passed_of_denotes {t : Token} {e : Expression} (ht : IsLexeme t.kind t.lexeme)
    (h : t.Denotes e) (hname : e.HasBalancedName)
    (hargs : t.kind = .reference → ∀ a ∈ t.arguments, Passed 0 a.1) : Passed 0 t.lexeme := by
  have hbalanced (heq : e.name? = some (String.ofList t.name)) : Balanced t.name := by
    have hname := hname _ heq
    rwa [String.toList_ofList] at hname
  cases h with
  | number hk =>
    obtain ⟨kind, lexeme, position⟩ := t
    cases hk
    cases ht with
    | number h => exact passed_numeral h
  | text hk =>
    obtain ⟨kind, lexeme, position⟩ := t
    cases hk
    cases ht with
    | text h => exact .quoted h
  | reference hk => exact passed_reference hk ht (hbalanced rfl) (hargs hk)
  | call hk => exact passed_reference hk ht (hbalanced rfl) (hargs hk)

end Token

/-! ## Brackets that are open

Reading keeps a stack of the brackets that are open, and the scans keep their number. The number is
the height of the stack at every place between two tokens. -/

namespace Reading

/-- How many brackets are open. -/
def State.depth : State → Nat
  | .operandDue _ outer => outer.length
  | .operatorDue _ _ outer => outer.length

theorem passed_of_isSymbol {t : Token} {symbol : String} (h : t.IsSymbol symbol)
    (hs : symbol ∈ operatorSymbols) : Passed 0 t.lexeme := by
  have hlexeme : symbol.toList = t.lexeme := by
    rw [← h.2, Token.slice, String.toList_ofList]
  exact hlexeme ▸ passed_symbol hs

/-- **A step opens and closes brackets** as the scans of a reference do in the token. -/
theorem Step.leads {s s' : State} {t : Token} (h : Step s t s') (ht : IsLexeme t.kind t.lexeme)
    (hoperand : ∀ e, t.Denotes e → Passed 0 t.lexeme) : Leads s.depth s'.depth t.lexeme := by
  have hmark {kind : Kind} {c : Char} (hk : t.kind = kind)
      (hc : ∀ text, IsLexeme kind text → text = [c]) : t.lexeme = [c] := hc _ (hk ▸ ht)
  have hinside {depth : Nat} (h : Passed 0 t.lexeme) : Passed depth t.lexeme :=
    h.mono (Nat.zero_le depth)
  cases h with
  | prefixed op hop | binary op hop | postfixed op hop =>
    exact hinside (passed_of_isSymbol hop op.symbol_mem)
  | operand he => exact hinside (hoperand _ he)
  | openParen hk => exact hmark hk (by rintro _ ⟨⟩; rfl) ▸ .opening (.inl rfl) _
  | openBracket hk => exact hmark hk (by rintro _ ⟨⟩; rfl) ▸ .opening (.inr rfl) _
  | closeParen hk => exact hmark hk (by rintro _ ⟨⟩; rfl) ▸ .closing (.inl rfl) _
  | closeBracket hk | emptyList hk =>
    exact hmark hk (by rintro _ ⟨⟩; rfl) ▸ .closing (.inr rfl) _
  | comma hk =>
    -- Reading allows a comma only in a list, so there is a bracket open around it.
    rw [hmark hk (by rintro _ ⟨⟩; rfl)]
    exact .plain (by decide) fun hzero ↦ absurd hzero (Nat.succ_ne_zero _)

theorem Run.leads {source : List Char} {position skip : Nat} {tokens : List Token} {s s' : State}
    (hscan : scanFrom position skip source = .ok tokens) (hrun : Run s tokens s')
    (hoperand : ∀ t ∈ tokens, ∀ e, t.Denotes e → Passed 0 t.lexeme) :
    Leads s.depth s'.depth (source.drop skip) := by
  induction source generalizing position skip tokens s with
  | nil =>
    cases hscan
    cases hrun
    rw [List.drop_nil]
    exact .nil _
  | cons c rest ih =>
    cases skip with
    | succ skip => exact ih hscan hrun hoperand
    | zero =>
      rw [scanFrom] at hscan
      split at hscan
      · next hspace =>
        have hc : Passed 0 [c] := passed_of_isSpace hspace
        exact (hc.mono (Nat.zero_le _)).append (ih hscan hrun hoperand)
      · split at hscan
        · cases hscan
        · next kind n hmunch =>
          split at hscan
          · cases hscan
          · next more hmore =>
            cases hscan
            obtain ⟨hfirst, hrest⟩ := List.forall_mem_cons.mp hoperand
            cases hrun with
            | cons hstep hrun =>
              have hlexeme := hstep.leads (isLexeme_of_munch hmunch) hfirst
              have hmore := hlexeme.append (ih hmore hrun hrest)
              rwa [List.cons_append, List.take_append_drop] at hmore

end Reading

/-! ## Sources inside references -/

/-- **A source that is read is passed over** by the scans of a reference around it, if the names in
it are balanced. -/
theorem Expression.passed_of_readAt {offset : Nat} {source : List Char} {e : Expression}
    (h : readAt offset source = .ok e) (hnames : e.Everywhere HasBalancedName) :
    Passed 0 source := by
  refine readAt_induction
    (motive := fun _ source e ↦ e.Everywhere HasBalancedName → Passed 0 source) ?_ h hnames
  intro offset source tokens e hscan ih hreads hnames
  have hdenoted := (hreads.everywhere_iff aboutOperands_hasBalancedName).mp hnames
  have hoperand : ∀ t ∈ tokens, ∀ e, t.Denotes e → Passed 0 t.lexeme := by
    intro t ht e he
    have hbalanced := hdenoted t ht e he
    refine passed_of_denotes (isLexeme_of_mem_scan hscan ht) he hbalanced.self fun hk a ha ↦ ?_
    obtain ⟨e', hmem, he'⟩ := he.exists_mem_children hk ha
    exact ih t ht a ha e' he' (hbalanced.of_mem_children hmem)
  obtain ⟨e, waiting, hrun, rfl⟩ := hreads
  exact Run.leads hscan hrun hoperand

/-! ## Calls -/

theorem Token.intercalate_comma (name : List Char) (sources : List (List Char)) :
    [','].intercalate (name :: sources) = name ++ argumentText sources := by
  induction sources generalizing name with
  | nil => simp [argumentText]
  | cons source sources ih =>
    rw [List.intercalate_cons_cons, ih, List.append_assoc]
    rfl

namespace Expression

/-- The source of a call: in braces, the name and the sources of the arguments, with commas between
them. -/
def callSource (name : String) (sources : List String) : String :=
  "\x7b" ++ ",".intercalate (name :: sources) ++ "\x7d"

theorem toList_callSource (name : String) (sources : List String) :
    (callSource name sources).toList
      = '{' :: (name.toList ++ argumentText (sources.map String.toList) ++ ['}']) := by
  rw [callSource, String.toList_append, String.toList_append, String.toList_intercalate,
    List.map_cons, ← intercalate_comma]
  rfl

/-- **Any expression can be an argument.** Sources that are read by themselves are read as the
arguments of a call, if the names in them are balanced. -/
theorem read_callSource {name : String} (hname : IsName name.toList)
    {arguments : List (String × Expression)} (hne : arguments ≠ [])
    (hread : ∀ a ∈ arguments, read a.1 = .ok a.2)
    (hnames : ∀ a ∈ arguments, a.2.Everywhere HasBalancedName) :
    read (callSource name (arguments.map Prod.fst))
      = .ok (.call name (arguments.map Prod.snd)) := by
  have hpassed : ∀ s ∈ arguments.map (·.1.toList), Passed 0 s := by
    intro s hs
    obtain ⟨a, ha, rfl⟩ := List.mem_map.mp hs
    exact passed_of_readAt (hread a ha) (hnames a ha)
  have hanywhere : ∀ a ∈ arguments.map (fun a ↦ (a.1.toList, a.2)), ∀ offset,
      readAt offset a.1 = .ok a.2 := by
    intro b hb
    obtain ⟨a, ha, rfl⟩ := List.mem_map.mp hb
    exact readAt_of_read (hread a ha)
  have hspells := spells_reference
    (by rw [List.map_map]; exact hname.isReference hpassed) hanywhere
  rw [List.map_map, List.map_map, String.ofList_toList] at hspells
  rw [read, toList_callSource, List.map_map]
  refine (hspells.readAt_eq 0).trans ?_
  obtain ⟨a, arguments, rfl⟩ := List.exists_cons_of_ne_nil hne
  rfl

/-- Names may have brackets and commas in them, as long as the brackets are balanced. -/
theorem read_callSource_balanced :
    read "\x7ba(b)\x7d" = .ok (.reference "a(b)") ∧ Balanced "a(b)".toList ∧
      read (callSource "f" ["\x7ba(b)\x7d"]) = .ok (.call "f" [.reference "a(b)"]) := by
  have hname : IsName "f".toList := ⟨by decide, by decide, by decide, by decide⟩
  have hread : read "\x7ba(b)\x7d" = .ok (.reference "a(b)") := by
    rw [read, readAt_eq]
    rfl
  have hbalanced : Balanced "a(b)".toList := by decide
  have hnames : (reference "a(b)").Everywhere HasBalancedName := by
    refine .of_children_eq_nil ?_ rfl
    rintro _ ⟨⟩
    exact hbalanced
  exact ⟨hread, hbalanced,
    @read_callSource "f" hname [("\x7ba(b)\x7d", .reference "a(b)")] (by simp)
      (by simpa using hread) (by simpa using hnames)⟩

/-- A bracket that is open in a name takes the comma behind the argument for one of its own. -/
theorem read_callSource_unbalanced :
    read "\x7ba(\x7d" = .ok (.reference "a(") ∧
      read "1" = .ok (.literal (.const (numeral ['1']))) ∧
      read (callSource "f" ["\x7ba(\x7d", "1"])
        = .error ⟨7, .unexpectedToken (some ",") ["an operator"]⟩ := by
  have hone : readAt 3 "\x7ba(\x7d,1".toList
      = .error ⟨7, .unexpectedToken (some ",") ["an operator"]⟩ := by
    rw [readAt_eq]
    rfl
  have harguments : (Token.mk .reference "\x7bf,\x7ba(\x7d,1\x7d".toList 0).arguments
      = [("\x7ba(\x7d,1".toList, 3)] := rfl
  refine ⟨?_, ?_, ?_⟩
  · rw [read, readAt_eq]
    rfl
  · rw [read, readAt_eq]
    rfl
  · rw [read, toList_callSource]
    refine (readAt_eq_operand (t := ⟨.reference, "\x7bf,\x7ba(\x7d,1\x7d".toList, 0⟩)
      rfl rfl).trans ?_
    rw [Token.term, harguments, List.map_singleton, hone]
    rfl

end Expression

end DiceNotation
