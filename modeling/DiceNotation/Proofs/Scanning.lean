import DiceNotation.Proofs.Nesting
import DiceNotation.Proofs.Numeral

/-!
# Scanning composed texts

What the scanner makes of a text that is put together from pieces. A piece can be cut off if what
follows it cannot go on with its last token; a numeral could be continued by a digit or a point,
an operator by another character of operators, brackets and quoted texts by nothing.
-/

namespace DiceNotation

-- A property of all members is decided by going through them, whatever is imported.
attribute [local instance (high)] List.decidableBAll Option.decidableForallMem
  Option.decidableExistsMem

theorem byteLength_cons (c : Char) (s : List Char) :
    byteLength (c :: s) = c.utf8Size + byteLength s := rfl

theorem add_byteLength_cons (position : Nat) (c : Char) (s : List Char) :
    position + byteLength (c :: s) = position + c.utf8Size + byteLength s :=
  (Nat.add_assoc _ _ _).symm

theorem byteLength_append (s t : List Char) :
    byteLength (s ++ t) = byteLength s + byteLength t := by
  induction s with
  | nil => exact (Nat.zero_add _).symm
  | cons c s ih =>
    rw [List.cons_append, byteLength_cons, byteLength_cons, ih, Nat.add_assoc]

namespace Token

/-! ## Pieces of a source

The scanner passes over the rest of a token that it has taken off. One piece can stand behind
another if the second is admitted behind the first. -/

theorem passed_of_isSpace {c : Char} (h : isSpace c = true) : Passed 0 [c] := by
  simp only [isSpace, Bool.or_eq_true, beq_iff_eq] at h
  rcases h with ((rfl | rfl) | rfl) | rfl <;> exact .of_forall_plain (by decide)

theorem scanFrom_length (position : Nat) (text rest : List Char) :
    scanFrom position text.length (text ++ rest)
      = scanFrom (position + byteLength text) 0 rest := by
  induction text generalizing position with
  | nil => rfl
  | cons c text ih =>
    rw [List.length_cons, List.cons_append, scanFrom, ih, add_byteLength_cons]

/-- The text falls into the tokens, as long as what stands behind it is admitted. -/
def Scans (admitted : List Char → Prop) (position : Nat) (text : List Char)
    (tokens : List Token) : Prop :=
  ∀ rest, admitted rest → scanFrom position 0 (text ++ rest)
    = (scanFrom (position + byteLength text) 0 rest).map (tokens ++ ·)

theorem Scans.single {admitted : List Char → Prop} {kind : Kind} {c : Char} {tail : List Char}
    (hc : isSpace c = false)
    (h : ∀ rest, admitted rest → munch c (tail ++ rest) = .ok (kind, tail.length))
    (position : Nat) :
    Scans admitted position (c :: tail) [⟨kind, c :: tail, position⟩] := by
  intro rest hr
  rw [List.cons_append, scanFrom, if_neg (by simp [hc]), h rest hr]
  simp only [scanFrom_length, List.take_left, add_byteLength_cons]
  cases scanFrom (position + c.utf8Size + byteLength tail) 0 rest <;> rfl

theorem Scans.append {admitted admitted' : List Char → Prop} {position : Nat}
    {text text' : List Char} {tokens tokens' : List Token} (h : Scans admitted position text tokens)
    (h' : Scans admitted' (position + byteLength text) text' tokens')
    (ha : ∀ rest, admitted' rest → admitted (text' ++ rest)) :
    Scans admitted' position (text ++ text') (tokens ++ tokens') := by
  intro rest hr
  rw [List.append_assoc, h _ (ha rest hr), h' rest hr, byteLength_append, Nat.add_assoc]
  cases scanFrom (position + (byteLength text + byteLength text')) 0 rest <;>
    simp [Except.map, List.append_assoc]

theorem Scans.scan_eq {admitted : List Char → Prop} {position : Nat} {text : List Char}
    {tokens : List Token} (h : Scans admitted position text tokens) (ha : admitted []) :
    scan position text = .ok tokens := by
  have hnil := h [] ha
  rw [List.append_nil] at hnil
  rw [scan, hnil, scanFrom]
  simp [Except.map]

/-! ## Operators -/

/-- What stands here cannot go on with an operator before it. -/
def EndsOperator (rest : List Char) : Prop :=
  ∀ c ∈ rest.head?, ∀ s ∈ operatorSymbols, c ∉ s.toList

theorem endsOperator_cons {c : Char} (h : ∀ s ∈ operatorSymbols, c ∉ s.toList)
    (rest : List Char) : EndsOperator (c :: rest) := by
  rintro d ⟨⟩
  exact h

theorem foldl_longest {p : String → Bool} {n : Nat} (symbols : List String) (longest : Nat)
    (hlongest : longest ≤ n) (hle : ∀ s ∈ symbols, p s = true → s.length ≤ n)
    (hex : longest = n ∨ ∃ s ∈ symbols, p s = true ∧ s.length = n) :
    symbols.foldl (fun longest s ↦ if p s then max longest s.length else longest) longest = n := by
  induction symbols generalizing longest with
  | nil => simpa using hex
  | cons t symbols ih =>
    rw [List.foldl_cons]
    refine ih _ ?_ (fun s hs ↦ hle s (List.mem_cons_of_mem t hs)) ?_
    · split
      · next ht => exact Nat.max_le.mpr ⟨hlongest, hle t List.mem_cons_self ht⟩
      · exact hlongest
    · rcases hex with rfl | ⟨s, hs, hp, rfl⟩
      · left
        split
        · next ht => exact Nat.max_eq_left (hle t List.mem_cons_self ht)
        · rfl
      · rcases List.mem_cons.mp hs with rfl | hs
        · left
          rw [if_pos hp]
          exact Nat.max_eq_right hlongest
        · exact Or.inr ⟨s, hs, hp, rfl⟩

/-- An operator is the longest one where it is followed by what cannot go on with it. -/
theorem operatorLength_append {s : String} (hs : s ∈ operatorSymbols) {rest : List Char}
    (hr : EndsOperator rest) : operatorLength (s.toList ++ rest) = s.length := by
  refine foldl_longest _ 0 (Nat.zero_le _) (fun t ht hp ↦ ?_) (Or.inr ⟨s, hs, ?_, rfl⟩)
  · rw [List.isPrefixOf_iff_prefix] at hp
    rcases List.prefix_or_prefix_of_prefix hp (List.prefix_append _ _) with h | ⟨u, hu⟩
    · exact h.length_le
    · rw [← hu, List.prefix_append_right_inj] at hp
      cases u with
      | nil =>
        rw [List.append_nil] at hu
        exact Nat.le_of_eq (congrArg List.length hu.symm)
      | cons c u =>
        obtain ⟨v, hv⟩ := hp
        exact absurd (hu ▸ List.mem_append_right _ List.mem_cons_self) (hr c (by simp [← hv]) t ht)
  · rw [List.isPrefixOf_iff_prefix]
    exact List.prefix_append _ _

theorem munch_of_operatorLength {c : Char} (h : ∃ s ∈ operatorSymbols, c ∈ s.toList)
    {rest : List Char} {n : Nat} (hlen : operatorLength (c :: rest) = n + 1) :
    munch c rest = .ok (.operator, n) := by
  have hdigit : c.isDigit = false := by
    obtain ⟨s, hs, hc⟩ := h
    exact (by decide : ∀ s ∈ operatorSymbols, ∀ c ∈ s.toList, c.isDigit = false) s hs c hc
  unfold munch
  split
  case h_8 => rw [if_neg (by simp [hdigit]), hlen]
  all_goals exact absurd h (by decide)

theorem scans_operator {s : String} (hs : s ∈ operatorSymbols) (position : Nat) :
    Scans EndsOperator position s.toList [⟨.operator, s.toList, position⟩] := by
  have hne : s.toList ≠ [] := (by decide : ∀ s ∈ operatorSymbols, s.toList ≠ []) s hs
  obtain ⟨c, tail, htext⟩ := List.exists_cons_of_ne_nil hne
  have hmem : c ∈ s.toList := htext ▸ List.mem_cons_self
  have hspace : isSpace c = false :=
    (by decide : ∀ s ∈ operatorSymbols, ∀ c ∈ s.toList, isSpace c = false) s hs c hmem
  rw [htext]
  refine Scans.single hspace (fun rest hr ↦ munch_of_operatorLength ⟨s, hs, hmem⟩ ?_) position
  rw [← List.cons_append, ← htext, operatorLength_append hs hr, ← String.length_toList, htext,
    List.length_cons]

theorem passed_symbol {s : String} (hs : s ∈ operatorSymbols) : Passed 0 s.toList :=
  .of_forall_plain ((by decide : ∀ s ∈ operatorSymbols, ∀ c ∈ s.toList,
    c ∉ ['{', '[', '(', '}', ']', ')', '"', ',']) s hs)

/-! ## Numerals, brackets and quoted texts

A mark can stand behind everything, and everything can stand behind a mark. -/

theorem isSpace_of_isDigit {c : Char} (h : c.isDigit = true) : isSpace c = false := by
  refine Bool.eq_false_iff.mpr fun hs ↦ ?_
  simp only [isSpace, Bool.or_eq_true, beq_iff_eq] at hs
  rcases hs with ((rfl | rfl) | rfl) | rfl <;> exact absurd h (by decide)

theorem scans_numeral {text : List Char} (h : Binary64.IsNumeral text) (position : Nat) :
    Scans Binary64.EndsNumeral position text [⟨.number, text, position⟩] := by
  obtain ⟨c, tail, rfl, hc, hmunch⟩ := h.exists_munch
  exact Scans.single (isSpace_of_isDigit hc) hmunch position

theorem passed_numeral {text : List Char} (h : Binary64.IsNumeral text) : Passed 0 text := by
  obtain ⟨whole, fraction, -, hd, rfl⟩ := h
  have hplain : ∀ c, c.isDigit = true ∨ c = '.' →
      c ∉ ['{', '[', '(', '}', ']', ')', '"', ','] := by
    intro c hc hmem
    simp only [List.mem_cons, List.not_mem_nil, or_false] at hmem
    rcases hmem with rfl | rfl | rfl | rfl | rfl | rfl | rfl | rfl <;> exact absurd hc (by decide)
  refine .of_forall_plain fun c hc ↦ hplain c ?_
  rw [Binary64.decimalText] at hc
  rcases List.mem_append.mp hc with hc | hc
  · exact Or.inl (hd c (List.mem_append_left _ hc))
  · split at hc
    · exact absurd hc List.not_mem_nil
    · rcases List.mem_cons.mp hc with rfl | hc
      · exact Or.inr rfl
      · exact Or.inl (hd c (List.mem_append_right _ hc))

/-- A character that is a token by itself and cannot go on with a token before it: a bracket or a
comma. -/
structure IsMark (c : Char) (kind : Kind) : Prop where
  munch_eq : ∀ rest, munch c rest = .ok (kind, 0)
  isSpace_eq : isSpace c = false
  not_numeral : c.isDigit = false ∧ c ≠ '.'
  not_operator : ∀ s ∈ operatorSymbols, c ∉ s.toList

theorem isMark_openParen : IsMark '(' .openParen := ⟨fun _ ↦ rfl, rfl, by decide, by decide⟩

theorem isMark_closeParen : IsMark ')' .closeParen := ⟨fun _ ↦ rfl, rfl, by decide, by decide⟩

theorem isMark_openBracket : IsMark '[' .openBracket := ⟨fun _ ↦ rfl, rfl, by decide, by decide⟩

theorem isMark_closeBracket : IsMark ']' .closeBracket := ⟨fun _ ↦ rfl, rfl, by decide, by decide⟩

theorem isMark_comma : IsMark ',' .comma := ⟨fun _ ↦ rfl, rfl, by decide, by decide⟩

namespace IsMark

variable {c : Char} {kind : Kind}

theorem scans (h : IsMark c kind) (admitted : List Char → Prop) (position : Nat) :
    Scans admitted position [c] [⟨kind, [c], position⟩] :=
  @Scans.single admitted kind c [] h.isSpace_eq (fun rest _ ↦ h.munch_eq rest) position

theorem endsNumeral (h : IsMark c kind) (rest : List Char) :
    Binary64.EndsNumeral (c :: rest) := by
  rintro d ⟨⟩
  exact h.not_numeral

theorem endsOperator (h : IsMark c kind) (rest : List Char) : EndsOperator (c :: rest) :=
  endsOperator_cons h.not_operator rest

end IsMark

theorem Scans.append_mark {text : List Char} {tokens : List Token} {position : Nat}
    (h : Scans Binary64.EndsNumeral position text tokens) {c : Char} {kind : Kind}
    (hc : IsMark c kind) (admitted : List Char → Prop) :
    Scans admitted position (text ++ [c])
      (tokens ++ [⟨kind, [c], position + byteLength text⟩]) :=
  h.append (hc.scans admitted _) fun rest _ ↦ hc.endsNumeral rest

theorem IsMark.scans_cons {c : Char} {kind : Kind} (hc : IsMark c kind)
    {admitted : List Char → Prop} {position : Nat} {text : List Char} {tokens : List Token}
    (h : Scans admitted (position + byteLength [c]) text tokens) :
    Scans admitted position (c :: text) (⟨kind, [c], position⟩ :: tokens) :=
  (hc.scans (fun _ ↦ True) position).append h fun _ _ ↦ trivial

theorem textTail?_cons {c : Char} (hq : c ≠ '"') (hb : c ≠ '\\') (rest : List Char) :
    textTail? (c :: rest) = (textTail? rest).map (· + 1) := by
  cases rest <;> simp [textTail?, hb]

theorem textTail?_encodeBody (text rest : List Char) :
    textTail? (Quoted.encodeBody text ++ '"' :: rest)
      = some ((Quoted.encodeBody text).length + 1) := by
  induction text with
  | nil => rfl
  | cons c text ih =>
    rw [Quoted.encodeBody]
    split
    · next hc =>
      have hn : c ≠ '\n' := by
        rintro rfl
        exact absurd hc (by decide)
      simp [textTail?, hn, ih]
    · next hc =>
      rw [not_or] at hc
      rw [List.cons_append, textTail?_cons hc.1 hc.2, ih]
      rfl

theorem munch_quote {rest : List Char} {n : Nat} (h : textTail? rest = some n) :
    munch '"' rest = .ok (.text, n) := by
  simp [munch, h]

theorem scans_quoted {admitted : List Char → Prop} (text : List Char) (position : Nat) :
    Scans admitted position (Quoted.encode text) [⟨.text, Quoted.encode text, position⟩] := by
  refine Scans.single rfl (fun rest _ ↦ munch_quote ?_) position
  have htail := textTail?_encodeBody text rest
  simpa using htail

theorem take_encodeBody (text : List Char) :
    (Quoted.encodeBody text ++ ['"']).take ((Quoted.encodeBody text).length + 1)
      = Quoted.encodeBody text ++ ['"'] :=
  List.take_of_length_le (by simp)

theorem passed_encode (text : List Char) : Passed 0 (Quoted.encode text) := by
  have hpassed := Leads.quoted (textTail?_encodeBody text [])
  rwa [take_encodeBody] at hpassed

/-! ## References -/

theorem munch_brace {rest : List Char} {n : Nat} (h : referenceTail? 1 .outside rest = some n) :
    munch '{' rest = .ok (.reference, n) := by
  simp [munch, h]

/-- A reference ends at the brace behind a text that opens and closes its own braces. -/
theorem scans_reference {inner : List Char}
    (h : Scan.braces.walk (0, .outside) inner = some (0, .outside))
    (admitted : List Char → Prop) (position : Nat) :
    Scans admitted position ('{' :: (inner ++ ['}']))
      [⟨.reference, '{' :: (inner ++ ['}']), position⟩] := by
  refine Scans.single rfl (fun rest _ ↦ munch_brace ?_) position
  rw [List.append_assoc]
  refine (referenceTail?_of_walk h _).trans ?_
  simp [referenceTail?, Nat.add_comm]

/-! ## Lexemes

What has been put together is taken apart again: the scanner makes nothing else into tokens. -/

/-- The text is one that the scanner takes for a token of this kind. -/
inductive IsLexeme : Kind → List Char → Prop
  | number {text : List Char} (h : Binary64.IsNumeral text) : IsLexeme .number text
  | operator {s : String} (hs : s ∈ operatorSymbols) : IsLexeme .operator s.toList
  | openParen : IsLexeme .openParen ['(']
  | closeParen : IsLexeme .closeParen [')']
  | openBracket : IsLexeme .openBracket ['[']
  | closeBracket : IsLexeme .closeBracket [']']
  | comma : IsLexeme .comma [',']
  | text {tail : List Char} {n : Nat} (h : textTail? tail = some n) :
      IsLexeme .text ('"' :: tail.take n)
  | reference {inner : List Char}
      (h : Scan.braces.walk (0, .outside) inner = some (0, .outside)) :
      IsLexeme .reference ('{' :: (inner ++ ['}']))

/-- The longest length is one of those that there are. -/
theorem exists_of_foldl_longest {p : String → Bool} {symbols : List String} {longest n : Nat}
    (h : symbols.foldl (fun longest s ↦ if p s then max longest s.length else longest) longest
      = n) :
    n = longest ∨ ∃ s ∈ symbols, p s = true ∧ s.length = n := by
  induction symbols generalizing longest with
  | nil => exact .inl h.symm
  | cons t symbols ih =>
    rw [List.foldl_cons] at h
    rcases ih h with rfl | ⟨s, hs, hp⟩
    · split
      · next ht =>
        rcases Nat.le_total t.length longest with hle | hle
        · exact .inl (Nat.max_eq_left hle)
        · exact .inr ⟨t, List.mem_cons_self, ht, (Nat.max_eq_right hle).symm⟩
      · exact .inl rfl
    · exact .inr ⟨s, List.mem_cons_of_mem t hs, hp⟩

theorem exists_symbol_of_operatorLength {text : List Char} {n : Nat}
    (h : operatorLength text = n + 1) : ∃ s ∈ operatorSymbols, s.toList = text.take (n + 1) := by
  rcases exists_of_foldl_longest h with hzero | ⟨s, hs, hp, hlength⟩
  · exact absurd hzero (Nat.succ_ne_zero n)
  · refine ⟨s, hs, ?_⟩
    rw [← hlength, ← String.length_toList]
    exact List.prefix_iff_eq_take.mp (List.isPrefixOf_iff_prefix.mp hp)

/-- What is taken off the head of a text is a token of its kind. -/
theorem isLexeme_of_munch {c : Char} {rest : List Char} {kind : Kind} {n : Nat}
    (h : munch c rest = .ok (kind, n)) : IsLexeme kind (c :: rest.take n) := by
  unfold munch at h
  split at h
  case h_1 => cases h; exact .openParen
  case h_2 => cases h; exact .closeParen
  case h_3 => cases h; exact .openBracket
  case h_4 => cases h; exact .closeBracket
  case h_5 => cases h; exact .comma
  case h_6 =>
    split at h
    · next htail =>
      cases h
      exact .text htail
    · cases h
  case h_7 =>
    split at h
    · next htail =>
      cases h
      obtain ⟨inner, rest, rfl, rfl, hwalk⟩ :=
        @exists_walk_of_referenceTail? (0, .outside) _ _ htail
      have htake : (inner ++ '}' :: rest).take (inner.length + 1) = inner ++ ['}'] := by
        have hlength : inner.length + 1 = (inner ++ ['}']).length := by simp
        rw [List.append_cons, hlength, List.take_left]
      rw [htake]
      exact .reference hwalk
    · cases h
  case h_8 =>
    split at h
    · next hdigit =>
      cases h
      exact .number (Binary64.isNumeral_of_isDigit hdigit rest)
    · split at h
      · cases h
      · next hlength =>
        cases h
        obtain ⟨s, hs, htake⟩ := exists_symbol_of_operatorLength hlength
        rw [List.take_succ_cons] at htake
        exact htake ▸ .operator hs

end Token

end DiceNotation
