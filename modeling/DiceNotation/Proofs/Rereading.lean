import DiceNotation.Proofs.Arguments
import DiceNotation.Proofs.RoundTrip

/-!
# Sources written again

An expression that has been read is written as a source that is read as the same expression. This
may be quite another source: it has no blanks around names, parentheses of its own and the shortest
numerals.

The proof has two halves that meet at the expressions that can be written (`IsLegible`). That these
are read back is due to their codes being fully bracketed. Here it is shown that everything that is
read can be written, with two exceptions. A numeral may be too large for a number; it is read as an
infinite one, and there is no numeral for that. And a name with unbalanced brackets may be read in
an argument only because of parentheses around it, which are not written again.
-/

namespace DiceNotation

open Token Reading

/-! ## Literals that are read

A numeral stands for a number without a sign, so what has been read is read back as it is, if it can
be. -/

theorem Binary64.beq_self_of_isFinite {x : Binary64} (h : x.isFinite = true) :
    (x == x) = true := by
  cases x with
  | finite s n hn => exact finite_beq_finite hn hn (.inl rfl)
  | infinite s => exact absurd h Bool.false_ne_true
  | nan => exact absurd h Bool.false_ne_true

theorem Number.reread_numeral (lexeme : List Char) :
    (Number.const (numeral lexeme)).reread = .literal (.const (numeral lexeme)) := by
  have hsign : (numeral lexeme).isNegative = false ∧ (numeral lexeme).abs = numeral lexeme := by
    rw [numeral, Binary64.ofDecimal, Binary64.ofQuotient]
    split
    · exact ⟨Binary64.isNegative_finite false _ _, rfl⟩
    · exact ⟨by decide +kernel, rfl⟩
  rw [Number.reread, Number.const, if_neg (by simp [hsign.1]), hsign.2]
  rfl

namespace Expression

/-- The expression is not a literal that is read back as something else. -/
def IsReread : Expression → Prop
  | .literal x => x.reread = .literal x
  | _ => True

theorem aboutOperands_isReread : AboutOperands IsReread :=
  ⟨fun _ ↦ trivial, fun _ _ ↦ trivial, fun _ _ _ ↦ trivial, fun _ _ ↦ trivial⟩

theorem reread_of_readAt {offset : Nat} {source : List Char} {e : Expression}
    (h : readAt offset source = .ok e) : e.reread = e := by
  have hliterals : e.Everywhere IsReread := by
    refine readAt_induction (motive := fun _ _ e ↦ e.Everywhere IsReread) ?_ h
    intro offset source tokens e _ ih hreads
    refine (hreads.everywhere_iff aboutOperands_isReread).mpr fun t ht e he ↦ ?_
    cases he with
    | number => exact .of_children_eq_nil (Number.reread_numeral _) rfl
    | text | reference => exact .of_children_eq_nil trivial rfl
    | call _ _ _ hes =>
      refine everywhere_iff.mpr ⟨trivial, fun c hc ↦ ?_⟩
      obtain ⟨a, ha, hc⟩ := exists_of_mem_of_forall₂ hes.flip hc
      exact ih t ht a ha c hc
  exact (mapLiterals_congr fun x hx ↦ hliterals _ hx).trans (mapLiterals_literal e)

end Expression

/-! ## Names that are read

The name in a reference closes its own braces, if the arguments do. So it can be written again, with
any arguments that are passed over. -/

namespace Blank

variable {c : Char} (h : isBlank c = true)

include h

theorem ignores_braces : Scan.braces.Ignores c := by
  have hc := notMem_of_isBlank h
  simp only [List.mem_cons, not_or] at hc
  exact ⟨by simp [hc], by simp [Scan.braces, hc], by simp [Scan.braces, hc]⟩

theorem ignores_commas : Scan.commas.Ignores c := by
  have hc := notMem_of_isBlank h
  simp only [List.mem_cons, not_or] at hc
  exact ⟨by simp [hc], by simp [Scan.commas, hc], by simp [Scan.commas, nesting, hc]⟩

end Blank

/-- A scan that goes over a text goes over what is left without the blanks at its ends, and leads to
the same place, if that is outside quoted text. -/
theorem Scan.exists_walk_trim {s : Scan} (hs : ∀ c, Blank.isBlank c = true → s.Ignores c)
    {text : List Char} {behind : Nat × Quotation}
    (h : s.walk (0, .outside) text = some behind) :
    ∃ behind', s.walk (0, .outside) (Blank.trim text) = some behind' ∧
      (behind.2 = .outside → behind' = behind) := by
  obtain ⟨before, after, htext, hbefore, hafter⟩ := Blank.exists_append_trim text
  rw [htext, walk_append (walk_of_ignores (fun c hc ↦ hs c (hbefore c hc)) 0)] at h
  obtain ⟨behind', htrim, h⟩ := exists_walk_of_append h
  refine ⟨behind', htrim, fun hbehind ↦ ?_⟩
  obtain ⟨depth, quotation⟩ := behind
  cases hbehind
  exact eq_of_walk_of_ignores (fun c hc ↦ hs c (hafter c hc)) h

namespace Token

variable {inner : List Char}

theorem walk_braces_argumentText {sources : List (List Char)}
    (h : ∀ s ∈ sources, Scan.braces.walk (0, .outside) s = some (0, .outside)) :
    Scan.braces.walk (0, .outside) (argumentText sources) = some (0, .outside) := by
  induction sources with
  | nil => rfl
  | cons s sources ih =>
    obtain ⟨hs, hsources⟩ := List.forall_mem_cons.mp h
    have hfirst : Scan.braces.walk (0, .outside) (',' :: s) = some (0, .outside) := hs
    exact (Scan.walk_append hfirst).trans (ih hsources)

theorem walk_braces_name (h : Scan.braces.walk (0, .outside) inner = some (0, .outside))
    (hargs : ∀ part ∈ (divide 0 .outside inner).2,
      Scan.braces.walk (0, .outside) part = some (0, .outside)) :
    Scan.braces.walk (0, .outside) (Blank.trim (divide 0 .outside inner).1)
      = some (0, .outside) := by
  obtain ⟨hinner, behind, hcommas, hbehind⟩ := exists_walk_of_divide (0, .outside) inner
  rw [hinner] at h
  obtain ⟨⟨depth, quotation⟩, hfirst, hrest⟩ := Scan.exists_walk_of_append h
  -- Behind the name, no brace is open, since the arguments close their own.
  have hend : (depth, quotation) = (0, .outside) := by
    by_cases hnil : (divide 0 .outside inner).2 = []
    · rw [hnil] at hrest
      exact Option.some.inj hrest
    · rw [hbehind hnil] at hcommas
      obtain rfl : quotation = .outside := Scan.quotation_eq_of_walk hfirst hcommas
      have hargs := Scan.walk_braces_add (walk_braces_argumentText hargs) depth
      rw [Nat.zero_add, hrest] at hargs
      exact (Option.some.inj hargs).symm
  rw [hend] at hfirst
  obtain ⟨_, hname, heq⟩ := Scan.exists_walk_trim (fun _ ↦ Blank.ignores_braces) hfirst
  rwa [heq rfl] at hname

theorem isReference_name (h : Scan.braces.walk (0, .outside) inner = some (0, .outside))
    (hname : Blank.trim (divide 0 .outside inner).1 ≠ [])
    (hargs : ∀ part ∈ (divide 0 .outside inner).2, Passed 0 part) {sources : List (List Char)}
    (hsources : ∀ s ∈ sources, Passed 0 s)
    (hne : sources ≠ [] → (divide 0 .outside inner).2 ≠ []) :
    IsReference (Blank.trim (divide 0 .outside inner).1) sources where
  ne_nil := hname
  trim_eq := (Blank.trimmed_trim _).trim_eq
  braces := walk_braces_name h fun part hpart ↦ (hargs part hpart).braces
  passed := hsources
  divide_eq := by
    obtain ⟨-, behind, hcommas, hbehind⟩ := exists_walk_of_divide (0, .outside) inner
    obtain ⟨behind', hname, heq⟩ := Scan.exists_walk_trim (fun _ ↦ Blank.ignores_commas) hcommas
    have hdivide := divide_of_walk hname (argumentText sources)
    by_cases hnil : sources = []
    · subst hnil
      simpa [argumentText, divide] using hdivide
    · rw [hbehind (hne hnil)] at heq
      rwa [heq rfl, divide_argumentText hsources, List.append_nil] at hdivide

end Token

/-! ## What is read can be written

The name of every token can be written. Inside brackets, the scans of references pass over balanced
names; in front of arguments a name need not be balanced. -/

namespace Expression

/-- The names in the arguments have their brackets balanced, if the expression is a call. -/
def HasBalancedArguments : Expression → Prop
  | .call _ arguments => ∀ e ∈ arguments, e.Everywhere HasBalancedName
  | _ => True

theorem aboutOperands_isFinite : AboutOperands IsFinite :=
  ⟨fun _ ↦ trivial, fun _ _ ↦ trivial, fun _ _ _ ↦ trivial, fun _ _ ↦ trivial⟩

theorem aboutOperands_hasBalancedArguments : AboutOperands HasBalancedArguments :=
  ⟨fun _ ↦ trivial, fun _ _ ↦ trivial, fun _ _ _ ↦ trivial, fun _ _ ↦ trivial⟩

theorem aboutOperands_isLegible : AboutOperands IsLegible :=
  ⟨fun _ ↦ trivial, fun _ _ ↦ trivial, fun _ _ _ ↦ trivial, fun _ _ ↦ trivial⟩

theorem IsLegible.isPassable {e : Expression} (h : e.IsLegible) (hname : e.HasBalancedName) :
    e.IsPassable := by
  cases e with
  | literal x => exact h
  | reference name => exact passed_of_balanced h.braces (hname name rfl)
  | call name arguments => exact passed_of_balanced h.2.braces (hname name rfl)
  | _ => trivial

end Expression

namespace Token

variable {t : Token} (hk : t.kind = .reference) (ht : IsLexeme t.kind t.lexeme) (hn : t.name ≠ [])

include hk ht hn

theorem isReference_of_isLexeme (hargs : ∀ a ∈ t.arguments, Passed 0 a.1)
    {sources : List (List Char)} (hsources : ∀ s ∈ sources, Passed 0 s)
    (hne : sources ≠ [] → t.arguments ≠ []) : IsReference t.name sources := by
  refine isReference_name (walk_braces_inner hk ht) hn (forall_mem_divide hargs) hsources
    fun hs ↦ ?_
  rw [← map_fst_arguments]
  simpa using hne hs

end Token

namespace Expression

/-- **What is read can be written**, if its literals are finite and the names in arguments of calls
are balanced. -/
theorem everywhere_isLegible_of_readAt {offset : Nat} {source : List Char} {e : Expression}
    (h : readAt offset source = .ok e) (hfinite : e.Everywhere IsFinite)
    (hnames : e.Everywhere HasBalancedArguments) : e.Everywhere IsLegible := by
  refine readAt_induction (motive := fun _ _ e ↦ e.Everywhere IsFinite →
    e.Everywhere HasBalancedArguments → e.Everywhere IsLegible) ?_ h hfinite hnames
  intro offset source tokens e hscan ih hreads hfinite hnames
  have hfinite := (hreads.everywhere_iff aboutOperands_isFinite).mp hfinite
  have hnames := (hreads.everywhere_iff aboutOperands_hasBalancedArguments).mp hnames
  refine (hreads.everywhere_iff aboutOperands_isLegible).mpr fun t ht e he ↦ ?_
  have hfinite := hfinite t ht e he
  have hnames := hnames t ht e he
  have hlexeme := isLexeme_of_mem_scan hscan ht
  cases he with
  | number => exact .of_children_eq_nil hfinite.self rfl
  | text => exact .of_children_eq_nil trivial rfl
  | reference hk hn ha =>
    refine .of_children_eq_nil ?_ rfl
    rw [IsLegible, String.toList_ofList]
    exact isReference_of_isLexeme hk hlexeme hn (by simp [ha]) (by simp) (absurd rfl)
  | @call es hk hn ha hes =>
    have hchild : ∀ c ∈ es, c.Everywhere IsLegible := by
      intro c hc
      obtain ⟨a, ha, hread⟩ := exists_of_mem_of_forall₂ hes.flip hc
      exact ih t ht a ha c hread (hfinite.of_mem_children hc) (hnames.of_mem_children hc)
    have hread : ∀ a ∈ t.arguments, Passed 0 a.1 := by
      intro a ha
      obtain ⟨c, hc, hread⟩ := exists_of_mem_of_forall₂ hes ha
      exact passed_of_readAt hread (hnames.self c hc)
    have hwritten : ∀ s ∈ es.map fun e ↦ e.code.toList, Passed 0 s := by
      intro s hs
      obtain ⟨c, hc, rfl⟩ := List.mem_map.mp hs
      exact passed_code fun x hx ↦ (hchild c hc x hx).isPassable (hnames.self c hc x hx)
    have hne : es ≠ [] := by
      rintro rfl
      exact ha (List.forall₂_nil_right_iff.mp hes)
    refine everywhere_iff.mpr ⟨⟨hne, ?_⟩, hchild⟩
    rw [String.toList_ofList]
    exact isReference_of_isLexeme hk hlexeme hn hread hwritten fun _ ↦ ha

theorem equals_self {e : Expression} (h : e.Everywhere IsFinite) : equals e e = true := by
  induction e using induction with
  | step e ih =>
    have hchild : ∀ c ∈ e.children, equals c c = true :=
      fun c hc ↦ ih c hc (h.of_mem_children hc)
    have hself := h.self
    cases e with
    | literal x => exact Binary64.beq_self_of_isFinite hself
    | list items =>
      have hitems : listEquals (items.map id) (items.map id) = true := listEquals_map hchild
      rwa [List.map_id] at hitems
    | text s => exact beq_self_eq_true s
    | reference name => exact beq_self_eq_true name
    | call name arguments =>
      have hargs : listEquals (arguments.map id) (arguments.map id) = true := listEquals_map hchild
      rw [List.map_id] at hargs
      rw [equals, beq_self_eq_true, hargs, Bool.and_self]
    | prefixed op operand =>
      rw [equals, beq_self_eq_true, hchild operand List.mem_cons_self, Bool.and_self]
    | binary left op right =>
      rw [equals, beq_self_eq_true, hchild left List.mem_cons_self,
        hchild right (List.mem_cons_of_mem _ List.mem_cons_self), Bool.and_self, Bool.and_self]
    | postfixed operand op =>
      rw [equals, beq_self_eq_true, hchild operand List.mem_cons_self, Bool.and_self]

/-- **Sources written again.** What a source has been read as is read from its code, if its literals
are finite and the names in arguments of calls are balanced. -/
theorem read_code_of_read {source : String} {e : Expression} (h : read source = .ok e)
    (hfinite : e.Everywhere IsFinite) (hnames : e.Everywhere HasBalancedArguments) :
    read e.code = .ok e ∧ (e == e) = true := by
  have hspells := spells_code (everywhere_isLegible_of_readAt h hfinite hnames)
  rw [reread_of_readAt h] at hspells
  exact ⟨hspells.readAt_eq 0, equals_self hfinite⟩

/-- Blanks around a name and parentheses are forgotten. -/
theorem read_code_of_read_blanks :
    ∃ e, read "\x7b f ,(\x7ba[b]\x7d)\x7d" = .ok e ∧ e.Everywhere IsFinite ∧
      e.Everywhere HasBalancedArguments ∧ read e.code = .ok e ∧ (e == e) = true := by
  have hargument : readAt 5 "(\x7ba[b]\x7d)".toList = .ok (.reference "a[b]") := by
    rw [readAt_eq]
    rfl
  have harguments : (Token.mk .reference "\x7b f ,(\x7ba[b]\x7d)\x7d".toList 0).arguments
      = [("(\x7ba[b]\x7d)".toList, 5)] := rfl
  have hread : read "\x7b f ,(\x7ba[b]\x7d)\x7d" = .ok (.call "f" [.reference "a[b]"]) := by
    refine (readAt_eq_operand (t := ⟨.reference, "\x7b f ,(\x7ba[b]\x7d)\x7d".toList, 0⟩)
      rfl rfl).trans ?_
    rw [Token.term, harguments, List.map_singleton, hargument]
    rfl
  have hname : (reference "a[b]").Everywhere HasBalancedName := by
    refine .of_children_eq_nil ?_ rfl
    rintro _ ⟨⟩
    decide
  have hfinite : (call "f" [.reference "a[b]"]).Everywhere IsFinite :=
    everywhere_iff.mpr ⟨trivial, List.forall_mem_singleton.mpr (.of_children_eq_nil trivial rfl)⟩
  have hnames : (call "f" [.reference "a[b]"]).Everywhere HasBalancedArguments :=
    everywhere_iff.mpr ⟨List.forall_mem_singleton.mpr hname,
      List.forall_mem_singleton.mpr (.of_children_eq_nil trivial rfl)⟩
  exact ⟨_, hread, hfinite, hnames, read_code_of_read hread hfinite hnames⟩

theorem read_code_infinite :
    ∃ e, read (String.ofList (List.replicate 400 '9')) = .ok e ∧
      read e.code = .error ⟨0, .unexpectedCharacter 'i'⟩ := by
  have hdigits (n : Nat) : Binary64.IsNumeral (List.replicate (n + 1) '9') := by
    refine ⟨List.replicate (n + 1) '9', [], by simp, ?_, by simp [Binary64.decimalText]⟩
    intro c hc
    rw [List.append_nil] at hc
    rw [List.eq_of_mem_replicate hc]
    rfl
  have hnumeral : numeral (List.replicate 400 '9') = .infinite false := by
    decide +kernel
  have hcode : code (.literal (.const (.infinite false))) = "inf" := by decide +kernel
  have hspells := spells_numeral (hdigits 399)
  rw [hnumeral] at hspells
  refine ⟨.literal (.const (.infinite false)), ?_, ?_⟩
  · rw [read, String.toList_ofList]
    exact hspells.readAt_eq 0
  · rw [hcode, read, readAt_eq]
    rfl

theorem read_code_unbalanced :
    ∃ e, read "\x7bf,([\x7bb)\x7d,1])\x7d" = .ok e ∧
      read e.code = .error ⟨8, .unexpectedToken none ["','", "']'"]⟩ := by
  have hargument : readAt 3 "([\x7bb)\x7d,1])".toList
      = .ok (.list [.reference "b)", .literal (.const (numeral ['1']))]) := by
    rw [readAt_eq]
    rfl
  have harguments : (Token.mk .reference "\x7bf,([\x7bb)\x7d,1])\x7d".toList 0).arguments
      = [("([\x7bb)\x7d,1])".toList, 3)] := rfl
  have hread : read "\x7bf,([\x7bb)\x7d,1])\x7d" = .ok
      (.call "f" [.list [.reference "b)", .literal (.const (numeral ['1']))]]) := by
    refine (readAt_eq_operand (t := ⟨.reference, "\x7bf,([\x7bb)\x7d,1])\x7d".toList, 0⟩)
      rfl rfl).trans ?_
    rw [Token.term, harguments, List.map_singleton, hargument]
    rfl
  have hcode : code (.call "f" [.list [.reference "b)", .literal (.const (numeral ['1']))]])
      = "\x7bf,[\x7bb)\x7d,1]\x7d" := by
    decide +kernel
  have hpart : readAt 3 "[\x7bb)\x7d".toList
      = .error ⟨8, .unexpectedToken none ["','", "']'"]⟩ := by
    rw [readAt_eq]
    rfl
  have hparts : (Token.mk .reference "\x7bf,[\x7bb)\x7d,1]\x7d".toList 0).arguments
      = [("[\x7bb)\x7d".toList, 3), ("1]".toList, 9)] := rfl
  refine ⟨_, hread, ?_⟩
  rw [hcode]
  refine (readAt_eq_operand (t := ⟨.reference, "\x7bf,[\x7bb)\x7d,1]\x7d".toList, 0⟩)
    rfl rfl).trans ?_
  rw [Token.term, hparts, List.map_cons, hpart]
  rfl

/-- Not everything that is read is read back: not a literal that is infinite, and not always a call
with an unbalanced name in an argument. -/
theorem read_code_of_read_exceptions :
    (∃ e, read (String.ofList (List.replicate 400 '9')) = .ok e ∧
      read e.code = .error ⟨0, .unexpectedCharacter 'i'⟩) ∧
    ∃ e, read "\x7bf,([\x7bb)\x7d,1])\x7d" = .ok e ∧
      read e.code = .error ⟨8, .unexpectedToken none ["','", "']'"]⟩ :=
  ⟨read_code_infinite, read_code_unbalanced⟩

end Expression

end DiceNotation
