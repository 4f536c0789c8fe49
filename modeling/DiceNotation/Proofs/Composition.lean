import DiceNotation.Proofs.Arguments
import DiceNotation.Proofs.Joints

/-!
# Sources put together

A source that is read by itself can be put in parentheses or into a list, and is read there as the
same expression. What stands in brackets can in turn be the operand of any operator, whatever the
priorities are.

Two things could go wrong. Tokens could run together where one source ends and another one begins;
but a bracket or a comma ends every token before it, and no token goes on behind it. And an operator
outside could take a part of what is inside for its operand; but an opening bracket puts the
operators that wait aside, and until it is closed nothing looks at them. So tokens lead inside
brackets from state to state as they do outside (`Reading.Run.within`), and the closing bracket
completes what waits inside just as the end of a source does.
-/

namespace DiceNotation

open Token Reading

/-! ## Reading inside brackets

With more brackets open around it, a token leads on as it does outside. Tokens that are read by
themselves are therefore read behind an opening bracket, up to what waits to be completed by the
closing one. -/

namespace Reading

/-- The state inside more brackets. -/
def State.within (outer : List (OpenBracket × List Waiting)) : State → State
  | .operandDue waiting opened => .operandDue waiting (opened ++ outer)
  | .operatorDue e waiting opened => .operatorDue e waiting (opened ++ outer)

variable {t : Token} {s s' : State} {ts : List Token} {e : Expression}

/-- A token leads on inside more brackets as it does outside. -/
theorem Step.within (h : Step s t s') (outer : List (OpenBracket × List Waiting)) :
    Step (s.within outer) t (s'.within outer) := by
  cases h with
  | prefixed op ht => exact .prefixed op ht
  | operand h => exact .operand h
  | openParen hk => exact .openParen hk
  | openBracket hk => exact .openBracket hk
  | emptyList hk => exact .emptyList hk
  | binary op ht => exact .binary op ht
  | postfixed op ht => exact .postfixed op ht
  | closeParen hk => exact .closeParen hk
  | closeBracket hk => exact .closeBracket hk
  | comma hk => exact .comma hk

theorem Run.within (h : Run s ts s') (outer : List (OpenBracket × List Waiting)) :
    Run (s.within outer) ts (s'.within outer) := by
  induction h with
  | nil s => exact .nil _
  | cons hstep _ ih => exact .cons (hstep.within outer) ih

theorem Reads.within (h : Reads ts e) (outer : List (OpenBracket × List Waiting)) :
    ∃ r waiting, Run (.operandDue [] outer) ts (.operatorDue r waiting outer) ∧
      e = Waiting.completeAll r waiting := by
  obtain ⟨r, waiting, hrun, he⟩ := h
  exact ⟨r, waiting, hrun.within outer, he⟩

end Reading

/-! ## Joints at brackets and commas -/

namespace Token

theorem IsMark.endsToken {c : Char} {kind : Kind} (h : IsMark c kind) (rest : List Char) :
    EndsToken (c :: rest) :=
  ⟨h.endsNumeral rest, h.endsOperator rest⟩

end Token

namespace Expression

/-- A source that is read falls, wherever it stands, into tokens that are read as the same
expression. -/
theorem exists_scans_of_readAt {source : List Char} {e : Expression}
    (h : readAt 0 source = .ok e) (position : Nat) :
    ∃ tokens, Scans EndsToken position source tokens ∧ Reads tokens e := by
  obtain ⟨tokens, hscan, hreads⟩ := readAt_eq_ok_iff.mp (readAt_of_read h position)
  exact ⟨tokens, fun rest hrest ↦ scanFrom_append hscan (Nat.zero_le _) hrest, hreads⟩

/-! ## Enclosed texts

A source in parentheses is enclosed, and so is a list of sources, however many there are. The items
of a list are read one after another, so the induction is on those that are left behind the first
one. -/

/-- The text is read as the operand `e` wherever an operand is due, whatever stands before it and
behind it. -/
structure Enclosed (text : List Char) (e : Expression) : Prop where
  endsOperator : ∀ rest, EndsOperator (text ++ rest)
  exists_run : ∀ position, ∃ tokens, Scans (fun _ ↦ True) position text tokens ∧
    ∀ waiting outer, Run (.operandDue waiting outer) tokens (.operatorDue e waiting outer)

variable {source text text' : List Char} {e e' : Expression}
  {items : List (List Char × Expression)}

theorem enclosed_group (h : readAt 0 source = .ok e) : Enclosed ('(' :: (source ++ [')'])) e where
  endsOperator _ := isMark_openParen.endsOperator _
  exists_run position := by
    obtain ⟨tokens, hscan, hreads⟩ := exists_scans_of_readAt h (position + byteLength ['('])
    have hbody := hscan.append (isMark_closeParen.scans (fun _ ↦ True) _)
      fun rest _ ↦ isMark_closeParen.endsToken rest
    refine ⟨_, isMark_openParen.scans_cons hbody, fun waiting outer ↦ ?_⟩
    obtain ⟨r, inside, hrun, rfl⟩ := hreads.within ((.group, waiting) :: outer)
    exact .cons (.openParen rfl) (hrun.append (Step.closeParen rfl).run)

/-- The items of a list that are left, of which there is one, and the closing bracket. -/
theorem exists_run_items {a : List Char × Expression}
    (h : ∀ b ∈ a :: items, readAt 0 b.1 = .ok b.2) (position : Nat) :
    ∃ tokens,
      Scans (fun _ ↦ True) position (a.1 ++ (argumentText (items.map Prod.fst) ++ [']'])) tokens ∧
      ∀ before outside outer,
        Run (.operandDue [] ((.list before, outside) :: outer)) tokens
          (.operatorDue (.list (before.reverse ++ a.2 :: items.map Prod.snd)) outside outer) := by
  -- The items that have been read wait in reverse, so the induction is for all of them.
  induction items generalizing a position with
  | nil =>
    obtain ⟨tokens, hscan, hreads⟩ := exists_scans_of_readAt (h a List.mem_cons_self) position
    have hbody := hscan.append (isMark_closeBracket.scans (fun _ ↦ True) _)
      fun _ _ ↦ isMark_closeBracket.endsToken _
    refine ⟨_, hbody, fun before outside outer ↦ ?_⟩
    obtain ⟨r, waiting, hitem, ha⟩ := hreads.within ((.list before, outside) :: outer)
    rw [ha, List.map_nil, ← List.reverse_cons]
    exact hitem.append (Step.closeBracket rfl).run
  | cons b items ih =>
    obtain ⟨ha, hitems⟩ := List.forall_mem_cons.mp h
    obtain ⟨tokens, hscan, hreads⟩ := exists_scans_of_readAt ha position
    obtain ⟨more, hmore, hrest⟩ := ih hitems (position + byteLength a.1 + byteLength [','])
    have hbody := hscan.append (isMark_comma.scans_cons hmore)
      fun _ _ ↦ isMark_comma.endsToken _
    have htext : argumentText ((b :: items).map Prod.fst) ++ [']']
        = ',' :: (b.1 ++ (argumentText (items.map Prod.fst) ++ [']'])) :=
      congrArg (',' :: ·) (List.append_assoc _ _ _)
    rw [htext]
    refine ⟨_, hbody, fun before outside outer ↦ ?_⟩
    obtain ⟨r, waiting, hitem, ha⟩ := hreads.within ((.list before, outside) :: outer)
    have hlist := hrest (a.2 :: before) outside outer
    rw [ha, List.reverse_cons, List.append_assoc] at hlist
    rw [ha]
    exact hitem.append (.cons (.comma rfl) hlist)

/-- A list of sources is enclosed, however many there are. -/
theorem enclosed_list (h : ∀ a ∈ items, readAt 0 a.1 = .ok a.2) :
    Enclosed ('[' :: ([','].intercalate (items.map Prod.fst) ++ [']']))
      (.list (items.map Prod.snd)) where
  endsOperator _ := isMark_openBracket.endsOperator _
  exists_run position := by
    rcases items with _ | ⟨a, items⟩
    · have hclose := isMark_closeBracket.scans (fun _ ↦ True) (position + byteLength ['['])
      exact ⟨_, isMark_openBracket.scans_cons hclose, fun waiting outer ↦
        .cons (.openBracket rfl) (Step.emptyList rfl).run⟩
    · obtain ⟨tokens, hbody, hrun⟩ := exists_run_items h (position + byteLength ['['])
      rw [List.map_cons, intercalate_comma, List.append_assoc]
      exact ⟨_, isMark_openBracket.scans_cons hbody, fun waiting outer ↦
        .cons (.openBracket rfl) (hrun [] waiting outer)⟩

/-! ## Operations on enclosed texts

No operator reaches into an enclosed text: it is the operand of whatever stands before it, behind
it, or between it and another one. -/

namespace Enclosed

theorem isSymbol (symbol : String) (position : Nat) :
    IsSymbol ⟨.operator, symbol.toList, position⟩ symbol :=
  ⟨rfl, String.ofList_toList⟩

theorem readAt_eq (h : Enclosed text e) : readAt 0 text = .ok e := by
  obtain ⟨tokens, hscan, hrun⟩ := h.exists_run 0
  exact readAt_eq_ok_iff.mpr ⟨tokens, hscan.scan_eq trivial, e, [], hrun [] [], rfl⟩

theorem readAt_binary (h : Enclosed text e) (h' : Enclosed text' e') (op : BinaryOp) :
    readAt 0 (text ++ (op.symbol.toList ++ text')) = .ok (.binary e op e') := by
  obtain ⟨tokens, hscan, hrun⟩ := h.exists_run 0
  obtain ⟨tokens', hscan', hrun'⟩ :=
    h'.exists_run (0 + byteLength text + byteLength op.symbol.toList)
  have hright := (scans_operator op.symbol_mem (0 + byteLength text)).append hscan'
    fun rest _ ↦ h'.endsOperator rest
  have hwhole := hscan.append hright fun _ _ ↦ trivial
  refine readAt_eq_ok_iff.mpr ⟨_, hwhole.scan_eq trivial, e', [.binary e op], ?_, rfl⟩
  exact (hrun [] []).append (.cons (.binary op (isSymbol _ _)) (hrun' [.binary e op] []))

theorem readAt_prefixed (h : Enclosed text e) (op : PrefixOp) :
    readAt 0 (op.symbol.toList ++ text) = .ok (.prefixed op e) := by
  obtain ⟨tokens, hscan, hrun⟩ := h.exists_run (0 + byteLength op.symbol.toList)
  have hwhole := (scans_operator op.symbol_mem 0).append hscan fun rest _ ↦ h.endsOperator rest
  refine readAt_eq_ok_iff.mpr ⟨_, hwhole.scan_eq trivial, e, [.prefixed op], ?_, rfl⟩
  exact .cons (.prefixed op (isSymbol _ _)) (hrun [.prefixed op] [])

theorem readAt_postfixed (h : Enclosed text e) (op : PostfixOp) :
    readAt 0 (text ++ op.symbol.toList) = .ok (.postfixed e op) := by
  obtain ⟨tokens, hscan, hrun⟩ := h.exists_run 0
  have hwhole := hscan.append (scans_operator op.symbol_mem (0 + byteLength text))
    fun _ _ ↦ trivial
  have hends : EndsOperator [] := fun c hc ↦ absurd hc (by simp)
  refine readAt_eq_ok_iff.mpr ⟨_, hwhole.scan_eq hends, .postfixed e op, [], ?_, rfl⟩
  exact (hrun [] []).append (Step.postfixed op (isSymbol _ _)).run

end Enclosed

/-! ## Sources -/

/-- A source in parentheses. -/
def grouped (source : String) : String := "(" ++ source ++ ")"

/-- Sources in brackets, with commas between them. -/
def listed (sources : List String) : String := "[" ++ ",".intercalate sources ++ "]"

theorem toList_grouped (source : String) :
    (grouped source).toList = '(' :: (source.toList ++ [')']) := by
  rw [grouped, String.toList_append, String.toList_append]
  rfl

theorem toList_listed (sources : List String) :
    (listed sources).toList = '[' :: ([','].intercalate (sources.map String.toList) ++ [']']) := by
  rw [listed, String.toList_append, String.toList_append, String.toList_intercalate]
  rfl

/-- **Sources compose.** Sources that are read are read alike in parentheses, as the operands of any
operator between, before or behind them, and as the items of a list. -/
theorem read_composed {sources : List (String × Expression)}
    (h : ∀ a ∈ sources, read a.1 = .ok a.2) :
    (∀ a ∈ sources,
      read (grouped a.1) = .ok a.2 ∧
      (∀ b ∈ sources, ∀ op : BinaryOp,
        read (grouped a.1 ++ op.symbol ++ grouped b.1) = .ok (.binary a.2 op b.2)) ∧
      (∀ op : PrefixOp, read (op.symbol ++ grouped a.1) = .ok (.prefixed op a.2)) ∧
      read (grouped a.1 ++ "?") = .ok (.postfixed a.2 .shuffle)) ∧
    read (listed (sources.map Prod.fst)) = .ok (.list (sources.map Prod.snd)) := by
  have hgroup : ∀ a ∈ sources, Enclosed (grouped a.1).toList a.2 := by
    intro a ha
    rw [toList_grouped]
    exact enclosed_group (h a ha)
  constructor
  · intro a ha
    refine ⟨(hgroup a ha).readAt_eq, fun b hb op ↦ ?_, fun op ↦ ?_, ?_⟩
    · rw [read, String.toList_append, String.toList_append, List.append_assoc]
      exact (hgroup a ha).readAt_binary (hgroup b hb) op
    · rw [read, String.toList_append]
      exact (hgroup a ha).readAt_prefixed op
    · rw [read, String.toList_append]
      exact (hgroup a ha).readAt_postfixed .shuffle
  · have hitems : ∀ a ∈ sources.map (fun a ↦ (a.1.toList, a.2)), readAt 0 a.1 = .ok a.2 := by
      rw [List.forall_mem_map]
      exact h
    have hlist := (enclosed_list hitems).readAt_eq
    rw [List.map_map, List.map_map] at hlist
    rw [read, toList_listed, List.map_map]
    exact hlist

/-- A sum, which binds less tightly than most of what is put around it, and a shuffle, which ends
with its operator. A bracket and a comma stand in the text that it shuffles. -/
theorem read_composed_sumAndShuffle :
    let sources : List (String × Expression) :=
      [("-\x7bx\x7d + 2", .binary (.prefixed .negate (.reference "x")) .join
          (.literal (.const (numeral ['2'])))),
        ("\"),\"?", .postfixed (.text "),") .shuffle)]
    (∀ a ∈ sources, read a.1 = .ok a.2) ∧
      (∀ a ∈ sources,
        read (grouped a.1) = .ok a.2 ∧
        (∀ b ∈ sources, ∀ op : BinaryOp,
          read (grouped a.1 ++ op.symbol ++ grouped b.1) = .ok (.binary a.2 op b.2)) ∧
        (∀ op : PrefixOp, read (op.symbol ++ grouped a.1) = .ok (.prefixed op a.2)) ∧
        read (grouped a.1 ++ "?") = .ok (.postfixed a.2 .shuffle)) ∧
      read (listed (sources.map Prod.fst)) = .ok (.list (sources.map Prod.snd)) := by
  intro sources
  have hread : ∀ a ∈ sources, read a.1 = .ok a.2 := by
    rw [List.forall_mem_cons, List.forall_mem_singleton, read, read, readAt_eq, readAt_eq]
    exact ⟨rfl, rfl⟩
  exact ⟨hread, read_composed hread⟩

end Expression

end DiceNotation
