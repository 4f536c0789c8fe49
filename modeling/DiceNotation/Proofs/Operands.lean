import DiceNotation.Proofs.Precedence

/-!
# Where operands come from

What a source is read as consists of operations and lists over what its tokens denote, and of all
that they denote. A property that operations and lists have anyway therefore holds everywhere in the
expression exactly if it holds everywhere in what the tokens denote (`Reads.everywhere_iff`).
Between two tokens, the same is true of all that a state holds on to.
-/

namespace DiceNotation

open Token

variable {P : Expression → Prop}

/-- The property says nothing about operations and lists. -/
structure Expression.AboutOperands (P : Expression → Prop) : Prop where
  list (items : List Expression) : P (.list items)
  prefixed (op : PrefixOp) (operand : Expression) : P (.prefixed op operand)
  binary (left : Expression) (op : BinaryOp) (right : Expression) : P (.binary left op right)
  postfixed (operand : Expression) (op : PostfixOp) : P (.postfixed operand op)

theorem Token.Denotes.exists_mem_children {t : Token} {e : Expression} (h : t.Denotes e)
    (hk : t.kind = .reference) {a : List Char × Nat} (ha : a ∈ t.arguments) :
    ∃ e' ∈ e.children, Expression.readAt a.2 a.1 = .ok e' := by
  cases h with
  | number h | text h =>
    rw [hk] at h
    cases h
  | reference _ _ hnil =>
    rw [hnil] at ha
    cases ha
  | call _ _ _ hes => exact exists_of_mem_of_forall₂ hes ha

/-! ## What a state holds

Of all tokens, only those that denote an operand add something to what a state holds. -/

/-- The property holds everywhere in the left operand of the operator, if it has read one. -/
def Waiting.Everywhere (P : Expression → Prop) : Waiting → Prop
  | .prefixed _ => True
  | .binary left _ => left.Everywhere P

/-- The property holds everywhere in the items of the list, if the bracket is one. -/
def OpenBracket.Everywhere (P : Expression → Prop) : OpenBracket → Prop
  | .group => True
  | .list items => ∀ e ∈ items, e.Everywhere P

/-- The property holds everywhere in what stands before the innermost bracket. -/
def Reading.OuterEverywhere (P : Expression → Prop) (outer : List (OpenBracket × List Waiting)) :
    Prop :=
  ∀ b ∈ outer, b.1.Everywhere P ∧ ∀ w ∈ b.2, w.Everywhere P

/-- The property holds everywhere in what has been read. -/
def Reading.State.Everywhere (P : Expression → Prop) : Reading.State → Prop
  | .operandDue waiting outer => (∀ w ∈ waiting, w.Everywhere P) ∧ OuterEverywhere P outer
  | .operatorDue e waiting outer =>
    (e.Everywhere P ∧ ∀ w ∈ waiting, w.Everywhere P) ∧ OuterEverywhere P outer

namespace Waiting

theorem everywhere_binary_iff (left : Expression) (op : BinaryOp) :
    (Waiting.binary left op).Everywhere P ↔ left.Everywhere P := .rfl

variable (hP : Expression.AboutOperands P)

include hP

theorem everywhere_complete_iff (w : Waiting) (e : Expression) :
    (w.complete e).Everywhere P ↔ e.Everywhere P ∧ w.Everywhere P := by
  cases w with
  | prefixed op =>
    rw [complete, Expression.everywhere_iff]
    simp [Everywhere, Expression.children, hP.prefixed]
  | binary left op =>
    rw [complete, Expression.everywhere_iff]
    simp [Everywhere, Expression.children, hP.binary, and_comm]

theorem everywhere_yield_iff (priority : Priority) (e : Expression) (waiting : List Waiting) :
    ((yield priority e waiting).1.Everywhere P ∧
        ∀ w ∈ (yield priority e waiting).2, w.Everywhere P) ↔
      e.Everywhere P ∧ ∀ w ∈ waiting, w.Everywhere P := by
  induction waiting generalizing e with
  | nil => rfl
  | cons w rest ih =>
    rw [yield]
    split
    · rw [ih, everywhere_complete_iff hP, List.forall_mem_cons, and_assoc]
    · rfl

theorem everywhere_completeAll_iff (e : Expression) (waiting : List Waiting) :
    (completeAll e waiting).Everywhere P ↔ e.Everywhere P ∧ ∀ w ∈ waiting, w.Everywhere P := by
  induction waiting generalizing e with
  | nil => simp [completeAll]
  | cons w rest ih =>
    rw [completeAll, List.foldl_cons]
    change (completeAll (w.complete e) rest).Everywhere P ↔ _
    rw [ih, everywhere_complete_iff hP, List.forall_mem_cons, and_assoc]

end Waiting

namespace Reading

theorem everywhere_list_iff (hP : Expression.AboutOperands P) (items : List Expression) :
    (Expression.list items).Everywhere P ↔ ∀ e ∈ items, e.Everywhere P := by
  rw [Expression.everywhere_iff]
  exact and_iff_right (hP.list items)

theorem everywhere_postfixed_iff (hP : Expression.AboutOperands P) (operand : Expression)
    (op : PostfixOp) : (Expression.postfixed operand op).Everywhere P ↔ operand.Everywhere P := by
  rw [Expression.everywhere_iff]
  simp [Expression.children, hP.postfixed]

theorem and_forall_denotes_iff {t : Token} {Q : Prop}
    (hk : t.kind ≠ .number ∧ t.kind ≠ .text ∧ t.kind ≠ .reference) :
    (Q ∧ ∀ e, t.Denotes e → e.Everywhere P) ↔ Q := by
  refine and_iff_left fun e h ↦ ?_
  obtain ⟨hkind, -⟩ := denotes_iff.mp h
  simp [hk] at hkind

theorem forall_denotes_iff {t : Token} {e : Expression} (h : t.Denotes e) :
    (∀ e', t.Denotes e' → e'.Everywhere P) ↔ e.Everywhere P := by
  refine ⟨fun hall ↦ hall e h, fun he e' h' ↦ ?_⟩
  have heq := (denotes_iff.mp h).2.symm.trans (denotes_iff.mp h').2
  cases heq
  exact he

/-- **A step adds what its token denotes.** -/
theorem Step.everywhere_iff (hP : Expression.AboutOperands P) {s s' : State} {t : Token}
    (h : Step s t s') :
    s'.Everywhere P ↔ s.Everywhere P ∧ ∀ e, t.Denotes e → e.Everywhere P := by
  cases h with
  | prefixed op ht =>
    rw [and_forall_denotes_iff (by simp [ht.1])]
    simp [State.Everywhere, Waiting.Everywhere]
  | operand h =>
    rw [forall_denotes_iff h]
    simp only [State.Everywhere]
    tauto
  | openParen hk | openBracket hk =>
    rw [and_forall_denotes_iff (by simp [hk])]
    simp [State.Everywhere, OuterEverywhere, OpenBracket.Everywhere]
  | emptyList hk =>
    rw [and_forall_denotes_iff (by simp [hk])]
    simp [State.Everywhere, OuterEverywhere, OpenBracket.Everywhere, everywhere_list_iff hP]
  | binary op ht =>
    rw [and_forall_denotes_iff (by simp [ht.1])]
    simp only [State.Everywhere, List.forall_mem_cons, Waiting.everywhere_binary_iff,
      Waiting.everywhere_yield_iff hP]
  | @postfixed _ e waiting _ op ht =>
    rw [and_forall_denotes_iff (by simp [ht.1])]
    simp only [State.Everywhere, everywhere_postfixed_iff hP, Waiting.everywhere_yield_iff hP]
  | closeParen hk =>
    rw [and_forall_denotes_iff (by simp [hk])]
    simp only [State.Everywhere, OuterEverywhere, List.forall_mem_cons, OpenBracket.Everywhere,
      Waiting.everywhere_completeAll_iff hP]
    tauto
  | closeBracket hk =>
    rw [and_forall_denotes_iff (by simp [hk])]
    simp only [State.Everywhere, OuterEverywhere, List.forall_mem_cons, OpenBracket.Everywhere,
      everywhere_list_iff hP, List.mem_reverse, Waiting.everywhere_completeAll_iff hP]
    tauto
  | comma hk =>
    rw [and_forall_denotes_iff (by simp [hk])]
    simp only [State.Everywhere, OuterEverywhere, List.forall_mem_cons, OpenBracket.Everywhere,
      Waiting.everywhere_completeAll_iff hP, List.not_mem_nil, false_imp_iff]
    tauto

theorem Run.everywhere_iff (hP : Expression.AboutOperands P) {s s' : State} {ts : List Token}
    (h : Run s ts s') :
    s'.Everywhere P ↔ s.Everywhere P ∧ ∀ t ∈ ts, ∀ e, t.Denotes e → e.Everywhere P := by
  induction h with
  | nil => simp
  | cons hstep _ ih => rw [ih, hstep.everywhere_iff hP, List.forall_mem_cons, and_assoc]

/-- **All that is read comes from operands.** A property that says nothing about operations and
lists holds everywhere in what is read exactly if it holds everywhere in what the tokens denote. -/
theorem Reads.everywhere_iff (hP : Expression.AboutOperands P) {tokens : List Token}
    {e : Expression} (h : Reads tokens e) :
    e.Everywhere P ↔ ∀ t ∈ tokens, ∀ e', t.Denotes e' → e'.Everywhere P := by
  obtain ⟨e, waiting, hrun, rfl⟩ := h
  have hstart : State.start.Everywhere P := by
    simp [State.start, State.Everywhere, OuterEverywhere]
  have hend := (hrun.everywhere_iff hP).trans (and_iff_right hstart)
  rw [Waiting.everywhere_completeAll_iff hP, ← hend]
  simp [State.Everywhere, OuterEverywhere]

end Reading

end DiceNotation
