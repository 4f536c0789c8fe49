import DiceNotation.Proofs.ReadingSteps
import DiceNotation.Proofs.Subexpressions

/-!
# Precedence

The tree that a source is read as, where there are no parentheses in it. It loses nothing: read in
order, it gives back the tokens (`InOrder`). And its operators bind by their priorities: an operator
takes for its right operand whatever binds tighter, and for its left operand whatever binds at least
as tightly (`Expression.Binds`). An operand may still hold operators that bind less tightly. A
prefix operator begins an operand, so a looser operator before it has to wait for what it takes:
this is why the conditions are about spines, and not about all operators in an operand.

## The stack

Of the operators that wait, each one binds tighter than the one below it, unless it is a prefix
operator. A new operator therefore finds those that it has to complete on top, and the right spine
of what they complete to consists of just these (`Waiting.yield_induction`). What is on the left
spine of an operand has to bind tighter than the operator that waits for it, and this is what each
new operator is checked for as soon as it stops yielding.
-/

namespace DiceNotation

open Token Reading

namespace Expression

/-! ## Spines -/

/-- The priorities of the operators on the way down through left operands. -/
def leftSpine : Expression → List Priority
  | .binary left op _ => op.priority :: left.leftSpine
  | .postfixed operand op => op.priority :: operand.leftSpine
  | _ => []

/-- The priorities of the operators on the way down through right operands. -/
def rightSpine : Expression → List Priority
  | .prefixed op operand => op.priority :: operand.rightSpine
  | .binary _ op right => op.priority :: right.rightSpine
  | _ => []

/-- The operator at the root binds its operands by priority. -/
def Binds : Expression → Prop
  | .prefixed op operand => ∀ p ∈ operand.leftSpine, op.priority < p
  | .binary left op right =>
    (∀ p ∈ left.rightSpine, op.priority ≤ p) ∧ ∀ p ∈ right.leftSpine, op.priority < p
  | .postfixed operand op => ∀ p ∈ operand.rightSpine, op.priority ≤ p
  | _ => True

/-- All operators in the expression bind by priority. -/
def Respects (e : Expression) : Prop := ∀ x, Within x e → x.Binds

theorem respects_iff {e : Expression} : e.Respects ↔ e.Binds ∧ ∀ c ∈ e.children, c.Respects :=
  everywhere_iff

end Expression

/-! ## Reading in order -/

mutual

/-- The tokens are those of the expression in order, without any parentheses. -/
inductive InOrder : Expression → List Token → Prop
  | number {t : Token} (hk : t.kind = .number) :
      InOrder (.literal (.const (numeral t.lexeme))) [t]
  | text {t : Token} (hk : t.kind = .text) :
      InOrder (.text (String.ofList (Quoted.decode t.inner))) [t]
  | reference {t : Token} (hk : t.kind = .reference) (ha : t.arguments = []) :
      InOrder (.reference (String.ofList t.name)) [t]
  | call {t : Token} {arguments : List Expression} (hk : t.kind = .reference)
      (hne : arguments ≠ []) (ha : ArgumentsInOrder arguments t.arguments) :
      InOrder (.call (String.ofList t.name) arguments) [t]
  | list {items : List Expression} {ts : List Token} {o c : Token} (ho : o.kind = .openBracket)
      (h : ItemsInOrder items ts) (hc : c.kind = .closeBracket) :
      InOrder (.list items) (o :: ts ++ [c])
  | prefixed {operand : Expression} {ts : List Token} {t : Token} (op : PrefixOp)
      (ht : t.IsSymbol op.symbol) (h : InOrder operand ts) :
      InOrder (.prefixed op operand) (t :: ts)
  | binary {left right : Expression} {ts us : List Token} {t : Token} (op : BinaryOp)
      (hl : InOrder left ts) (ht : t.IsSymbol op.symbol) (hr : InOrder right us) :
      InOrder (.binary left op right) (ts ++ t :: us)
  | postfixed {operand : Expression} {ts : List Token} {t : Token} (op : PostfixOp)
      (h : InOrder operand ts) (ht : t.IsSymbol op.symbol) :
      InOrder (.postfixed operand op) (ts ++ [t])

/-- The tokens are those of the items with commas between them. -/
inductive ItemsInOrder : List Expression → List Token → Prop
  | nil : ItemsInOrder [] []
  | single {item : Expression} {ts : List Token} (h : InOrder item ts) : ItemsInOrder [item] ts
  | cons {item item' : Expression} {items : List Expression} {ts us : List Token} {t : Token}
      (h : InOrder item ts) (ht : t.kind = .comma) (hs : ItemsInOrder (item' :: items) us) :
      ItemsInOrder (item :: item' :: items) (ts ++ t :: us)

/-- The sources, each with its first byte, fall into the tokens of the arguments in order. -/
inductive ArgumentsInOrder : List Expression → List (List Char × Nat) → Prop
  | nil : ArgumentsInOrder [] []
  | cons {argument : Expression} {arguments : List Expression} {a : List Char × Nat}
      {as : List (List Char × Nat)} {ts : List Token} (hs : Token.scan a.2 a.1 = .ok ts)
      (h : InOrder argument ts) (hr : ArgumentsInOrder arguments as) :
      ArgumentsInOrder (argument :: arguments) (a :: as)

end

/-! ## Yielding

Yielding completes one operator after the other, up to one that binds less tightly; at the end of an
operand all that wait are completed. -/

namespace Waiting

theorem yield_induction {motive : Expression → List Waiting → Prop} {priority : Priority}
    (complete : ∀ w rest e, priority ≤ w.priority → motive e (w :: rest) →
      motive (w.complete e) rest) {e : Expression} {waiting : List Waiting}
    (h : motive e waiting) :
    motive (yield priority e waiting).1 (yield priority e waiting).2 := by
  induction waiting generalizing e with
  | nil => exact h
  | cons w rest ih =>
    rw [yield]
    split
    · next hp => exact ih (complete w rest e hp h)
    · exact h

/-- Yielding stops at an operator that binds less tightly. -/
theorem priority_lt_of_mem_head?_yield {priority : Priority} {e : Expression}
    {waiting : List Waiting} {w : Waiting} (h : w ∈ (yield priority e waiting).2.head?) :
    w.priority < priority := by
  induction waiting generalizing e with
  | nil => cases h
  | cons w' rest ih =>
    rw [yield] at h
    split at h
    · exact ih h
    · next hp =>
      cases h
      exact Nat.lt_of_not_le hp

theorem completeAll_induction {motive : Expression → List Waiting → Prop}
    (complete : ∀ w rest e, motive e (w :: rest) → motive (w.complete e) rest) {e : Expression}
    {waiting : List Waiting} (h : motive e waiting) : motive (completeAll e waiting) [] := by
  induction waiting generalizing e with
  | nil => exact h
  | cons w rest ih => exact ih (complete w rest e h)

end Waiting

/-! ## Nothing is lost

To complete an operator moves no token, and items that are open stand before the items that follow.
What a token denotes has this token for its tokens in order, or those of its arguments. -/

/-- The tokens are those of the operators that wait, with their left operands, outermost first. -/
inductive WaitingInOrder : List Waiting → List Token → Prop
  | nil : WaitingInOrder [] []
  | prefixed {waiting : List Waiting} {ts : List Token} {t : Token} (op : PrefixOp)
      (h : WaitingInOrder waiting ts) (ht : t.IsSymbol op.symbol) :
      WaitingInOrder (.prefixed op :: waiting) (ts ++ [t])
  | binary {waiting : List Waiting} {left : Expression} {ts us : List Token} {t : Token}
      (op : BinaryOp) (h : WaitingInOrder waiting ts) (hl : InOrder left us)
      (ht : t.IsSymbol op.symbol) :
      WaitingInOrder (.binary left op :: waiting) (ts ++ us ++ [t])

/-- The tokens are those of items, the last one first, with a comma behind each. -/
inductive ItemsOpen : List Expression → List Token → Prop
  | nil : ItemsOpen [] []
  | cons {item : Expression} {items : List Expression} {ts us : List Token} {t : Token}
      (hs : ItemsOpen items ts) (h : InOrder item us) (ht : t.kind = .comma) :
      ItemsOpen (item :: items) (ts ++ us ++ [t])

/-- The tokens are those of lists that are open, with the operators that wait outside. -/
inductive OuterInOrder : List (OpenBracket × List Waiting) → List Token → Prop
  | nil : OuterInOrder [] []
  | list {outer : List (OpenBracket × List Waiting)} {outside : List Waiting}
      {items : List Expression} {ts us vs : List Token} {o : Token} (h : OuterInOrder outer ts)
      (hw : WaitingInOrder outside us) (ho : o.kind = .openBracket) (hs : ItemsOpen items vs) :
      OuterInOrder ((.list items, outside) :: outer) (ts ++ us ++ o :: vs)

/-- The tokens are those of the operators that wait and of the operand that they wait for. -/
def PairInOrder (e : Expression) (waiting : List Waiting) (ts : List Token) : Prop :=
  ∃ us vs, ts = us ++ vs ∧ WaitingInOrder waiting us ∧ InOrder e vs

/-- A state holds everything that has been read, in order. -/
def Reading.State.InOrder : State → List Token → Prop
  | .operandDue waiting outer, done =>
    ∃ ts us, done = ts ++ us ∧ OuterInOrder outer ts ∧ WaitingInOrder waiting us
  | .operatorDue e waiting outer, done =>
    ∃ ts us, done = ts ++ us ∧ OuterInOrder outer ts ∧ PairInOrder e waiting us

theorem PairInOrder.complete {w : Waiting} {rest : List Waiting} {e : Expression}
    {ts : List Token} (h : PairInOrder e (w :: rest) ts) : PairInOrder (w.complete e) rest ts := by
  obtain ⟨us, vs, rfl, hwaiting, he⟩ := h
  cases hwaiting with
  | prefixed op h ht => exact ⟨_, _, by simp, h, .prefixed op ht he⟩
  | binary op h hl ht => exact ⟨_, _, by simp, h, .binary op hl ht he⟩

theorem PairInOrder.yield {e : Expression} {waiting : List Waiting} {ts : List Token}
    (h : PairInOrder e waiting ts) (priority : Priority) :
    PairInOrder (Waiting.yield priority e waiting).1 (Waiting.yield priority e waiting).2 ts :=
  Waiting.yield_induction (motive := fun e waiting ↦ PairInOrder e waiting ts)
    (fun _ _ _ _ h ↦ h.complete) h

theorem PairInOrder.completeAll {e : Expression} {waiting : List Waiting} {ts : List Token}
    (h : PairInOrder e waiting ts) : InOrder (Waiting.completeAll e waiting) ts := by
  obtain ⟨us, vs, rfl, hnil, he⟩ :=
    Waiting.completeAll_induction (motive := fun e waiting ↦ PairInOrder e waiting ts)
      (fun _ _ _ h ↦ h.complete) h
  cases hnil
  exact he

theorem ItemsOpen.close {items more : List Expression} {item : Expression} {ts us : List Token}
    (h : ItemsOpen items ts) (hs : ItemsInOrder (item :: more) us) :
    ItemsInOrder (items.reverse ++ item :: more) (ts ++ us) := by
  induction h generalizing item more us with
  | nil => exact hs
  | cons _ hitem ht ih =>
    have hlonger := ih (.cons hitem ht hs)
    simpa using hlonger

/-- Arguments that are read fall into their tokens in order, if each of them does. -/
theorem argumentsInOrder_of_forall₂ {as : List (List Char × Nat)} {es : List Expression}
    (h : List.Forall₂ (fun a e ↦ Expression.readAt a.2 a.1 = .ok e) as es)
    (hargs : ∀ a ∈ as, ∀ e, Expression.readAt a.2 a.1 = .ok e →
      ∃ tokens, Token.scan a.2 a.1 = .ok tokens ∧ InOrder e tokens) :
    ArgumentsInOrder es as := by
  induction h with
  | nil => exact .nil
  | cons he _ ih =>
    obtain ⟨hfirst, hrest⟩ := List.forall_mem_cons.mp hargs
    obtain ⟨tokens, hscan, htokens⟩ := hfirst _ he
    exact .cons hscan htokens (ih hrest)

theorem inOrder_of_denotes {t : Token} {e : Expression} (h : t.Denotes e)
    (hargs : ∀ a ∈ t.arguments, ∀ e', Expression.readAt a.2 a.1 = .ok e' →
      ∃ tokens, Token.scan a.2 a.1 = .ok tokens ∧ InOrder e' tokens) : InOrder e [t] := by
  cases h with
  | number hk => exact .number hk
  | text hk => exact .text hk
  | reference hk hn ha => exact .reference hk ha
  | @call es hk hn ha hes =>
    have hne : es ≠ [] := by
      rintro rfl
      exact ha (List.forall₂_nil_right_iff.mp hes)
    exact .call hk hne (argumentsInOrder_of_forall₂ hes hargs)

/-- **A step loses nothing**, unless it is into a parenthesis. -/
theorem Reading.Step.inOrder {t : Token} {s s' : State} {done : List Token} (h : Step s t s')
    (hp : t.kind ≠ .openParen)
    (hargs : ∀ a ∈ t.arguments, ∀ e', Expression.readAt a.2 a.1 = .ok e' →
      ∃ tokens, Token.scan a.2 a.1 = .ok tokens ∧ DiceNotation.InOrder e' tokens)
    (hs : s.InOrder done) : s'.InOrder (done ++ [t]) := by
  cases h with
  | prefixed op ht =>
    obtain ⟨ts, us, rfl, houter, hwaiting⟩ := hs
    exact ⟨ts, us ++ [t], List.append_assoc _ _ _, houter, .prefixed op hwaiting ht⟩
  | operand h =>
    obtain ⟨ts, us, rfl, houter, hwaiting⟩ := hs
    exact ⟨ts, us ++ [t], List.append_assoc _ _ _, houter, us, [t], rfl, hwaiting,
      inOrder_of_denotes h hargs⟩
  | openParen hk => exact absurd hk hp
  | openBracket hk =>
    obtain ⟨ts, us, rfl, houter, hwaiting⟩ := hs
    exact ⟨_, [], (List.append_nil _).symm, .list houter hwaiting hk .nil, .nil⟩
  | emptyList hk =>
    obtain ⟨_, _, rfl, houter, hnil⟩ := hs
    cases hnil
    cases houter with
    | @list _ _ _ ts us _ o houter hwaiting ho hitems =>
      cases hitems
      have hlist : DiceNotation.InOrder (.list []) (o :: [] ++ [t]) := .list ho .nil hk
      exact ⟨ts, us ++ (o :: [] ++ [t]), by simp, houter, us, _, rfl, hwaiting, hlist⟩
  | binary op ht =>
    obtain ⟨ts, us, rfl, houter, hpair⟩ := hs
    obtain ⟨us, vs, rfl, hwaiting, he⟩ := hpair.yield op.priority
    exact ⟨ts, us ++ vs ++ [t], by simp, houter, .binary op hwaiting he ht⟩
  | postfixed op ht =>
    obtain ⟨ts, us, rfl, houter, hpair⟩ := hs
    obtain ⟨us, vs, rfl, hwaiting, he⟩ := hpair.yield op.priority
    exact ⟨ts, us ++ (vs ++ [t]), by simp, houter, us, _, rfl, hwaiting, .postfixed op he ht⟩
  | closeParen hk =>
    obtain ⟨_, _, rfl, houter, hpair⟩ := hs
    cases houter
  | closeBracket hk =>
    obtain ⟨_, ws, rfl, houter, hpair⟩ := hs
    cases houter with
    | @list _ _ _ ts us vs o houter hwaiting ho hitems =>
      have hclosed := hitems.close (.single hpair.completeAll)
      rw [← List.reverse_cons] at hclosed
      exact ⟨ts, us ++ (o :: (vs ++ ws) ++ [t]), by simp, houter, us, _, rfl, hwaiting,
        .list ho hclosed hk⟩
  | comma hk =>
    obtain ⟨_, ws, rfl, houter, hpair⟩ := hs
    cases houter with
    | @list _ _ _ ts us vs o houter hwaiting ho hitems =>
      exact ⟨ts ++ us ++ o :: (vs ++ ws ++ [t]), [], by simp,
        .list houter hwaiting ho (.cons hitems hpair.completeAll hk), .nil⟩

theorem Reading.Reads.inOrder {tokens : List Token} {e : Expression} (h : Reads tokens e)
    (hp : ∀ t ∈ tokens, t.kind ≠ .openParen)
    (hargs : ∀ t ∈ tokens, ∀ a ∈ t.arguments, ∀ e', Expression.readAt a.2 a.1 = .ok e' →
      ∃ tokens, Token.scan a.2 a.1 = .ok tokens ∧ DiceNotation.InOrder e' tokens) :
    DiceNotation.InOrder e tokens := by
  obtain ⟨e, waiting, hrun, rfl⟩ := h
  have hstart : State.start.InOrder [] := ⟨[], [], rfl, .nil, .nil⟩
  have hend : (State.operatorDue e waiting []).InOrder tokens :=
    hrun.invariant (motive := State.InOrder)
      (fun t ht s s' done hstep hs ↦ hstep.inOrder (hp t ht) (hargs t ht) hs) [] hstart
  obtain ⟨_, us, rfl, hnil, hpair⟩ := hend
  cases hnil
  exact hpair.completeAll

/-! ## Operators bind by their priorities

Nothing is on the spines of what a token denotes. An operator that gets its operand binds it by
priority, since what has yielded to it is all that is on the right spine of its left operand. -/

namespace Expression

/-- The operators on the left spine bind tighter than the one that waits for the expression. -/
def Fits (e : Expression) (waiting : List Waiting) : Prop :=
  ∀ p ∈ e.leftSpine, ∀ w ∈ waiting.head?, w.priority < p

end Expression

/-- Each operator that waits binds tighter than the one below it, unless it is a prefix operator,
and has a left operand that binds at least as tightly. -/
def Ordered : List Waiting → Prop
  | [] => True
  | .prefixed _ :: rest => Ordered rest
  | .binary left op :: rest =>
    left.Respects ∧ left.Fits rest ∧ (∀ w ∈ rest.head?, w.priority < op.priority) ∧
      (∀ p ∈ left.rightSpine, op.priority ≤ p) ∧ Ordered rest

/-- An operand can be given to the operators that wait for it. -/
structure Settled (e : Expression) (waiting : List Waiting) : Prop where
  respects : e.Respects
  fits : e.Fits waiting
  ordered : Ordered waiting

/-- The lists that are open have such items, and such operators wait outside them. -/
def OuterOrdered (outer : List (OpenBracket × List Waiting)) : Prop :=
  ∀ b ∈ outer, (∃ items, b.1 = .list items ∧ ∀ item ∈ items, item.Respects) ∧ Ordered b.2

/-- A state holds expressions whose operators bind by priority. What has just been read has nothing
on its right spine, for only what follows completes an operator. -/
def Reading.State.Ordered : State → Prop
  | .operandDue waiting outer => DiceNotation.Ordered waiting ∧ OuterOrdered outer
  | .operatorDue e waiting outer =>
    Settled e waiting ∧ e.rightSpine = [] ∧ OuterOrdered outer

theorem Settled.complete {w : Waiting} {rest : List Waiting} {e : Expression}
    (h : Settled e (w :: rest)) : Settled (w.complete e) rest := by
  obtain ⟨hrespects, hfits, hordered⟩ := h
  have hright : ∀ p ∈ e.leftSpine, w.priority < p := fun p hp ↦ hfits p hp w rfl
  cases w with
  | prefixed op =>
    refine ⟨Expression.respects_iff.mpr ⟨hright, ?_⟩, ?_, hordered⟩
    · simpa [Expression.children, Waiting.complete] using hrespects
    · rintro p ⟨⟩
  | binary left op =>
    obtain ⟨hleft, hfitsLeft, hbelow, hspine, hrest⟩ := hordered
    refine ⟨Expression.respects_iff.mpr ⟨⟨hspine, hright⟩, ?_⟩, ?_, hrest⟩
    · simpa [Expression.children, Waiting.complete] using And.intro hleft hrespects
    · exact List.forall_mem_cons.mpr ⟨hbelow, hfitsLeft⟩

theorem Settled.completeAll {e : Expression} {waiting : List Waiting} (h : Settled e waiting) :
    (Waiting.completeAll e waiting).Respects :=
  (Waiting.completeAll_induction (motive := Settled) (fun _ _ _ h ↦ h.complete) h).respects

/-- What yields to an operator has only operators on its right spine that bind as tightly. -/
theorem Settled.yield {e : Expression} {waiting : List Waiting} (h : Settled e waiting)
    (hspine : e.rightSpine = []) (priority : Priority) :
    Settled (Waiting.yield priority e waiting).1 (Waiting.yield priority e waiting).2 ∧
      ∀ p ∈ (Waiting.yield priority e waiting).1.rightSpine, priority ≤ p := by
  refine Waiting.yield_induction
    (motive := fun e waiting ↦ Settled e waiting ∧ ∀ p ∈ e.rightSpine, priority ≤ p) ?_
    ⟨h, by simp [hspine]⟩
  rintro w rest e hw ⟨hsettled, hright⟩
  refine ⟨hsettled.complete, ?_⟩
  cases w <;> exact List.forall_mem_cons.mpr ⟨hw, hright⟩

theorem settled_of_denotes {t : Token} {e : Expression} (h : t.Denotes e)
    (hargs : ∀ a ∈ t.arguments, ∀ e', Expression.readAt a.2 a.1 = .ok e' → e'.Respects)
    {waiting : List Waiting} (hw : Ordered waiting) : Settled e waiting ∧ e.rightSpine = [] := by
  have hrespects : e.Respects := by
    refine Expression.respects_iff.mpr ?_
    cases h with
    | number | text | reference => exact ⟨trivial, fun _ hc ↦ absurd hc List.not_mem_nil⟩
    | call _ _ _ hes =>
      refine ⟨trivial, fun c hc ↦ ?_⟩
      obtain ⟨a, ha, hc⟩ := exists_of_mem_of_forall₂ hes.flip hc
      exact hargs a ha c hc
  have hleft : e.leftSpine = [] := by cases h <;> rfl
  have hright : e.rightSpine = [] := by cases h <;> rfl
  exact ⟨⟨hrespects, by simp [Expression.Fits, hleft], hw⟩, hright⟩

theorem settled_list {items : List Expression} (h : ∀ item ∈ items, item.Respects)
    {waiting : List Waiting} (hw : Ordered waiting) : Settled (.list items) waiting := by
  refine ⟨Expression.respects_iff.mpr ⟨trivial, h⟩, ?_, hw⟩
  rintro p ⟨⟩

/-- **A step keeps priorities**, unless it is into a parenthesis. -/
theorem Reading.Step.ordered {t : Token} {s s' : State} (h : Step s t s')
    (hp : t.kind ≠ .openParen)
    (hargs : ∀ a ∈ t.arguments, ∀ e', Expression.readAt a.2 a.1 = .ok e' → e'.Respects)
    (hs : s.Ordered) : s'.Ordered := by
  cases h with
  | prefixed op ht => exact hs
  | operand h =>
    obtain ⟨hwaiting, houter⟩ := hs
    obtain ⟨hsettled, hspine⟩ := settled_of_denotes h hargs hwaiting
    exact ⟨hsettled, hspine, houter⟩
  | openParen hk => exact absurd hk hp
  | openBracket hk =>
    obtain ⟨hwaiting, houter⟩ := hs
    exact ⟨trivial, List.forall_mem_cons.mpr ⟨⟨⟨[], rfl, by simp⟩, hwaiting⟩, houter⟩⟩
  | emptyList hk =>
    obtain ⟨⟨-, houtside⟩, houter⟩ := List.forall_mem_cons.mp hs.2
    exact ⟨settled_list (by simp) houtside, rfl, houter⟩
  | binary op ht =>
    obtain ⟨hsettled, hspine, houter⟩ := hs
    obtain ⟨⟨hrespects, hfits, hordered⟩, hright⟩ := hsettled.yield hspine op.priority
    exact ⟨⟨hrespects, hfits, fun w hw ↦ Waiting.priority_lt_of_mem_head?_yield hw, hright,
      hordered⟩, houter⟩
  | @postfixed _ e waiting _ op ht =>
    obtain ⟨hsettled, hspine, houter⟩ := hs
    obtain ⟨⟨hrespects, hfits, hordered⟩, hright⟩ := hsettled.yield hspine op.priority
    refine ⟨⟨Expression.respects_iff.mpr ⟨hright, ?_⟩, ?_, hordered⟩, rfl, houter⟩
    · simpa [Expression.children] using hrespects
    · exact List.forall_mem_cons.mpr
        ⟨fun w hw ↦ Waiting.priority_lt_of_mem_head?_yield hw, hfits⟩
  | closeParen hk =>
    obtain ⟨-, -, houter⟩ := hs
    obtain ⟨⟨⟨items, hgroup, -⟩, -⟩, -⟩ := List.forall_mem_cons.mp houter
    cases hgroup
  | closeBracket hk =>
    obtain ⟨hsettled, -, houter⟩ := hs
    obtain ⟨⟨⟨items, hlist, hitems⟩, houtside⟩, houter⟩ := List.forall_mem_cons.mp houter
    cases hlist
    refine ⟨settled_list (fun item hitem ↦ ?_) houtside, rfl, houter⟩
    exact List.forall_mem_cons.mpr ⟨hsettled.completeAll, hitems⟩ item (List.mem_reverse.mp hitem)
  | comma hk =>
    obtain ⟨hsettled, -, houter⟩ := hs
    obtain ⟨⟨⟨items, hlist, hitems⟩, houtside⟩, houter⟩ := List.forall_mem_cons.mp houter
    cases hlist
    refine ⟨trivial, List.forall_mem_cons.mpr ⟨⟨⟨_, rfl, ?_⟩, houtside⟩, houter⟩⟩
    exact List.forall_mem_cons.mpr ⟨hsettled.completeAll, hitems⟩

/-- Tokens without parentheses are read as an expression whose operators bind by priority. -/
theorem Reading.Reads.respects {tokens : List Token} {e : Expression} (h : Reads tokens e)
    (hp : ∀ t ∈ tokens, t.kind ≠ .openParen)
    (hargs : ∀ t ∈ tokens, ∀ a ∈ t.arguments, ∀ e', Expression.readAt a.2 a.1 = .ok e' →
      e'.Respects) : e.Respects := by
  obtain ⟨e, waiting, hrun, rfl⟩ := h
  have hstart : State.start.Ordered := ⟨trivial, by rintro b ⟨⟩⟩
  have hend : (State.operatorDue e waiting []).Ordered :=
    hrun.invariant (motive := fun s _ ↦ s.Ordered)
      (fun t ht s s' done hstep hs ↦ hstep.ordered (hp t ht) (hargs t ht) hs) [] hstart
  exact hend.1.completeAll

/-! ## The tree of a source -/

/-- **Precedence.** Where a source without parentheses is read, the tree gives back its tokens in
order, and all operators in it bind by their priorities. -/
theorem Expression.inOrder_and_binds_of_read {source : String} {e : Expression}
    (hp : '(' ∉ source.toList) (h : read source = .ok e) :
    (∃ tokens, Token.scan 0 source.toList = .ok tokens ∧ InOrder e tokens) ∧
      ∀ x, Within x e → x.Binds := by
  refine readAt_induction
    (motive := fun offset source e ↦ '(' ∉ source →
      (∃ tokens, Token.scan offset source = .ok tokens ∧ InOrder e tokens) ∧ e.Respects) ?_ h hp
  intro offset source tokens e hscan hargs hreads hp
  have hkinds : ∀ t ∈ tokens, t.kind ≠ .openParen := fun t ht ↦ kind_ne_openParen hp hscan ht
  have hargument : ∀ t ∈ tokens, ∀ a ∈ t.arguments, '(' ∉ a.1 := by
    intro t ht a ha hmem
    have hpiece := (infix_of_mem_arguments ha).trans (lexeme_infix_of_mem_scan hscan ht)
    exact hp (hpiece.mem hmem)
  refine ⟨⟨tokens, hscan, hreads.inOrder hkinds ?_⟩, hreads.respects hkinds ?_⟩
  · intro t ht a ha e' he'
    exact (hargs t ht a ha e' he' (hargument t ht a ha)).1
  · intro t ht a ha e' he'
    exact (hargs t ht a ha e' he' (hargument t ht a ha)).2

/-- A loose operator before an operand takes more than the tight one before it would: here the
negation takes the draw, and the dice take the negation. -/
theorem Expression.inOrder_and_binds_of_read_loose_operand :
    '(' ∉ "2d-3p4?+[5,$6]".toList ∧ ∃ e, read "2d-3p4?+[5,$6]" = .ok e ∧
      (∃ tokens, Token.scan 0 "2d-3p4?+[5,$6]".toList = .ok tokens ∧ InOrder e tokens) ∧
      ∀ x, Within x e → x.Binds := by
  have hp : '(' ∉ "2d-3p4?+[5,$6]".toList := by decide
  have hread : read "2d-3p4?+[5,$6]" = .ok
      (.binary
        (.binary (.literal (.const (numeral ['2']))) .dice
          (.prefixed .negate
            (.binary (.literal (.const (numeral ['3']))) .pick
              (.postfixed (.literal (.const (numeral ['4']))) .shuffle))))
        .join
        (.list
          [.literal (.const (numeral ['5'])),
            .prefixed .total (.literal (.const (numeral ['6'])))])) := by
    rw [read, readAt_eq]
    rfl
  exact ⟨hp, _, hread, inOrder_and_binds_of_read hp hread⟩

end DiceNotation
