import DiceNotation.Proofs.ReadingSteps

/-!
# The grammar of the notation

An expression is a row of operands with binary operators between them, and an operand is an atom
with any number of prefix operators before it and of postfix operators behind it:

* `E := U (bin U)*`
* `U := pre* A post*`
* `A := number | text | reference | '(' E ')' | '[' ']' | '[' E (',' E)* ']'`

A reference has a name, and every argument of it is a source that falls into tokens of an expression
again. Priorities are no part of the grammar: they decide what tree is read, never whether there is
one. `exists_read_iff_derives` says that exactly the sources of the grammar are read.

## Why priorities do not matter

Reading takes a token for what the state calls for, an operand or an operator, and both halves of
the proof look at nothing else. That a derivation is read is shown from whatever operators wait
(`Nonterminal.ReadFrom`); what has been read is described by what an expression behind it would
complete (`Awaits`), where waiting operators do not occur at all.
-/

namespace DiceNotation

open Token Reading

/-! ## Derivations -/

/-- What sequences of tokens can be derived from. -/
inductive Nonterminal where
  | expression
  | operand
  | atom
  /-- The items of a list that is not empty. -/
  | items

/-- The tokens derive from the nonterminal. -/
inductive Derives : Nonterminal → List Token → Prop
  | single {ts : List Token} (h : Derives .operand ts) : Derives .expression ts
  | binary {ts us : List Token} {t : Token} (op : BinaryOp) (h : Derives .operand ts)
      (ht : t.IsSymbol op.symbol) (hr : Derives .expression us) :
      Derives .expression (ts ++ t :: us)
  | operand {before ts after : List Token}
      (hb : ∀ t ∈ before, ∃ op : PrefixOp, t.IsSymbol op.symbol) (h : Derives .atom ts)
      (ha : ∀ t ∈ after, ∃ op : PostfixOp, t.IsSymbol op.symbol) :
      Derives .operand (before ++ ts ++ after)
  | number {t : Token} (hk : t.kind = .number) : Derives .atom [t]
  | text {t : Token} (hk : t.kind = .text) : Derives .atom [t]
  /-- `tokens` are those of the arguments, which are sources with a first byte. -/
  | reference {t : Token} (tokens : List Char × Nat → List Token) (hk : t.kind = .reference)
      (hn : t.name ≠ []) (hs : ∀ a ∈ t.arguments, Token.scan a.2 a.1 = .ok (tokens a))
      (h : ∀ a ∈ t.arguments, Derives .expression (tokens a)) : Derives .atom [t]
  | group {ts : List Token} {o c : Token} (ho : o.kind = .openParen) (h : Derives .expression ts)
      (hc : c.kind = .closeParen) : Derives .atom (o :: ts ++ [c])
  | emptyList {o c : Token} (ho : o.kind = .openBracket) (hc : c.kind = .closeBracket) :
      Derives .atom [o, c]
  | list {ts : List Token} {o c : Token} (ho : o.kind = .openBracket) (h : Derives .items ts)
      (hc : c.kind = .closeBracket) : Derives .atom (o :: ts ++ [c])
  | item {ts : List Token} (h : Derives .expression ts) : Derives .items ts
  | items {ts us : List Token} {t : Token} (h : Derives .expression ts) (ht : t.kind = .comma)
      (hr : Derives .items us) : Derives .items (ts ++ t :: us)

/-! ## What derives is read

Prefix operators wait, and postfix operators take what has been read for their operand. A token that
denotes an operand is an atom; a reference denotes something if all its arguments can be read. -/

/-- Wherever an operand is due, the tokens of the nonterminal are read. The tokens of an atom leave
alone what waits, and those of items are read behind an opening bracket. -/
def Nonterminal.ReadFrom : Nonterminal → List Token → Prop
  | .expression, ts | .operand, ts => ∀ waiting, ∃ e waiting', ∀ outer,
      Run (.operandDue waiting outer) ts (.operatorDue e waiting' outer)
  | .atom, ts => ∃ e, ∀ waiting outer,
      Run (.operandDue waiting outer) ts (.operatorDue e waiting outer)
  | .items, ts => ∀ before, ∃ e waiting items, ∀ outside outer,
      Run (.operandDue [] ((.list before, outside) :: outer)) ts
        (.operatorDue e waiting ((.list items, outside) :: outer))

theorem exists_run_prefixes {ts : List Token}
    (h : ∀ t ∈ ts, ∃ op : PrefixOp, t.IsSymbol op.symbol) (waiting : List Waiting) :
    ∃ waiting', ∀ outer, Run (.operandDue waiting outer) ts (.operandDue waiting' outer) := by
  induction ts generalizing waiting with
  | nil => exact ⟨waiting, fun outer ↦ .nil _⟩
  | cons t ts ih =>
    obtain ⟨⟨op, ht⟩, hts⟩ := List.forall_mem_cons.mp h
    obtain ⟨waiting', hrun⟩ := ih hts (.prefixed op :: waiting)
    exact ⟨waiting', fun outer ↦ .cons (.prefixed op ht) (hrun outer)⟩

theorem exists_run_postfixes {ts : List Token}
    (h : ∀ t ∈ ts, ∃ op : PostfixOp, t.IsSymbol op.symbol) (e : Expression)
    (waiting : List Waiting) :
    ∃ e' waiting', ∀ outer,
      Run (.operatorDue e waiting outer) ts (.operatorDue e' waiting' outer) := by
  induction ts generalizing e waiting with
  | nil => exact ⟨e, waiting, fun outer ↦ .nil _⟩
  | cons t ts ih =>
    obtain ⟨⟨op, ht⟩, hts⟩ := List.forall_mem_cons.mp h
    obtain ⟨e', waiting', hrun⟩ := ih hts _ _
    exact ⟨e', waiting', fun outer ↦ .cons (.postfixed op ht) (hrun outer)⟩

theorem readFrom_atom_of_denotes {t : Token} {e : Expression} (h : t.Denotes e) :
    Nonterminal.ReadFrom .atom [t] :=
  ⟨e, fun _ _ ↦ (Step.operand h).run⟩

theorem exists_readAt_of_readFrom {tokens : List Token} {offset : Nat} {source : List Char}
    (hscan : Token.scan offset source = .ok tokens)
    (h : Nonterminal.ReadFrom .expression tokens) :
    ∃ e, Expression.readAt offset source = .ok e := by
  obtain ⟨e, waiting, hrun⟩ := h []
  exact ⟨_, Expression.readAt_eq_ok_iff.mpr ⟨tokens, hscan, e, waiting, hrun [], rfl⟩⟩

theorem exists_denotes_reference {t : Token} (hk : t.kind = .reference) (hn : t.name ≠ [])
    (h : ∀ a ∈ t.arguments, ∃ e, Expression.readAt a.2 a.1 = .ok e) : ∃ e, t.Denotes e := by
  by_cases ha : t.arguments = []
  · exact ⟨_, .reference hk hn ha⟩
  · choose! f hf using h
    have hes : List.Forall₂ (fun a e ↦ Expression.readAt a.2 a.1 = .ok e) t.arguments
        (t.arguments.map f) :=
      List.forall₂_map_right_iff.mpr (List.forall₂_same.mpr hf)
    exact ⟨_, .call hk hn ha hes⟩

/-- **What derives is read**, wherever an operand is due. -/
theorem Derives.readFrom {n : Nonterminal} {ts : List Token} (h : Derives n ts) :
    n.ReadFrom ts := by
  induction h with
  | single _ ih => exact ih
  | binary op _ ht _ ihl ihr =>
    intro waiting
    obtain ⟨e, waiting', hleft⟩ := ihl waiting
    obtain ⟨e', waiting'', hright⟩ := ihr _
    exact ⟨e', waiting'', fun outer ↦ (hleft outer).append (.cons (.binary op ht) (hright outer))⟩
  | operand hb _ ha ih =>
    intro waiting
    obtain ⟨waiting', hbefore⟩ := exists_run_prefixes hb waiting
    obtain ⟨e, hatom⟩ := ih
    obtain ⟨e', waiting'', hafter⟩ := exists_run_postfixes ha e waiting'
    exact ⟨e', waiting'', fun outer ↦
      ((hbefore outer).append (hatom waiting' outer)).append (hafter outer)⟩
  | number hk => exact readFrom_atom_of_denotes (.number hk)
  | text hk => exact readFrom_atom_of_denotes (.text hk)
  | reference tokens hk hn hs _ ih =>
    have hread := fun a ha ↦ exists_readAt_of_readFrom (hs a ha) (ih a ha)
    obtain ⟨e, he⟩ := exists_denotes_reference hk hn hread
    exact readFrom_atom_of_denotes he
  | group ho _ hc ih =>
    obtain ⟨e, waiting', hrun⟩ := ih []
    exact ⟨_, fun waiting outer ↦
      .cons (.openParen ho) ((hrun _).append (Step.closeParen hc).run)⟩
  | emptyList ho hc =>
    exact ⟨_, fun waiting outer ↦ .cons (.openBracket ho) (Step.emptyList hc).run⟩
  | list ho _ hc ih =>
    obtain ⟨e, waiting', items, hrun⟩ := ih []
    exact ⟨_, fun waiting outer ↦
      .cons (.openBracket ho) ((hrun _ _).append (Step.closeBracket hc).run)⟩
  | item _ ih =>
    intro before
    obtain ⟨e, waiting, hrun⟩ := ih []
    exact ⟨e, waiting, before, fun outside outer ↦ hrun _⟩
  | items _ ht _ ihl ihr =>
    intro before
    obtain ⟨e, waiting, hrun⟩ := ihl []
    obtain ⟨e', waiting', items, hrest⟩ := ihr _
    exact ⟨e', waiting', items, fun outside outer ↦
      (hrun _).append (.cons (.comma ht) (hrest outside outer))⟩

/-! ## What is read derives

A prefix operator belongs to the first operand of an expression and a postfix operator to the one
before it. So what an expression behind it would complete is known at every step. -/

/-- Put before what derives from the nonterminal, the tokens make up what derives from it again. -/
def Extends (n : Nonterminal) (before : List Token) : Prop :=
  ∀ ts, Derives n ts → Derives n (before ++ ts)

theorem Extends.nil (n : Nonterminal) : Extends n [] := fun _ h ↦ h

theorem Extends.append {n : Nonterminal} {before more : List Token} (h : Extends n before)
    (hm : Extends n more) : Extends n (before ++ more) := by
  intro ts hts
  rw [List.append_assoc]
  exact h _ (hm ts hts)

theorem extends_prefixed {t : Token} (op : PrefixOp) (ht : t.IsSymbol op.symbol) :
    Extends .expression [t] := by
  have hoperand : ∀ ts, Derives .operand ts → Derives .operand (t :: ts) := by
    intro ts h
    cases h with
    | operand hb h ha => exact .operand (List.forall_mem_cons.mpr ⟨⟨op, ht⟩, hb⟩) h ha
  intro ts h
  cases h with
  | single h => exact .single (hoperand ts h)
  | binary op' h ht' hr => exact .binary op' (hoperand _ h) ht' hr

theorem extends_binary {ts : List Token} (h : Derives .operand ts) {t : Token} (op : BinaryOp)
    (ht : t.IsSymbol op.symbol) : Extends .expression (ts ++ [t]) := by
  intro us hus
  rw [List.append_assoc]
  exact .binary op h ht hus

theorem extends_comma {ts : List Token} (h : Derives .operand ts) {t : Token}
    (ht : t.kind = .comma) : Extends .items (ts ++ [t]) := by
  intro us hus
  rw [List.append_assoc]
  exact .items (.single h) ht hus

/-- What can be put before an expression can be put before the first item of a list. -/
theorem Extends.items {before : List Token} (h : Extends .expression before) :
    Extends .items before := by
  intro ts hts
  cases hts with
  | item hts => exact .item (h ts hts)
  | items hts ht hr =>
    rw [← List.append_assoc]
    exact .items (h _ hts) ht hr

/-- The tokens open these brackets, and whatever expression follows, they make up an expression with
it, or items of a list if a list is the innermost bracket. -/
inductive Awaits : List (OpenBracket × List Waiting) → List Token → Prop
  | outermost {before : List Token} (h : Extends .expression before) : Awaits [] before
  | group {outer : List (OpenBracket × List Waiting)} {before inside : List Token} {o : Token}
      (outside : List Waiting) (h : Awaits outer before) (ho : o.kind = .openParen)
      (hi : Extends .expression inside) :
      Awaits ((.group, outside) :: outer) (before ++ o :: inside)
  | list {outer : List (OpenBracket × List Waiting)} {before inside : List Token} {o : Token}
      (items : List Expression) (outside : List Waiting) (h : Awaits outer before)
      (ho : o.kind = .openBracket) (hi : Extends .items inside) :
      Awaits ((.list items, outside) :: outer) (before ++ o :: inside)

theorem Awaits.extend {outer : List (OpenBracket × List Waiting)} {before more : List Token}
    (h : Awaits outer before) (hm : Extends .expression more) : Awaits outer (before ++ more) := by
  cases h with
  | outermost h => exact .outermost (h.append hm)
  | group outside h ho hi =>
    rw [List.append_assoc]
    exact .group outside h ho (hi.append hm)
  | list items outside h ho hi =>
    rw [List.append_assoc]
    exact .list items outside h ho (hi.append hm.items)

/-- What the tokens that have led to a state derive. A closing bracket makes an empty list only
directly behind the opening one. -/
def Reading.State.Derived : State → List Token → Prop
  | .operandDue waiting outer, done => Awaits outer done ∧
    ∀ outside outer', waiting = [] → outer = (.list [], outside) :: outer' →
      ∃ before o, done = before ++ [o] ∧ Awaits outer' before ∧ o.kind = .openBracket
  | .operatorDue _ _ outer, done =>
    ∃ before ts, done = before ++ ts ∧ Awaits outer before ∧ Derives .operand ts

theorem derived_of_atom {outer : List (OpenBracket × List Waiting)} {done ts : List Token}
    (h : Awaits outer done) (hts : Derives .atom ts) (e : Expression) (waiting : List Waiting) :
    (State.operatorDue e waiting outer).Derived (done ++ ts) := by
  have hoperand : Derives .operand ([] ++ ts ++ []) := .operand (by simp) hts (by simp)
  rw [List.nil_append, List.append_nil] at hoperand
  exact ⟨done, ts, rfl, h, hoperand⟩

theorem Derives.append_postfix {ts : List Token} (h : Derives .operand ts) {t : Token}
    (op : PostfixOp) (ht : t.IsSymbol op.symbol) : Derives .operand (ts ++ [t]) := by
  cases h with
  | operand hb h ha =>
    rw [List.append_assoc]
    refine .operand hb h fun u hu ↦ ?_
    rcases List.mem_append.mp hu with hu | hu
    · exact ha u hu
    · rw [List.mem_singleton.mp hu]
      exact ⟨op, ht⟩

theorem derives_atom_of_denotes {t : Token} {e : Expression} (h : t.Denotes e)
    (hargs : ∀ a ∈ t.arguments, ∀ e', Expression.readAt a.2 a.1 = .ok e' →
      ∃ tokens, Token.scan a.2 a.1 = .ok tokens ∧ Derives .expression tokens) :
    Derives .atom [t] := by
  have hreference (hk : t.kind = .reference) (hn : t.name ≠ [])
      (hread : ∀ a ∈ t.arguments, ∃ e', Expression.readAt a.2 a.1 = .ok e') :
      Derives .atom [t] := by
    have hderives : ∀ a ∈ t.arguments, ∃ tokens, Token.scan a.2 a.1 = .ok tokens ∧
        Derives .expression tokens := by
      intro a ha
      obtain ⟨e', he'⟩ := hread a ha
      exact hargs a ha e' he'
    choose! tokens hscan hderives using hderives
    exact .reference tokens hk hn hscan hderives
  cases h with
  | number hk => exact .number hk
  | text hk => exact .text hk
  | reference hk hn ha => exact hreference hk hn (by simp [ha])
  | call hk hn ha hes =>
    refine hreference hk hn fun a ha ↦ ?_
    obtain ⟨e', -, he'⟩ := exists_of_mem_of_forall₂ hes ha
    exact ⟨e', he'⟩

theorem append_bracketed (before inside ts : List Token) (o t : Token) :
    before ++ o :: inside ++ ts ++ [t] = before ++ (o :: (inside ++ ts) ++ [t]) := by
  simp

/-- **A step derives**: what is due becomes longer, or an operand is complete. -/
theorem Reading.Step.derived {t : Token} {s s' : State} {done : List Token} (h : Step s t s')
    (hargs : ∀ a ∈ t.arguments, ∀ e', Expression.readAt a.2 a.1 = .ok e' →
      ∃ tokens, Token.scan a.2 a.1 = .ok tokens ∧ Derives .expression tokens)
    (hs : s.Derived done) : s'.Derived (done ++ [t]) := by
  cases h with
  | prefixed op ht =>
    refine ⟨hs.1.extend (extends_prefixed op ht), ?_⟩
    rintro outside outer' ⟨⟩
  | operand h => exact derived_of_atom hs.1 (derives_atom_of_denotes h hargs) _ _
  | openParen hk =>
    refine ⟨.group _ hs.1 hk (.nil _), ?_⟩
    rintro outside outer' - ⟨⟩
  | openBracket hk =>
    refine ⟨.list _ _ hs.1 hk (.nil _), ?_⟩
    rintro outside outer' - ⟨⟩
    exact ⟨done, t, rfl, hs.1, hk⟩
  | emptyList hk =>
    obtain ⟨before, o, rfl, hbefore, ho⟩ := hs.2 _ _ rfl rfl
    rw [List.append_assoc]
    exact derived_of_atom hbefore (.emptyList ho hk) _ _
  | binary op ht =>
    obtain ⟨before, ts, rfl, hbefore, hts⟩ := hs
    rw [List.append_assoc]
    refine ⟨hbefore.extend (extends_binary hts op ht), ?_⟩
    rintro outside outer' ⟨⟩
  | postfixed op ht =>
    obtain ⟨before, ts, rfl, hbefore, hts⟩ := hs
    exact ⟨before, ts ++ [t], List.append_assoc _ _ _, hbefore, hts.append_postfix op ht⟩
  | closeParen hk =>
    obtain ⟨before, ts, rfl, hbefore, hts⟩ := hs
    cases hbefore with
    | @group _ before inside o _ h ho hi =>
      have hinside : Derives .expression (inside ++ ts) := hi _ (.single hts)
      rw [append_bracketed]
      exact derived_of_atom h (.group ho hinside hk) _ _
  | closeBracket hk =>
    obtain ⟨before, ts, rfl, hbefore, hts⟩ := hs
    cases hbefore with
    | @list _ before inside o _ _ h ho hi =>
      have hinside : Derives .items (inside ++ ts) := hi _ (.item (.single hts))
      rw [append_bracketed]
      exact derived_of_atom h (.list ho hinside hk) _ _
  | comma hk =>
    obtain ⟨before, ts, rfl, hbefore, hts⟩ := hs
    cases hbefore with
    | @list _ before inside o _ _ h ho hi =>
      have hinside : Extends .items (inside ++ (ts ++ [t])) := hi.append (extends_comma hts hk)
      rw [← List.append_assoc] at hinside
      rw [append_bracketed]
      refine ⟨.list _ _ h ho hinside, ?_⟩
      rintro outside outer' - ⟨⟩

/-! ## Exactly what derives is read -/

theorem Reading.Reads.derives {tokens : List Token} {e : Expression} (h : Reads tokens e)
    (hargs : ∀ t ∈ tokens, ∀ a ∈ t.arguments, ∀ e', Expression.readAt a.2 a.1 = .ok e' →
      ∃ tokens, Token.scan a.2 a.1 = .ok tokens ∧ Derives .expression tokens) :
    Derives .expression tokens := by
  obtain ⟨e, waiting, hrun, -⟩ := h
  have hstart : State.start.Derived [] := by
    refine ⟨.outermost (.nil _), ?_⟩
    rintro outside outer' - ⟨⟩
  obtain ⟨before, ts, hdone, hbefore, hts⟩ : (State.operatorDue e waiting []).Derived tokens :=
    hrun.invariant (motive := State.Derived)
      (fun t ht s s' done hstep hs ↦ hstep.derived (hargs t ht) hs) [] hstart
  cases hbefore with
  | outermost h =>
    rw [hdone]
    exact h ts (.single hts)

/-- **The grammar of the notation.** A source is read exactly if it falls into tokens that derive
from the grammar. -/
theorem Expression.exists_read_iff_derives (source : String) :
    (∃ e, Expression.read source = .ok e) ↔
      ∃ tokens, Token.scan 0 source.toList = .ok tokens ∧ Derives .expression tokens := by
  constructor
  · rintro ⟨e, he⟩
    refine readAt_induction
      (motive := fun offset source _ ↦
        ∃ tokens, Token.scan offset source = .ok tokens ∧ Derives .expression tokens) ?_ he
    intro offset source tokens e hscan hargs hreads
    exact ⟨tokens, hscan, hreads.derives hargs⟩
  · rintro ⟨tokens, hscan, h⟩
    exact exists_readAt_of_readFrom hscan h.readFrom

end DiceNotation
