import DiceNotation.Proofs.Nesting

/-!
# Brackets outside quoted text

What the scans of references look at can be said without them. The quoted texts are taken out of a
text (`Token.unquoted?`), and in what is left, brackets are counted. A place is outside quoted text
if the text before it has no quoted text that does not end there, and as many brackets are open at
the place as that text leaves open (`Token.openBrackets?`). A text closes its own brackets if no
beginning of it closes more than it opens, and the whole as many (`Token.ClosesItsOwn`).

The scans keep a count and a quotation instead, from character to character. They come to the same:
quoted texts change no count (`Scan.walk_eq_some_outside_iff`), and a count that never falls below
zero is the difference of two counts (`Scan.CountsUp.count?_eq_some_iff`).
-/

namespace DiceNotation

-- A property of all members is decided by going through them, whatever is imported.
attribute [local instance (high)] List.decidableBAll

namespace Token

/-! ## Texts without their quoted texts -/

/-- The characters of a text that stand outside quoted text, if every quoted text in it ends. A
quoted text goes from one quote to the next, where a backslash takes the next character with it. The
text begins in a quoted text if it is `quoted`. -/
def unquoted? : (quoted : Bool) → List Char → Option (List Char)
  | false, [] => some []
  | false, '"' :: rest => unquoted? true rest
  | false, c :: rest => (unquoted? false rest).map (c :: ·)
  | true, [] => none
  | true, '"' :: rest => unquoted? false rest
  | true, '\\' :: _ :: rest => unquoted? true rest
  | true, _ :: rest => unquoted? true rest

/-- How many brackets some characters leave open; a closing one too many opens none. -/
def openBrackets (plain : List Char) : Nat :=
  plain.foldl (fun count c ↦
    if c ∈ ['(', '[', '\x7b'] then count + 1
    else if c ∈ [')', ']', '\x7d'] then count - 1
    else count) 0

/-- How many brackets are open behind a text, if the place there is outside quoted text. -/
def openBrackets? (text : List Char) : Option Nat := (unquoted? false text).map openBrackets

/-- Outside quoted text, the text closes the brackets that it opens and no others, and its quoted
texts end. -/
def ClosesItsOwn (opening closing text : List Char) : Prop :=
  ∃ plain, unquoted? false text = some plain ∧
    (∀ front, front <+: plain → front.countP (· ∈ closing) ≤ front.countP (· ∈ opening)) ∧
    plain.countP (· ∈ closing) = plain.countP (· ∈ opening)

end Token

namespace Scan

variable {s : Scan} {start behind : Nat × Quotation} {text plain opening closing : List Char}
  {depth depth' : Nat}

/-! ## Counts -/

/-- The number of open brackets behind characters outside quoted text, unless the scan stops. -/
def count? (s : Scan) (depth : Nat) (plain : List Char) : Option Nat :=
  plain.foldlM (fun depth c ↦ if s.stops depth c then none else some (s.nest depth c)) depth

theorem count?_cons (c : Char) : s.count? depth (c :: plain)
    = if s.stops depth c then none else s.count? (s.nest depth c) plain := by
  rw [count?, List.foldlM_cons]
  split <;> rfl

/-- A quote is no bracket. -/
structure IgnoresQuotes (s : Scan) : Prop where
  stops_eq : ∀ depth, s.stops depth '"' = false
  nest_eq : ∀ depth, s.nest depth '"' = depth

theorem IgnoresQuotes.step_outside (h : s.IgnoresQuotes) (depth : Nat) :
    s.step (depth, .outside) '"' = some (depth, .inside) := by
  rw [Scan.step_outside (h.stops_eq depth), h.nest_eq]
  rfl

/-- **Quoted texts change no count.** A walk that ends outside quoted text counts what stands
outside of it. -/
theorem walk_eq_some_outside_iff (hs : s.IgnoresQuotes) {quoted : Bool} :
    s.walk (depth, if quoted then .inside else .outside) text = some (depth', .outside) ↔
      ∃ plain, Token.unquoted? quoted text = some plain ∧ s.count? depth plain = some depth' := by
  fun_induction Token.unquoted? quoted text generalizing depth with
  | case1 => simp [count?]
  | case2 rest ih =>
    rw [walk_cons, if_neg Bool.false_ne_true, hs.step_outside]
    exact ih
  | case3 c rest hquote ih =>
    have houtside : Quotation.outside.step c = .outside := if_neg hquote
    have hrest : (∃ plain, (Token.unquoted? false rest).map (c :: ·) = some plain ∧
          s.count? depth plain = some depth') ↔
        ∃ plain, Token.unquoted? false rest = some plain ∧
          s.count? depth (c :: plain) = some depth' := by
      cases Token.unquoted? false rest <;> simp
    rw [hrest, walk_cons, if_neg Bool.false_ne_true]
    cases hstops : s.stops depth c with
    | true =>
      have hstep : s.step (depth, .outside) c = none := if_pos hstops
      simp [hstep, count?_cons, hstops]
    | false =>
      simp only [count?_cons, hstops, Scan.step_outside hstops, houtside]
      exact ih
  | case4 => simp
  | case5 rest ih => exact ih
  | case6 c rest ih => exact ih
  | case7 c rest hquote hescape ih =>
    rw [walk_cons, if_pos rfl, step_of_ne (by decide), Option.bind_some]
    by_cases hc : c = '\\'
    -- A backslash at the end of a text leaves it in a quoted text.
    · cases rest with
      | nil => simp [hc, Quotation.step, Token.unquoted?]
      | cons next behind => exact (hescape next behind hc rfl).elim
    · rw [Quotation.step, if_neg hc, if_neg hquote]
      exact ih

/-! ## Counting up and down

A scan that stops at a closing bracket too many gets to the end of some characters if none of their
beginnings closes more than has been opened. -/

/-- The scan counts brackets from one of two lists up, and from the other down. -/
structure CountsUp (s : Scan) (opening closing : List Char) : Prop where
  nest_eq : ∀ depth c, s.nest depth c
    = if c ∈ opening then depth + 1 else if c ∈ closing then depth - 1 else depth
  disjoint : ∀ c ∈ opening, c ∉ closing
  stops_iff : ∀ depth c, s.stops depth c = true ↔ depth = 0 ∧ c ∈ closing

theorem forall_prefix_cons {P : List Char → Prop} {c : Char} :
    (∀ front, front <+: c :: plain → P front) ↔
      P [] ∧ ∀ front, front <+: plain → P (c :: front) := by
  constructor
  · exact fun h ↦ ⟨h [] List.nil_prefix, fun front hfront ↦
      h _ (List.prefix_cons_iff.mpr (Or.inr ⟨front, rfl, hfront⟩))⟩
  · rintro ⟨hnil, hcons⟩ front hfront
    obtain rfl | ⟨rest, rfl, hrest⟩ := List.prefix_cons_iff.mp hfront
    · exact hnil
    · exact hcons rest hrest

/-- What a text may close is counted on behind its first character. -/
theorem forall_prefix_cons_countP_iff {next : Nat} {c : Char}
    (hc : next + [c].countP (· ∈ closing) = depth + [c].countP (· ∈ opening)) :
    (∀ front, front <+: c :: plain →
        front.countP (· ∈ closing) ≤ depth + front.countP (· ∈ opening)) ↔
      ∀ front, front <+: plain →
        front.countP (· ∈ closing) ≤ next + front.countP (· ∈ opening) := by
  have hcons (brackets front : List Char) : (c :: front).countP (· ∈ brackets)
      = [c].countP (· ∈ brackets) + front.countP (· ∈ brackets) := by
    rw [← List.singleton_append, List.countP_append]
  have hnil : [].countP (· ∈ closing) ≤ depth + [].countP (· ∈ opening) := Nat.zero_le _
  rw [forall_prefix_cons, and_iff_right hnil]
  refine forall₂_congr fun front _ ↦ ?_
  rw [hcons closing, hcons opening]
  omega

theorem CountsUp.count?_eq_some_iff (h : s.CountsUp opening closing) :
    s.count? depth plain = some depth' ↔
      (∀ front, front <+: plain →
          front.countP (· ∈ closing) ≤ depth + front.countP (· ∈ opening)) ∧
        depth' + plain.countP (· ∈ closing) = depth + plain.countP (· ∈ opening) := by
  induction plain generalizing depth with
  | nil =>
    have hcount : s.count? depth [] = some depth := rfl
    simp [hcount, eq_comm]
  | cons c plain ih =>
    have hc : c ∈ opening → c ∉ closing := h.disjoint c
    rw [count?_cons]
    cases hstops : s.stops depth c with
    | true =>
      obtain ⟨rfl, hclosing⟩ := (h.stops_iff depth c).mp hstops
      have hopening : c ∉ opening := fun ho ↦ hc ho hclosing
      rw [if_pos rfl]
      refine iff_of_false (by simp) fun ⟨hle, _⟩ ↦ ?_
      simpa [hopening, hclosing] using hle [c] (List.prefix_append [c] plain)
    | false =>
      -- A bracket is closed only where one is open, so that nothing is lost below zero.
      have hopen : c ∈ closing → depth ≠ 0 := fun hclosing hdepth ↦
        Bool.eq_false_iff.mp hstops ((h.stops_iff depth c).mpr ⟨hdepth, hclosing⟩)
      have hnext : s.nest depth c + [c].countP (· ∈ closing)
          = depth + [c].countP (· ∈ opening) := by
        rw [h.nest_eq]
        by_cases ho : c ∈ opening
        · simp [ho, hc ho]
        · by_cases hclosing : c ∈ closing
          · simpa [ho, hclosing] using Nat.sub_add_cancel (Nat.pos_of_ne_zero (hopen hclosing))
          · simp [ho, hclosing]
      rw [if_neg Bool.false_ne_true, ih, forall_prefix_cons_countP_iff hnext]
      refine and_congr_right fun _ ↦ ?_
      rw [List.countP_cons, List.countP_cons]
      simp only [List.countP_singleton] at hnext
      omega

theorem CountsUp.walk_eq_some_iff (h : s.CountsUp opening closing) (hs : s.IgnoresQuotes) :
    s.walk (0, .outside) text = some (0, .outside) ↔ Token.ClosesItsOwn opening closing text := by
  have hwalk := @walk_eq_some_outside_iff s text 0 0 hs false
  rw [if_neg Bool.false_ne_true] at hwalk
  rw [hwalk, Token.ClosesItsOwn]
  simp only [h.count?_eq_some_iff, Nat.zero_add]

theorem ignoresQuotes_braces : braces.IgnoresQuotes := ⟨fun _ ↦ by simp [braces], fun _ ↦ rfl⟩

theorem ignoresQuotes_commas : commas.IgnoresQuotes := ⟨fun _ ↦ by simp [commas], fun _ ↦ rfl⟩

theorem ignoresQuotes_brackets : brackets.IgnoresQuotes :=
  ⟨fun _ ↦ by simp [brackets], fun _ ↦ rfl⟩

theorem countsUp_braces : braces.CountsUp ['\x7b'] ['\x7d'] where
  nest_eq depth c := by simp [braces]
  disjoint := by decide
  stops_iff depth c := by simp [braces]

theorem nesting_eq (depth : Nat) (c : Char) : Token.nesting depth c
    = if c ∈ ['(', '[', '\x7b'] then depth + 1
      else if c ∈ [')', ']', '\x7d'] then depth - 1
      else depth := by
  simp [Token.nesting, or_comm, or_assoc]

theorem countsUp_brackets : brackets.CountsUp ['(', '[', '\x7b'] [')', ']', '\x7d'] where
  nest_eq := nesting_eq
  disjoint := by decide
  stops_iff depth c := by simp [brackets, or_comm]

/-! ## Scans that go on

A scan that stops at some characters is also followed behind them. -/

/-- The number of open brackets and the quotation behind a character, whether the scan stops before
it or not. -/
def pass (s : Scan) : Nat × Quotation → Char → Nat × Quotation
  | (depth, .outside), c => (s.nest depth c, Quotation.outside.step c)
  | (depth, quotation), c => (depth, quotation.step c)

theorem pass_of_step {c : Char} {next : Nat × Quotation} (h : s.step start c = some next) :
    s.pass start c = next := by
  obtain ⟨depth, _ | _ | _⟩ := start
  · exact (step_outside_eq_some_iff.mp h).2.symm
  · exact Option.some.inj h
  · exact Option.some.inj h

theorem foldl_pass_of_walk (h : s.walk start text = some behind) :
    text.foldl s.pass start = behind := by
  induction text generalizing start with
  | nil => exact Option.some.inj h
  | cons c text ih =>
    obtain ⟨next, hnext, h⟩ := exists_step_of_cons h
    rw [List.foldl_cons, pass_of_step hnext]
    exact ih h

theorem isSome_walk_iff : (s.walk start text).isSome = true ↔
    ∀ before c rest depth, text = before ++ c :: rest →
      before.foldl s.pass start = (depth, .outside) → s.stops depth c = false := by
  induction text generalizing start with
  | nil => simp
  | cons c text ih =>
    rw [walk_cons]
    cases hstep : s.step start c with
    | none =>
      obtain ⟨depth, quotation⟩ := start
      obtain ⟨rfl, hstops⟩ := eq_outside_of_step hstep
      refine iff_of_false (by simp) fun h ↦ ?_
      rw [h [] c text depth rfl rfl] at hstops
      cases hstops
    | some next =>
      rw [Option.bind_some, ih]
      constructor
      · rintro h (_ | ⟨d, before⟩) c' rest depth htext hbefore
        · obtain ⟨rfl, -⟩ := List.cons.inj htext
          obtain rfl : start = (depth, .outside) := hbefore
          exact (step_outside_eq_some_iff.mp hstep).1
        · obtain ⟨rfl, htail⟩ := List.cons.inj htext
          rw [List.foldl_cons, pass_of_step hstep] at hbefore
          exact h before c' rest depth htail hbefore
      · intro h before c' rest depth htext hbefore
        refine h (c :: before) c' rest depth (congrArg (c :: ·) htext) ?_
        rw [List.foldl_cons, pass_of_step hstep]
        exact hbefore

/-- The scan without its stops. -/
def through (s : Scan) : Scan := { s with stops := fun _ _ ↦ false }

theorem walk_through : s.through.walk start text = some (text.foldl s.pass start) := by
  induction text generalizing start with
  | nil => rfl
  | cons c text ih =>
    have hstep : s.through.step start c = some (s.pass start c) := by
      obtain ⟨depth, _ | _ | _⟩ := start <;> rfl
    rw [walk_cons, hstep, Option.bind_some, ih, List.foldl_cons]

theorem count?_through : s.through.count? depth plain = some (plain.foldl s.nest depth) := by
  induction plain generalizing depth with
  | nil => rfl
  | cons c plain ih =>
    rw [count?_cons, List.foldl_cons]
    exact ih

/-- The scan for commas counts the brackets that are open outside quoted text. -/
theorem foldl_pass_commas_eq_iff :
    text.foldl commas.pass (0, .outside) = (depth, .outside) ↔
      Token.openBrackets? text = some depth := by
  have hthrough : commas.through.IgnoresQuotes := ⟨fun _ ↦ rfl, ignoresQuotes_commas.nest_eq⟩
  have hwalk := @walk_eq_some_outside_iff commas.through text 0 depth hthrough false
  rw [if_neg Bool.false_ne_true, walk_through, Option.some.injEq] at hwalk
  rw [hwalk, Token.openBrackets?, Option.map_eq_some_iff]
  refine exists_congr fun plain ↦ and_congr_right fun _ ↦ ?_
  have hnest : commas.nest = fun count c ↦
      if c ∈ ['(', '[', '\x7b'] then count + 1
      else if c ∈ [')', ']', '\x7d'] then count - 1
      else count := funext fun count ↦ funext fun c ↦ nesting_eq count c
  rw [count?_through, Option.some.injEq, Token.openBrackets, hnest]

theorem isSome_walk_commas_iff : (commas.walk (0, .outside) text).isSome = true ↔
    ∀ before rest, text = before ++ ',' :: rest → Token.openBrackets? before ≠ some 0 := by
  rw [isSome_walk_iff]
  constructor
  · intro h before rest htext hopen
    exact absurd (h before ',' rest 0 htext (foldl_pass_commas_eq_iff.mpr hopen)) (by decide)
  · intro h before c rest depth htext hbefore
    refine Bool.eq_false_iff.mpr fun hstops ↦ ?_
    obtain ⟨rfl, rfl⟩ : depth = 0 ∧ c = ',' := by simpa [commas] using hstops
    exact h before rest htext (foldl_pass_commas_eq_iff.mp hbefore)

end Scan

/-- The brackets of a balanced text close one another, if their kinds are not told apart. -/
theorem Token.balanced_iff {text : List Char} :
    Balanced text ↔ ClosesItsOwn ['(', '[', '\x7b'] [')', ']', '\x7d'] text :=
  Scan.countsUp_brackets.walk_eq_some_iff Scan.ignoresQuotes_brackets

end DiceNotation
