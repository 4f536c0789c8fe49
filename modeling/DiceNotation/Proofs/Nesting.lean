import DiceNotation.Token

/-!
# The scans of references

A reference is scanned twice, once for the brace that closes it and once for the commas that divide
it. Both scans go from character to character, follow the same `Quotation` and count brackets
outside quoted text, but not the same ones, and they stop at different characters. A `Scan` is what
they differ in, and `Scan.walk` goes over a text that they do not stop in.

The scan for the closing brace counts braces only, and stops at the one that closes the reference.
The scan for commas counts brackets of all kinds together, and stops at a comma where none is open;
a closing bracket too many is not counted. To compare the two there is a third one, which counts
brackets of all kinds and stops at a closing one too many (`Balanced`).

What the two functions of the scanner do is said in terms of walks, in both directions: they go on
behind a text that is walked over, and what they have passed over has been walked over.
-/

namespace DiceNotation

/-- A scan over a text that counts open brackets outside quoted text. -/
structure Scan where
  /-- How many brackets are open behind a character. -/
  nest : Nat → Char → Nat
  /-- Whether the scan stops before a character. -/
  stops : Nat → Char → Bool

namespace Scan

/-- The number of open brackets and the quotation behind a character, unless the scan stops. -/
def step (s : Scan) : Nat × Quotation → Char → Option (Nat × Quotation)
  | (depth, .outside), c =>
    if s.stops depth c then none else some (s.nest depth c, Quotation.outside.step c)
  | (depth, quotation), c => some (depth, quotation.step c)

/-- The number of open brackets and the quotation behind a text, unless the scan stops in it. -/
def walk (s : Scan) (start : Nat × Quotation) (text : List Char) : Option (Nat × Quotation) :=
  text.foldlM s.step start

/-- The scan for the brace that closes a reference. -/
def braces : Scan where
  nest depth c := if c = '{' then depth + 1 else if c = '}' then depth - 1 else depth
  stops depth c := depth = 0 && c = '}'

/-- The scan for the commas that divide a reference. -/
def commas : Scan where
  nest := Token.nesting
  stops depth c := depth = 0 && c = ','

/-- The scan for a bracket that closes more than has been opened. -/
def brackets : Scan where
  nest := Token.nesting
  stops depth c := depth = 0 && (c = '}' || c = ']' || c = ')')

/-! ## Walks

A walk over two texts is a walk over the first one and then over the second. Quotations do not
depend on what brackets a scan counts, so that two scans are compared by their steps outside quoted
text. -/

variable {s : Scan} {start behind : Nat × Quotation} {text rest : List Char}

@[simp] theorem walk_nil : s.walk start [] = some start := rfl

theorem walk_cons (c : Char) : s.walk start (c :: rest) = (s.step start c).bind (s.walk · rest) :=
  List.foldlM_cons ..

theorem exists_step_of_cons {c : Char} (h : s.walk start (c :: rest) = some behind) :
    ∃ next, s.step start c = some next ∧ s.walk next rest = some behind := by
  rw [walk_cons] at h
  exact Option.bind_eq_some_iff.mp h

theorem step_of_ne {depth : Nat} {quotation : Quotation} (h : quotation ≠ .outside) (c : Char) :
    s.step (depth, quotation) c = some (depth, quotation.step c) := by
  cases quotation with
  | outside => exact absurd rfl h
  | inside => rfl
  | escaped => rfl

theorem step_outside {depth : Nat} {c : Char} (h : s.stops depth c = false) :
    s.step (depth, .outside) c = some (s.nest depth c, Quotation.outside.step c) :=
  if_neg (by simp [h])

theorem step_outside_eq_some_iff {depth : Nat} {c : Char} {next : Nat × Quotation} :
    s.step (depth, .outside) c = some next ↔
      s.stops depth c = false ∧ next = (s.nest depth c, Quotation.outside.step c) := by
  cases h : s.stops depth c with
  | true => simp [step, h]
  | false => simp [step, h, eq_comm]

theorem snd_of_step {c : Char} {next : Nat × Quotation} (h : s.step start c = some next) :
    next.2 = start.2.step c := by
  obtain ⟨depth, quotation⟩ := start
  by_cases hq : quotation = .outside
  · subst hq
    rw [(step_outside_eq_some_iff.mp h).2]
  · rw [step_of_ne hq] at h
    cases h
    rfl

theorem eq_outside_of_step {depth : Nat} {quotation : Quotation} {c : Char}
    (h : s.step (depth, quotation) c = none) : quotation = .outside ∧ s.stops depth c = true := by
  by_cases hq : quotation = .outside
  · subst hq
    cases hstops : s.stops depth c with
    | true => exact ⟨rfl, rfl⟩
    | false =>
      rw [step_outside hstops] at h
      cases h
  · rw [step_of_ne hq] at h
    cases h

theorem quotation_eq_of_walk {s' : Scan} {depth : Nat} {behind' : Nat × Quotation}
    (h : s.walk start text = some behind) (h' : s'.walk (depth, start.2) text = some behind') :
    behind.2 = behind'.2 := by
  induction text generalizing start depth with
  | nil =>
    cases h
    cases h'
    rfl
  | cons c text ih =>
    obtain ⟨next, hnext, h⟩ := exists_step_of_cons h
    obtain ⟨⟨depth', quotation⟩, hnext', h'⟩ := exists_step_of_cons h'
    obtain rfl : quotation = next.2 := (snd_of_step hnext').trans (snd_of_step hnext).symm
    exact ih h h'

theorem walk_append (h : s.walk start text = some behind) :
    s.walk start (text ++ rest) = s.walk behind rest := by
  rw [walk, List.foldlM_append]
  exact congrArg (· >>= fun p ↦ s.walk p rest) h

theorem exists_walk_of_append (h : s.walk start (text ++ rest) = some behind) :
    ∃ between, s.walk start text = some between ∧ s.walk between rest = some behind := by
  rw [walk, List.foldlM_append] at h
  exact Option.bind_eq_some_iff.mp h

/-- One scan goes along with another if each of its steps does. -/
theorem walk_along {s' : Scan} {R : Nat × Quotation → Nat × Quotation → Prop}
    (hstep : ∀ p p' c q, R p p' → s.step p c = some q → ∃ q', s'.step p' c = some q' ∧ R q q')
    {start' : Nat × Quotation} (hR : R start start') (h : s.walk start text = some behind) :
    ∃ behind', s'.walk start' text = some behind' ∧ R behind behind' := by
  induction text generalizing start start' with
  | nil =>
    cases h
    exact ⟨start', rfl, hR⟩
  | cons c text ih =>
    obtain ⟨next, hnext, h⟩ := exists_step_of_cons h
    obtain ⟨next', hnext', hR⟩ := hstep _ _ c next hR hnext
    obtain ⟨behind', h', hR⟩ := ih hR h
    exact ⟨behind', by rw [walk_cons, hnext']; exact h', hR⟩

/-- One scan goes along with another, with a number of brackets more, if it does so outside quoted
text. -/
theorem walk_add {s' : Scan} {k : Nat} (hstep : ∀ depth c, s.stops depth c = false →
      s'.stops (depth + k) c = false ∧ s'.nest (depth + k) c = s.nest depth c + k)
    (h : s.walk start text = some behind) :
    s'.walk (start.1 + k, start.2) text = some (behind.1 + k, behind.2) := by
  have halong : ∀ p p' c q, p' = (p.1 + k, p.2) → s.step p c = some q →
      ∃ q', s'.step p' c = some q' ∧ q' = (q.1 + k, q.2) := by
    rintro ⟨depth, quotation⟩ _ c q rfl h
    refine ⟨_, ?_, rfl⟩
    by_cases hq : quotation = .outside
    · subst hq
      obtain ⟨hstops, rfl⟩ := step_outside_eq_some_iff.mp h
      obtain ⟨hstops', hnest⟩ := hstep depth c hstops
      rw [step_outside hstops', hnest]
    · rw [step_of_ne hq] at h ⊢
      cases h
      rfl
  obtain ⟨_, hwalk, rfl⟩ := walk_along halong rfl h
  exact hwalk

theorem walk_braces_add (h : braces.walk start text = some behind) (k : Nat) :
    braces.walk (start.1 + k, start.2) text = some (behind.1 + k, behind.2) := by
  refine walk_add (fun depth c hstops ↦ ?_) h
  simp only [braces, Bool.and_eq_false_iff, decide_eq_false_iff_not] at hstops ⊢
  refine ⟨hstops.imp_left (by omega), ?_⟩
  split
  · omega
  · split
    · next hclosing =>
      have : depth ≠ 0 := by simpa [hclosing] using hstops
      omega
    · rfl

/-- Where no bracket is closed that was not opened, no comma divides the text inside brackets. -/
theorem walk_commas_of_brackets (h : brackets.walk start text = some behind) (k : Nat) :
    commas.walk (start.1 + (k + 1), start.2) text = some (behind.1 + (k + 1), behind.2) := by
  refine walk_add (fun depth c hstops ↦ ?_) h
  simp only [brackets, commas, Bool.and_eq_false_iff, decide_eq_false_iff_not,
    Bool.or_eq_false_iff] at hstops ⊢
  refine ⟨Or.inl (by omega), ?_⟩
  unfold Token.nesting
  split
  · omega
  · split
    · next hclosing =>
      have : depth ≠ 0 := by rcases hclosing with rfl | rfl | rfl <;> simpa using hstops
      omega
    · rfl

/-! ## Characters that do not count -/

/-- The character means nothing to the scan and neither begins nor ends a quotation. -/
structure Ignores (s : Scan) (c : Char) : Prop where
  ne_quote : c ≠ '"'
  stops_eq : ∀ depth, s.stops depth c = false
  nest_eq : ∀ depth, s.nest depth c = depth

theorem walk_of_ignores (h : ∀ c ∈ text, s.Ignores c) (depth : Nat) :
    s.walk (depth, .outside) text = some (depth, .outside) := by
  induction text with
  | nil => rfl
  | cons c text ih =>
    obtain ⟨hc, htext⟩ := List.forall_mem_cons.mp h
    rw [walk_cons, step_outside (hc.stops_eq depth), hc.nest_eq, Quotation.step,
      if_neg hc.ne_quote]
    exact ih htext

theorem Ignores.eq_of_step {c : Char} {depth : Nat} (h : s.Ignores c)
    (hstep : s.step start c = some (depth, .outside)) : start = (depth, .outside) := by
  obtain ⟨before, _ | _ | _⟩ := start
  · obtain ⟨-, hnext⟩ := step_outside_eq_some_iff.mp hstep
    rw [h.nest_eq] at hnext
    rw [(Prod.mk.inj hnext).1]
  · have hinside : Quotation.inside.step c ≠ .outside := by
      rw [Quotation.step, if_neg h.ne_quote]
      split <;> decide
    exact absurd (congrArg Prod.snd (Option.some.inj hstep)) hinside
  · have hescaped : Quotation.escaped.step c ≠ .outside := by
      rw [Quotation.step]
      decide
    exact absurd (congrArg Prod.snd (Option.some.inj hstep)) hescaped

/-- Before characters that do not count, a walk is where it is behind them. -/
theorem eq_of_walk_of_ignores {depth : Nat} (h : ∀ c ∈ text, s.Ignores c)
    (hwalk : s.walk start text = some (depth, .outside)) : start = (depth, .outside) := by
  induction text generalizing start with
  | nil => exact Option.some.inj hwalk
  | cons c text ih =>
    obtain ⟨hc, htext⟩ := List.forall_mem_cons.mp h
    obtain ⟨next, hstep, hwalk⟩ := exists_step_of_cons hwalk
    rw [ih htext hwalk] at hstep
    exact hc.eq_of_step hstep

end Scan

namespace Token

variable {start behind : Nat × Quotation} {text rest : List Char}

/-! ## The brace that closes a reference

The end of a reference is the brace that the scan stops at. Behind a text that is walked over it is
looked for in the rest, and what stands before it has been walked over. -/

theorem referenceTail?_cons (depth : Nat) (quotation : Quotation) (c : Char) (rest : List Char) :
    referenceTail? (depth + 1) quotation (c :: rest)
      = (Scan.braces.step (depth, quotation) c).elim (some 1)
          fun p ↦ (referenceTail? (p.1 + 1) p.2 rest).map (· + 1) := by
  cases quotation with
  | outside =>
    by_cases ho : c = '{'
    · subst ho
      simp [referenceTail?, Scan.step, Scan.braces, Quotation.step]
    by_cases hc : c = '}'
    · subst hc
      cases depth with
      | zero => rfl
      | succ depth => simp [referenceTail?, Scan.step, Scan.braces, Quotation.step]
    · simp [referenceTail?, Scan.step, Scan.braces, ho, hc]
  | inside => simp [referenceTail?, Scan.step]
  | escaped => simp [referenceTail?, Scan.step]

theorem referenceTail?_of_walk (h : Scan.braces.walk start text = some behind)
    (rest : List Char) :
    referenceTail? (start.1 + 1) start.2 (text ++ rest)
      = (referenceTail? (behind.1 + 1) behind.2 rest).map (· + text.length) := by
  induction text generalizing start with
  | nil =>
    cases h
    simp
  | cons c text ih =>
    obtain ⟨depth, quotation⟩ := start
    obtain ⟨next, hnext, h⟩ := Scan.exists_step_of_cons h
    rw [List.cons_append, referenceTail?_cons, hnext]
    change (referenceTail? (next.1 + 1) next.2 (text ++ rest)).map (· + 1) = _
    rw [ih h, Option.map_map]
    rfl

/-- What stands before the brace is walked over. -/
theorem exists_walk_of_referenceTail? {n : Nat}
    (h : referenceTail? (start.1 + 1) start.2 text = some n) :
    ∃ inner rest, text = inner ++ '}' :: rest ∧ n = inner.length + 1 ∧
      Scan.braces.walk start inner = some (0, .outside) := by
  induction text generalizing start n with
  | nil =>
    rw [referenceTail?] at h
    cases h
  | cons c text ih =>
    obtain ⟨depth, quotation⟩ := start
    rw [referenceTail?_cons] at h
    cases hnext : Scan.braces.step (depth, quotation) c with
    | none =>
      rw [hnext] at h
      cases h
      obtain ⟨rfl, hstops⟩ := Scan.eq_outside_of_step hnext
      obtain ⟨rfl, rfl⟩ : depth = 0 ∧ c = '}' := by simpa [Scan.braces] using hstops
      exact ⟨[], text, rfl, rfl, rfl⟩
    | some next =>
      rw [hnext] at h
      obtain ⟨n, hn, rfl⟩ := Option.map_eq_some_iff.mp h
      obtain ⟨inner, rest, rfl, rfl, hwalk⟩ := ih hn
      refine ⟨c :: inner, rest, rfl, rfl, ?_⟩
      rw [Scan.walk_cons, hnext]
      exact hwalk

/-! ## The commas that divide a reference

A text is divided at the commas that the scan stops at. Behind a text that is walked over, the rest
is divided. -/

theorem divide_cons (depth : Nat) (quotation : Quotation) (c : Char) (rest : List Char) :
    divide depth quotation (c :: rest)
      = (Scan.commas.step (depth, quotation) c).elim
          ([], (divide 0 .outside rest).1 :: (divide 0 .outside rest).2)
          fun p ↦ (c :: (divide p.1 p.2 rest).1, (divide p.1 p.2 rest).2) := by
  by_cases hq : quotation = .outside
  · subst hq
    by_cases hc : depth = 0 ∧ c = ','
    · obtain ⟨rfl, rfl⟩ := hc
      rfl
    · have hstops : Scan.commas.stops depth c = false := by simpa [Scan.commas] using hc
      rw [divide, if_neg fun h ↦ hc h.2, Scan.step_outside hstops]
      rfl
  · rw [divide, if_neg fun h ↦ hq h.1, if_neg hq, Scan.step_of_ne hq]
    rfl

theorem divide_of_walk (h : Scan.commas.walk start text = some behind) (rest : List Char) :
    divide start.1 start.2 (text ++ rest)
      = (text ++ (divide behind.1 behind.2 rest).1, (divide behind.1 behind.2 rest).2) := by
  induction text generalizing start with
  | nil =>
    cases h
    rfl
  | cons c text ih =>
    obtain ⟨depth, quotation⟩ := start
    obtain ⟨next, hnext, h⟩ := Scan.exists_step_of_cons h
    rw [List.cons_append, divide_cons, hnext, Option.elim_some, ih h]
    rfl

/-- The sources of arguments, with a comma before each. -/
def argumentText (sources : List (List Char)) : List Char := sources.flatMap (',' :: ·)

/-- A text is made up of the parts that it is divided into, and the first part is walked over; where
others follow, no bracket is open behind it. -/
theorem exists_walk_of_divide (start : Nat × Quotation) (text : List Char) :
    text = (divide start.1 start.2 text).1 ++ argumentText (divide start.1 start.2 text).2 ∧
      ∃ behind, Scan.commas.walk start (divide start.1 start.2 text).1 = some behind ∧
        ((divide start.1 start.2 text).2 ≠ [] → behind = (0, .outside)) := by
  induction text generalizing start with
  | nil => exact ⟨rfl, start, rfl, fun h ↦ absurd rfl h⟩
  | cons c text ih =>
    obtain ⟨depth, quotation⟩ := start
    rw [divide_cons]
    cases hnext : Scan.commas.step (depth, quotation) c with
    | none =>
      obtain ⟨rfl, hstops⟩ := Scan.eq_outside_of_step hnext
      obtain ⟨rfl, rfl⟩ : depth = 0 ∧ c = ',' := by simpa [Scan.commas] using hstops
      obtain ⟨htext, -⟩ := ih (0, .outside)
      exact ⟨congrArg (',' :: ·) htext, _, rfl, fun _ ↦ rfl⟩
    | some next =>
      obtain ⟨htext, behind, hwalk, hbehind⟩ := ih next
      refine ⟨congrArg (c :: ·) htext, behind, ?_, hbehind⟩
      rw [Option.elim_some, Scan.walk_cons, hnext]
      exact hwalk

/-! ## Quoted text -/

theorem ne_backslash {c : Char} {rest : List Char} (hend : c = '\\' → rest = [] → False)
    (hescape : ∀ next behind, c = '\\' → rest = next :: behind → False) : c ≠ '\\' := by
  rintro rfl
  cases rest with
  | nil => exact hend rfl rfl
  | cons next behind => exact hescape next behind rfl rfl

/-- Every scan goes over the rest of a quoted text, with all brackets as they were, and is outside
quoted text again behind the last quote and not before. -/
theorem exists_walk_take_of_textTail? {m n : Nat} (h : textTail? text = some n) (hm : m ≤ n)
    (s : Scan) (depth : Nat) : ∃ quotation,
      s.walk (depth, .inside) (text.take m) = some (depth, quotation) ∧
        (quotation = .outside ↔ m = n) := by
  fun_induction textTail? text generalizing m n with
  | case1 | case3 | case4 => cases h
  | case2 rest =>
    cases h
    rcases Nat.le_one_iff_eq_zero_or_eq_one.mp hm with rfl | rfl
    · exact ⟨.inside, rfl, by decide⟩
    · exact ⟨.outside, rfl, by decide⟩
  | case5 c rest _ ih =>
    obtain ⟨n, hn, rfl⟩ := Option.map_eq_some_iff.mp h
    rcases m with _ | _ | m
    · exact ⟨.inside, rfl, fun hq ↦ absurd hq (by decide), fun hm ↦ by omega⟩
    · exact ⟨.escaped, rfl, fun hq ↦ absurd hq (by decide), fun hm ↦ by omega⟩
    · have hle : m ≤ n := by omega
      obtain ⟨quotation, hwalk, hends⟩ := ih hn hle
      exact ⟨quotation, hwalk, hends.trans (by omega)⟩
  | case6 c rest hquote hend hescape ih =>
    obtain ⟨n, hn, rfl⟩ := Option.map_eq_some_iff.mp h
    rcases m with _ | m
    · exact ⟨.inside, rfl, fun hq ↦ absurd hq (by decide), fun hm ↦ by omega⟩
    have hstep : Quotation.inside.step c = .inside := by
      rw [Quotation.step, if_neg (ne_backslash hend hescape), if_neg hquote]
    obtain ⟨quotation, hwalk, hends⟩ := ih hn (Nat.le_of_succ_le_succ hm)
    refine ⟨quotation, ?_, hends.trans (by omega)⟩
    rw [List.take_succ_cons, Scan.walk_cons, Scan.step_of_ne (by decide), hstep]
    exact hwalk

theorem walk_take_of_textTail? {n : Nat} (h : textTail? text = some n) (s : Scan) (depth : Nat) :
    s.walk (depth, .inside) (text.take n) = some (depth, .outside) := by
  obtain ⟨quotation, hwalk, hends⟩ := exists_walk_take_of_textTail? h (Nat.le_refl n) s depth
  rwa [hends.mpr rfl] at hwalk

theorem step_braces_quote (depth : Nat) :
    Scan.braces.step (depth, .outside) '"' = some (depth, .inside) := by
  simp [Scan.step, Scan.braces, Quotation.step]

theorem step_commas_quote (depth : Nat) :
    Scan.commas.step (depth, .outside) '"' = some (depth, .inside) := by
  simp [Scan.step, Scan.commas, nesting, Quotation.step]

/-! ## Texts inside references

A character that no scan looks at is passed over, and a comma where it does not divide. So is what
stands in brackets or braces, if it is passed over inside them, and a quoted text as a whole. -/

/-- Both scans of a reference go over the text, from outside quoted text to outside of it. The text
opens and closes its own braces. With `before` brackets open before it, `behind` are open behind it,
and so with more; with fewer, it may be divided. -/
structure Leads (before behind : Nat) (text : List Char) : Prop where
  braces : Scan.braces.walk (0, .outside) text = some (0, .outside)
  commas : ∀ depth, Scan.commas.walk (depth + before, .outside) text
    = some (depth + behind, .outside)

/-- Both scans of a reference go over the text wherever at least `least` brackets are open around
it, and as many are open behind it. -/
abbrev Passed (least : Nat) (text : List Char) : Prop := Leads least least text

namespace Leads

variable {l m n : Nat}

theorem nil (m : Nat) : Leads m m [] := ⟨rfl, fun _ ↦ rfl⟩

theorem append (h : Leads l m text) (h' : Leads m n rest) : Leads l n (text ++ rest) where
  braces := (Scan.walk_append h.braces).trans h'.braces
  commas depth := (Scan.walk_append (h.commas depth)).trans (h'.commas depth)

theorem add (h : Leads m n text) (k : Nat) : Leads (m + k) (n + k) text where
  braces := h.braces
  commas depth := by
    rw [Nat.add_comm m, Nat.add_comm n, ← Nat.add_assoc, ← Nat.add_assoc]
    exact h.commas (depth + k)

theorem mono (h : Passed m text) (hle : m ≤ n) : Passed n text := by
  obtain ⟨k, rfl⟩ := Nat.exists_eq_add_of_le hle
  exact h.add k

theorem plain {c : Char} (h : c ∉ ['{', '[', '(', '}', ']', ')', '"'])
    (hcomma : m = 0 → c ≠ ',') : Passed m [c] := by
  simp only [List.mem_cons, not_or] at h
  constructor
  · simp [Scan.walk_cons, Scan.step, Scan.braces, Quotation.step, h]
  · intro depth
    have hstops : Scan.commas.stops (depth + m) c = false := by
      simp only [Scan.commas, Bool.and_eq_false_iff, decide_eq_false_iff_not]
      by_cases hm : m = 0
      · exact Or.inr (hcomma hm)
      · exact Or.inl (by omega)
    rw [Scan.walk_cons, Scan.step_outside hstops]
    simp [Scan.commas, nesting, Quotation.step, h]

theorem of_forall_plain (h : ∀ c ∈ text, c ∉ ['{', '[', '(', '}', ']', ')', '"', ',']) :
    Passed 0 text := by
  induction text with
  | nil => exact nil 0
  | cons c text ih =>
    rw [List.forall_mem_cons] at h
    have hc : Passed 0 [c] :=
      plain (fun hm ↦ h.1 (List.mem_append_left [','] hm)) fun _ hm ↦ h.1 (by simp [hm])
    exact hc.append (ih h.2)

theorem opening {o : Char} (h : o = '(' ∨ o = '[') (m : Nat) : Leads m (m + 1) [o] := by
  constructor
  · rcases h with rfl | rfl <;> rfl
  · intro depth
    rcases h with rfl | rfl <;>
      simp [Scan.walk_cons, Scan.step, Scan.commas, nesting, Quotation.step, Nat.add_assoc]

theorem closing {c : Char} (h : c = ')' ∨ c = ']') (m : Nat) : Leads (m + 1) m [c] := by
  constructor
  · rcases h with rfl | rfl <;> rfl
  · intro depth
    rcases h with rfl | rfl <;>
      simp [Scan.walk_cons, Scan.step, Scan.commas, nesting, Quotation.step, ← Nat.add_assoc]

theorem bracketed (h : Passed 1 text) {o c : Char} (ho : o = '(' ∨ o = '[')
    (hc : c = ')' ∨ c = ']') : Passed 0 (o :: text ++ [c]) :=
  ((opening ho 0).append h).append (closing hc 0)

/-- What stands in braces is not divided by its commas. -/
theorem braced (h : Passed 1 text) : Passed 0 ('{' :: text ++ ['}']) where
  braces := Scan.walk_append (Scan.walk_braces_add h.braces 1)
  commas depth := by
    have hopen : Scan.commas.step (depth, .outside) '{' = some (depth + 1, .outside) := by
      simp [Scan.step, Scan.commas, nesting, Quotation.step]
    have hwalk : Scan.commas.walk (depth, .outside) ('{' :: text) = some (depth + 1, .outside) := by
      rw [Scan.walk_cons, hopen]
      exact h.commas depth
    rw [Nat.add_zero, Scan.walk_append hwalk, Scan.walk_cons]
    simp [Scan.step, Scan.commas, nesting, Quotation.step]

theorem quoted {n : Nat} (h : textTail? text = some n) : Passed 0 ('"' :: text.take n) where
  braces := by
    rw [Scan.walk_cons, step_braces_quote]
    exact walk_take_of_textTail? h Scan.braces 0
  commas depth := by
    rw [Scan.walk_cons, Nat.add_zero, step_commas_quote]
    exact walk_take_of_textTail? h Scan.commas depth

end Leads

/-! ## Arguments -/

theorem passed_argumentText {sources : List (List Char)} (h : ∀ s ∈ sources, Passed 0 s) :
    Passed 1 (argumentText sources) := by
  induction sources with
  | nil => exact .nil 1
  | cons s sources ih =>
    rw [List.forall_mem_cons] at h
    have hcomma : Passed 1 [','] := .plain (by decide) fun h1 ↦ absurd h1 (by decide)
    exact (hcomma.append (h.1.mono (Nat.zero_le 1))).append (ih h.2)

/-- The commas between the arguments of a reference are the ones that divide it. -/
theorem divide_argumentText {sources : List (List Char)} (h : ∀ s ∈ sources, Passed 0 s) :
    divide 0 .outside (argumentText sources) = ([], sources) := by
  induction sources with
  | nil => rfl
  | cons s sources ih =>
    rw [List.forall_mem_cons] at h
    change divide 0 .outside (',' :: (s ++ argumentText sources)) = _
    rw [divide, if_pos ⟨rfl, rfl, rfl⟩, divide_of_walk (h.1.commas 0), ih h.2]
    simp

/-- Outside quoted text, no bracket is closed in the text that has not been opened in it, and all
that are opened are closed. -/
def Balanced (text : List Char) : Prop :=
  Scan.brackets.walk (0, .outside) text = some (0, .outside)

instance (text : List Char) : Decidable (Balanced text) :=
  inferInstanceAs (Decidable (_ = _))

end Token

end DiceNotation
