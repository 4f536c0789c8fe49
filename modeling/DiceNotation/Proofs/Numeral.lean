import DiceNotation.Token

/-!
# Numerals read back

The text of a finite number that is not negative is a numeral: digits, and behind a point more
digits if there are any. Reading the numeral gives the number back.

## Rounding sees only the quotient

The writer finds a point of a decimal grid that rounds to the number, and counts it in units; the
reader rounds the digits over a power of ten. Numerator and denominator differ between the two,
but their quotient is the same, and that is all that rounding looks at (`roundUnits_congr`). The
zeros that the writer cuts off behind the point change both by the same power of ten.
-/

namespace DiceNotation

-- A power of naturals is the one whose laws the core library states, whatever is imported.
attribute [local instance (high)] instPowNat

namespace Binary64

/-! ## Rounding -/

theorem roundHalfEven_mul_left {a : Nat} (ha : 0 < a) (num den : Nat) :
    roundHalfEven (a * num) (a * den) = roundHalfEven num den := by
  have hlt : 2 * (a * (num % den)) < a * den ↔ 2 * (num % den) < den := by
    rw [Nat.mul_left_comm]
    exact Nat.mul_lt_mul_left ha
  have hgt : a * den < 2 * (a * (num % den)) ↔ den < 2 * (num % den) := by
    rw [Nat.mul_left_comm]
    exact Nat.mul_lt_mul_left ha
  simp only [roundHalfEven, Nat.mul_mod_mul_left, Nat.mul_div_mul_left _ _ ha, hlt, hgt]

theorem roundUnits_mul_mul_left {a : Nat} (ha : 0 < a) (num den : Nat) :
    roundUnits (a * num) (a * den) = roundUnits num den := by
  unfold roundUnits
  rw [Nat.mul_div_mul_left _ _ ha, Nat.mul_assoc, roundHalfEven_mul_left ha]

/-- **Equal quotients round alike.** -/
theorem roundUnits_congr {num den num' den' : Nat} (hd : 0 < den) (hd' : 0 < den')
    (h : num * den' = num' * den) : roundUnits num den = roundUnits num' den' := by
  calc roundUnits num den = roundUnits (den' * num) (den' * den) :=
        (roundUnits_mul_mul_left hd' num den).symm
    _ = roundUnits (den * num') (den * den') := by
        rw [Nat.mul_comm den' num, h, Nat.mul_comm num' den, Nat.mul_comm den' den]
    _ = roundUnits num' den' := roundUnits_mul_mul_left hd num' den'

theorem ofQuotient_eq_finite {num den n : Nat} (h : roundUnits num den = n)
    (hn : Representable n) (negative : Bool) :
    ofQuotient negative num den = .finite negative n hn := by
  subst h
  exact dif_pos hn.1

/-! ## Digits -/

theorem exists_trimZeros_append (digits : List Char) :
    ∃ zeros, trimZeros digits ++ List.replicate zeros '0' = digits := by
  refine ⟨(digits.reverse.takeWhile (· == '0')).length, ?_⟩
  have hzeros : digits.reverse.takeWhile (· == '0')
      = List.replicate (digits.reverse.takeWhile (· == '0')).length '0' :=
    List.eq_replicate_iff.mpr ⟨rfl, fun c hc ↦ by
      simpa using List.all_eq_true.mp List.all_takeWhile c hc⟩
  rw [trimZeros, ← List.reverse_replicate, ← hzeros, ← List.reverse_append,
    List.takeWhile_append_dropWhile, List.reverse_reverse]

theorem length_paddedDigits {width n : Nat} (hw : 0 < width) (h : n < 10 ^ width) :
    (paddedDigits width n).length = width := by
  have hle := (Nat.length_toDigits_le_iff (by decide : 1 < 10) hw).mpr h
  rw [paddedDigits, List.length_append, List.length_replicate, Nat.sub_add_cancel hle]

theorem ofDigitChars_paddedDigits (width n : Nat) :
    Nat.ofDigitChars 10 (paddedDigits width n) 0 = n := by
  rw [paddedDigits, Nat.ofDigitChars_append, Nat.ofDigitChars_replicate_zero, Nat.mul_zero,
    Nat.ofDigitChars_ten_toDigits]

theorem isDigit_of_mem_toDigits (n : Nat) : ∀ c ∈ Nat.toDigits 10 n, c.isDigit = true :=
  fun _ ↦ Nat.isDigit_of_mem_toDigits (by decide) (by decide)

theorem isDigit_of_mem_paddedDigits {width n : Nat} {c : Char} (h : c ∈ paddedDigits width n) :
    c.isDigit = true := by
  rcases List.mem_append.mp h with h | h
  · rw [(List.mem_replicate.mp h).2]
    rfl
  · exact isDigit_of_mem_toDigits n c h

theorem isDigit_of_mem_trimZeros {digits : List Char} (hd : ∀ c ∈ digits, c.isDigit = true)
    {c : Char} (h : c ∈ trimZeros digits) : c.isDigit = true := by
  obtain ⟨zeros, hz⟩ := exists_trimZeros_append digits
  exact hd c (hz ▸ List.mem_append_left _ h)

/-! ## Numerals

A numeral is a token by itself: its first digit begins a number that takes the rest. What the
scanner takes for a number is a numeral, and is taken apart where it was put together. -/

/-- The decimal with these digits before and behind the point, which is written only if there are
digits behind it. -/
def decimalText (whole fraction : List Char) : List Char :=
  whole ++ if fraction.isEmpty then [] else '.' :: fraction

/-- Digits, and a point with digits behind it if there are any. -/
def IsNumeral (text : List Char) : Prop :=
  ∃ whole fraction, whole ≠ [] ∧ (∀ c ∈ whole ++ fraction, c.isDigit = true) ∧
    text = decimalText whole fraction

/-- What stands here cannot go on with a numeral before it. -/
def EndsNumeral (rest : List Char) : Prop :=
  ∀ c ∈ rest.head?, c.isDigit = false ∧ c ≠ '.'

theorem ne_point_of_isDigit {c : Char} (h : c.isDigit = true) : c ≠ '.' := by
  rintro rfl
  exact absurd h (by decide)

theorem takeWhile_isDigit_append {digits rest : List Char} (hd : ∀ c ∈ digits, c.isDigit = true)
    (hr : ∀ c ∈ rest.head?, c.isDigit = false) :
    (digits ++ rest).takeWhile Char.isDigit = digits := by
  have hnil : rest.takeWhile Char.isDigit = [] := by
    cases rest with
    | nil => rfl
    | cons c rest => rw [List.takeWhile_cons_of_neg (by simp [hr c rfl])]
  rw [List.takeWhile_append_of_pos hd, hnil, List.append_nil]

theorem numberTail_decimalText {whole fraction rest : List Char}
    (hw : ∀ c ∈ whole, c.isDigit = true) (hf : ∀ c ∈ fraction, c.isDigit = true)
    (hr : EndsNumeral rest) :
    Token.numberTail (decimalText whole fraction ++ rest)
      = (decimalText whole fraction).length := by
  cases fraction with
  | nil =>
    have htake := takeWhile_isDigit_append hw fun c hc ↦ (hr c hc).1
    simp only [decimalText, List.isEmpty_nil, if_true, List.append_nil, Token.numberTail, htake,
      List.drop_left]
    cases rest with
    | nil => rfl
    | cons c rest =>
      split
      · next heq =>
        injection heq with hc
        exact absurd hc (hr c rfl).2
      · rfl
  | cons d fraction =>
    have htake : (whole ++ '.' :: (d :: fraction ++ rest)).takeWhile Char.isDigit = whole := by
      refine takeWhile_isDigit_append hw fun c hc ↦ ?_
      obtain rfl : '.' = c := by simpa using hc
      decide
    have hplaces := takeWhile_isDigit_append hf fun c hc ↦ (hr c hc).1
    simp only [decimalText, List.isEmpty_cons, Bool.false_eq_true, if_false, List.append_assoc,
      List.cons_append, Token.numberTail]
    rw [← List.cons_append, htake, List.drop_left]
    simp only [hplaces, List.length_cons, List.length_append]
    omega

theorem munch_of_isDigit {c : Char} (h : c.isDigit = true) (rest : List Char) :
    Token.munch c rest = .ok (.number, Token.numberTail rest) := by
  unfold Token.munch
  split
  case h_8 => exact if_pos h
  all_goals exact absurd h (by decide)

theorem IsNumeral.exists_munch {text : List Char} (h : IsNumeral text) :
    ∃ c tail, text = c :: tail ∧ c.isDigit = true ∧ ∀ rest, EndsNumeral rest →
      Token.munch c (tail ++ rest) = .ok (.number, tail.length) := by
  obtain ⟨whole, fraction, hne, hd, rfl⟩ := h
  obtain ⟨c, whole, rfl⟩ := List.exists_cons_of_ne_nil hne
  have hc : c.isDigit = true := hd c List.mem_cons_self
  refine ⟨c, decimalText whole fraction, rfl, hc, fun rest hr ↦ ?_⟩
  rw [munch_of_isDigit hc, numberTail_decimalText _ _ hr]
  · exact fun a ha ↦ hd a (List.mem_cons_of_mem _ (List.mem_append_left _ ha))
  · exact fun a ha ↦ hd a (List.mem_append_right _ ha)

theorem isNumeral_of_isDigit {c : Char} (hc : c.isDigit = true) (rest : List Char) :
    IsNumeral (c :: rest.take (Token.numberTail rest)) := by
  have hdigits (text : List Char) : ∀ d ∈ text.takeWhile Char.isDigit, d.isDigit = true :=
    fun d hd ↦ List.all_eq_true.mp List.all_takeWhile d hd
  have hparts (text : List Char) : ∃ digits behind, text.takeWhile Char.isDigit = digits ∧
      text = digits ++ behind := ⟨_, _, rfl, List.takeWhile_append_dropWhile.symm⟩
  obtain ⟨whole, behind, hwhole, hrest⟩ := hparts rest
  have hd : ∀ d ∈ c :: whole, d.isDigit = true :=
    List.forall_mem_cons.mpr ⟨hc, hwhole ▸ hdigits rest⟩
  have hplain : IsNumeral (c :: whole) :=
    ⟨c :: whole, [], List.cons_ne_nil c whole, by rwa [List.append_nil], by simp [decimalText]⟩
  simp only [Token.numberTail, hwhole]
  rw [hrest, List.drop_left]
  split
  · next tail =>
    obtain ⟨fraction, behind, hfraction, htail⟩ := hparts tail
    rw [hfraction]
    split
    · rwa [List.take_left]
    · next places hplaces =>
      have hlength : whole.length + 1 + (places + 1) = (whole ++ '.' :: fraction).length := by
        rw [List.length_append, List.length_cons, hplaces]
        omega
      have htake : (whole ++ '.' :: tail).take (whole.length + 1 + (places + 1))
          = whole ++ '.' :: fraction := by
        rw [hlength, htail, ← List.cons_append, ← List.append_assoc, List.take_left]
      have hne : fraction ≠ [] := by
        rintro rfl
        cases hplaces
      rw [htake]
      refine ⟨c :: whole, fraction, List.cons_ne_nil c whole, ?_, by simp [decimalText, hne]⟩
      intro d hmem
      rcases List.mem_append.mp hmem with hmem | hmem
      · exact hd d hmem
      · exact hdigits tail d (hfraction ▸ hmem)
  · rwa [List.take_left]

theorem numeral_decimalText {whole : List Char} (fraction : List Char)
    (hw : ∀ c ∈ whole, c.isDigit = true) :
    Token.numeral (decimalText whole fraction) = ofDecimal whole fraction := by
  have hne : ∀ c ∈ whole, (c != '.') = true := fun c hc ↦ by
    simpa using ne_point_of_isDigit (hw c hc)
  rw [Token.numeral, decimalText, List.takeWhile_append_of_pos hne,
    List.dropWhile_append_of_pos hne]
  cases fraction <;> simp

/-! ## What is written

The digits of a decimal count the points of its grid, up to the zeros that are cut off. On a grid
with a point, they are the point of the grid over their power of ten; a grid of whole numbers counts
its points in powers of ten. -/

theorem ofDigitChars_pointText {places : Nat} (hp : 0 < places) (coefficient : Nat) :
    ∃ zeros, (trimZeros (paddedDigits places (coefficient % 10 ^ places))).length + zeros = places ∧
      Nat.ofDigitChars 10 (Nat.toDigits 10 (coefficient / 10 ^ places)
        ++ trimZeros (paddedDigits places (coefficient % 10 ^ places))) 0 * 10 ^ zeros
        = coefficient := by
  have hlt : coefficient % 10 ^ places < 10 ^ places := Nat.mod_lt _ (Nat.pow_pos (by decide))
  have hlen := length_paddedDigits hp hlt
  have hval := ofDigitChars_paddedDigits places (coefficient % 10 ^ places)
  obtain ⟨zeros, hz⟩ := exists_trimZeros_append (paddedDigits places (coefficient % 10 ^ places))
  refine ⟨zeros, ?_, ?_⟩
  · simpa using (congrArg List.length hz).trans hlen
  · calc _ = Nat.ofDigitChars 10 (Nat.toDigits 10 (coefficient / 10 ^ places)
          ++ (trimZeros (paddedDigits places (coefficient % 10 ^ places))
            ++ List.replicate zeros '0')) 0 := by
          rw [← List.append_assoc, Nat.ofDigitChars_append _ (m := List.replicate zeros '0'),
            Nat.ofDigitChars_replicate_zero, Nat.mul_comm]
      _ = 10 ^ places * (coefficient / 10 ^ places) + coefficient % 10 ^ places := by
          rw [hz, Nat.ofDigitChars_append, Nat.ofDigitChars_ten_toDigits,
            Nat.ofDigitChars_eq_ofDigitChars_zero, hlen, hval]
      _ = coefficient := Nat.div_add_mod _ _

theorem one_eq_mul {k : Nat} (hk : k ≤ unitExponent) : one = 2 ^ (unitExponent - k) * 2 ^ k := by
  unfold one
  exact (Nat.pow_sub_mul_pow 2 hk).symm

theorem one_mul_mul_stepParts {k c digits places zeros : Nat} (hk : k < unitExponent)
    (hlen : places + zeros = unitExponent - k) (hval : digits * 10 ^ zeros = c) :
    one * digits * stepParts k = c * stepUnits k * 10 ^ places := by
  have hten : (10 : Nat) ^ places * 10 ^ zeros
      = 2 ^ (unitExponent - k) * 5 ^ (unitExponent - k) := by
    rw [← Nat.pow_add, hlen, ← Nat.mul_pow]
  rw [stepParts, stepUnits, Nat.sub_eq_zero_of_le (Nat.le_of_lt hk), Nat.pow_zero, Nat.mul_one,
    ← hval, one_eq_mul (Nat.le_of_lt hk)]
  calc 2 ^ (unitExponent - k) * 2 ^ k * digits * 5 ^ (unitExponent - k)
      = 2 ^ k * digits * (2 ^ (unitExponent - k) * 5 ^ (unitExponent - k)) := by ac_rfl
    _ = 2 ^ k * digits * (10 ^ places * 10 ^ zeros) := by rw [hten]
    _ = digits * 10 ^ zeros * 2 ^ k * 10 ^ places := by ac_rfl

theorem mul_stepUnits {k : Nat} (hk : unitExponent ≤ k) (c : Nat) :
    c * stepUnits k = one * (c * 10 ^ (k - unitExponent)) := by
  have htwo : 2 ^ k = 2 ^ (k - unitExponent) * one := by
    unfold one
    exact (Nat.pow_sub_mul_pow 2 hk).symm
  have hten : (10 : Nat) ^ (k - unitExponent)
      = 2 ^ (k - unitExponent) * 5 ^ (k - unitExponent) := by rw [← Nat.mul_pow]
  rw [stepUnits, htwo, hten]
  generalize k - unitExponent = j
  ac_rfl

/-- **The text of a number reads back.** -/
theorem numeral_magnitudeText {n : Nat} (h : Representable n) :
    Token.numeral (magnitudeText n) = .finite false n h := by
  have hread := readPoint_shortest h
  rw [magnitudeText]
  generalize shortest n = point at hread
  obtain ⟨k, c⟩ := point
  rw [readPoint] at hread
  dsimp only
  by_cases hk : k < unitExponent
  · obtain ⟨zeros, hlen, hval⟩ := ofDigitChars_pointText (Nat.sub_pos_of_lt hk) c
    rw [if_pos hk]
    change Token.numeral (decimalText _ _) = _
    rw [numeral_decimalText _ (isDigit_of_mem_toDigits _), ofDecimal]
    refine ofQuotient_eq_finite (Eq.trans ?_ hread) h false
    exact roundUnits_congr (Nat.pow_pos (by decide)) (stepParts_pos k)
      (one_mul_mul_stepParts hk hlen hval)
  · rw [if_neg hk]
    rw [Nat.not_lt] at hk
    have hparts : stepParts k = 1 := by rw [stepParts, Nat.sub_eq_zero_of_le hk, Nat.pow_zero]
    have htext := numeral_decimalText [] (isDigit_of_mem_toDigits (c * 10 ^ (k - unitExponent)))
    rw [decimalText, List.isEmpty_nil, if_pos rfl, List.append_nil] at htext
    rw [htext, ofDecimal, List.append_nil, Nat.ofDigitChars_ten_toDigits]
    refine ofQuotient_eq_finite (Eq.trans ?_ hread) h false
    rw [mul_stepUnits hk, hparts]
    rfl

theorem isNumeral_magnitudeText (n : Nat) : IsNumeral (magnitudeText n) := by
  rw [magnitudeText]
  generalize shortest n = point
  obtain ⟨k, c⟩ := point
  dsimp only
  by_cases hk : k < unitExponent
  · rw [if_pos hk]
    refine ⟨_, _, Nat.toDigits_ne_nil, fun d hd ↦ ?_, rfl⟩
    rcases List.mem_append.mp hd with hd | hd
    · exact isDigit_of_mem_toDigits _ d hd
    · exact isDigit_of_mem_trimZeros (fun _ ↦ isDigit_of_mem_paddedDigits) hd
  · rw [if_neg hk]
    refine ⟨_, [], Nat.toDigits_ne_nil, fun d hd ↦ ?_, (List.append_nil _).symm⟩
    rw [List.append_nil] at hd
    exact isDigit_of_mem_toDigits _ d hd

end Binary64

end DiceNotation
