import DiceNotation.Proofs.Scanning
import Mathlib.Data.List.Basic

/-!
# Scanning one text behind another

A text that falls into tokens by itself falls into the same tokens with more text behind it, as long
as that text begins with nothing that a token could go on with. Most tokens cannot be continued at
all: a quoted text and a reference end at marks of their own, and brackets and commas are single
characters. Only a number and an operator are as long as the characters allow, and so the joint has
to part these from what follows them (`EndsToken`); a blank does so in any case.

What is looked at is not the tokens, since the text of a token does not tell what stood behind it
when it was cut off. It is the single cut: where the head of a text is cut off as a token, the same
is cut off with more text behind it (`munch_append`). The scan then goes on cut by cut.
-/

namespace DiceNotation.Token

-- A property of all members is decided by going through them, whatever is imported.
attribute [local instance (high)] List.decidableBAll Option.decidableForallMem
  Option.decidableExistsMem

variable {text tail : List Char} {n : Nat}

/-- What stands here cannot go on with any token before it. -/
structure EndsToken (tail : List Char) : Prop where
  numeral : Binary64.EndsNumeral tail
  operator : EndsOperator tail

theorem EndsToken.of_isSpace {c : Char} (h : isSpace c = true) (rest : List Char) :
    EndsToken (c :: rest) := by
  simp only [isSpace, Bool.or_eq_true, beq_iff_eq] at h
  constructor
  · rintro d ⟨⟩
    rcases h with ((rfl | rfl) | rfl) | rfl <;> decide
  · refine endsOperator_cons ?_ rest
    rcases h with ((rfl | rfl) | rfl) | rfl <;> decide

/-! ## Single cuts

The digits of a number end where text follows that has none at its head, and an operator at the head
of both texts together is at the head of the first one. -/

theorem numberTail_le (text : List Char) : numberTail text ≤ text.length := by
  have hdigits (text : List Char) : (text.takeWhile Char.isDigit).length ≤ text.length :=
    (List.takeWhile_prefix _).length_le
  have hwhole := hdigits text
  have hlength : (text.drop (text.takeWhile Char.isDigit).length).length
      = text.length - (text.takeWhile Char.isDigit).length := List.length_drop
  unfold numberTail
  dsimp only
  split
  · next rest hpoint =>
    have hplaces := hdigits rest
    rw [hpoint, List.length_cons] at hlength
    split
    · exact hwhole
    · omega
  · exact hwhole

theorem takeWhile_isDigit_append_of_ends (h : ∀ c ∈ tail.head?, c.isDigit = false) :
    (text ++ tail).takeWhile Char.isDigit = text.takeWhile Char.isDigit := by
  have hnil : tail.takeWhile Char.isDigit = [] := by
    rcases tail with _ | ⟨c, tail⟩
    · rfl
    · exact List.takeWhile_cons_of_neg (by simp [h c rfl])
  rw [List.takeWhile_append, hnil, List.append_nil]
  split
  · next hlength => exact ((List.takeWhile_prefix _).eq_of_length hlength).symm
  · rfl

theorem numberTail_append (h : Binary64.EndsNumeral tail) :
    numberTail (text ++ tail) = numberTail text := by
  have hdigits (text : List Char) :
      (text ++ tail).takeWhile Char.isDigit = text.takeWhile Char.isDigit :=
    takeWhile_isDigit_append_of_ends fun c hc ↦ (h c hc).1
  have hdrop : (text ++ tail).drop (text.takeWhile Char.isDigit).length
      = text.drop (text.takeWhile Char.isDigit).length ++ tail :=
    List.drop_append_of_le_length (List.takeWhile_prefix _).length_le
  unfold numberTail
  simp only [hdigits, hdrop]
  rcases text.drop (text.takeWhile Char.isDigit).length with _ | ⟨c, rest⟩
  -- All of the text are digits, and the point of a fraction is not to be found behind it either.
  · rcases tail with _ | ⟨c, rest⟩
    · rfl
    · rw [List.nil_append]
      split
      · next heq =>
        injection heq with hc
        exact absurd hc (h c rfl).2
      · rfl
  · by_cases hpoint : c = '.'
    · subst hpoint
      simp only [List.cons_append, hdigits]
    · rw [List.cons_append]
      split
      · next heq =>
        injection heq with hc
        exact absurd hc hpoint
      · split
        · next heq =>
          injection heq with hc
          exact absurd hc hpoint
        · rfl

theorem isPrefixOf_append {s : String} (hs : s ∈ operatorSymbols) (h : EndsOperator tail) :
    s.toList.isPrefixOf (text ++ tail) = s.toList.isPrefixOf text := by
  rw [Bool.eq_iff_iff, List.isPrefixOf_iff_prefix, List.isPrefixOf_iff_prefix]
  constructor
  · intro hprefix
    rcases List.prefix_or_prefix_of_prefix hprefix (List.prefix_append text tail) with h' | ⟨u, hu⟩
    · exact h'
    · rw [← hu, List.prefix_append_right_inj] at hprefix
      rcases u with _ | ⟨c, u⟩
      · rw [List.append_nil] at hu
        exact hu ▸ List.prefix_rfl
      · obtain ⟨v, rfl⟩ := hprefix
        exact absurd (hu ▸ List.mem_append_right _ List.mem_cons_self) (h c rfl s hs)
  · exact fun hprefix ↦ hprefix.trans (List.prefix_append text tail)

theorem operatorLength_append_of_ends (h : EndsOperator tail) :
    operatorLength (text ++ tail) = operatorLength text := by
  refine List.foldl_ext _ _ _ fun longest s hs ↦ ?_
  rw [isPrefixOf_append hs h]

theorem length_le_of_operatorLength (h : operatorLength text = n) : n ≤ text.length := by
  rcases exists_of_foldl_longest h with rfl | ⟨s, -, hp, rfl⟩
  · exact Nat.zero_le _
  · rw [← String.length_toList]
    exact (List.isPrefixOf_iff_prefix.mp hp).length_le

theorem textTail?_append (h : textTail? text = some n) :
    n ≤ text.length ∧ ∀ tail, textTail? (text ++ tail) = some n := by
  fun_induction textTail? text generalizing n with
  | case1 | case3 | case4 => simp at h
  | case2 rest =>
    obtain rfl := Option.some.inj h
    exact ⟨by simp, fun _ ↦ rfl⟩
  | case5 c rest hc ih =>
    obtain ⟨n, hn, rfl⟩ := Option.map_eq_some_iff.mp h
    obtain ⟨hle, happend⟩ := ih hn
    refine ⟨by simpa using hle, fun tail ↦ ?_⟩
    simp only [List.cons_append, textTail?, if_neg hc, happend, Option.map_some]
  | case6 c rest hquote hend hescape ih =>
    obtain ⟨n, hn, rfl⟩ := Option.map_eq_some_iff.mp h
    obtain ⟨hle, happend⟩ := ih hn
    refine ⟨Nat.succ_le_succ hle, fun tail ↦ ?_⟩
    rw [List.cons_append, textTail?_cons hquote (ne_backslash hend hescape), happend,
      Option.map_some]

theorem referenceTail?_append (h : referenceTail? 1 .outside text = some n) :
    n ≤ text.length ∧ ∀ tail, referenceTail? 1 .outside (text ++ tail) = some n := by
  obtain ⟨inner, rest, rfl, rfl, hwalk⟩ := @exists_walk_of_referenceTail? (0, .outside) _ _ h
  refine ⟨by simp, fun tail ↦ ?_⟩
  rw [List.append_assoc]
  exact (referenceTail?_of_walk hwalk _).trans (by simp [referenceTail?, Nat.add_comm])

theorem munch_append {c : Char} {kind : Kind} (h : munch c text = .ok (kind, n)) :
    n ≤ text.length ∧ ∀ tail, EndsToken tail → munch c (text ++ tail) = .ok (kind, n) := by
  unfold munch at h
  split at h
  case h_1 | h_2 | h_3 | h_4 | h_5 =>
    cases h
    exact ⟨Nat.zero_le _, fun _ _ ↦ rfl⟩
  case h_6 =>
    split at h
    · next htail =>
      cases h
      obtain ⟨hle, happend⟩ := textTail?_append htail
      exact ⟨hle, fun tail _ ↦ munch_quote (happend tail)⟩
    · cases h
  case h_7 =>
    split at h
    · next htail =>
      cases h
      obtain ⟨hle, happend⟩ := referenceTail?_append htail
      exact ⟨hle, fun tail _ ↦ munch_brace (happend tail)⟩
    · cases h
  case h_8 =>
    split at h
    · next hdigit =>
      cases h
      refine ⟨numberTail_le text, fun tail ht ↦ ?_⟩
      rw [Binary64.munch_of_isDigit hdigit, numberTail_append ht.numeral]
    · split at h
      · cases h
      · next hlength =>
        cases h
        refine ⟨Nat.le_of_succ_le_succ (length_le_of_operatorLength hlength), fun tail ht ↦ ?_⟩
        rw [← operatorLength_append_of_ends ht.operator] at hlength
        obtain ⟨s, hs, htake⟩ := exists_symbol_of_operatorLength hlength
        refine munch_of_operatorLength ⟨s, hs, ?_⟩ hlength
        rw [htake]
        exact List.mem_cons_self

/-! ## The scan -/

theorem scanFrom_append {position skip : Nat} {tokens : List Token}
    (h : scanFrom position skip text = .ok tokens) (hskip : skip ≤ text.length)
    (ht : EndsToken tail) :
    scanFrom position skip (text ++ tail)
      = (scanFrom (position + byteLength text) 0 tail).map (tokens ++ ·) := by
  induction text generalizing position skip tokens with
  | nil =>
    obtain rfl := Nat.le_zero.mp hskip
    cases h
    exact (congrFun Except.map_id _).symm
  | cons c text ih =>
    rw [add_byteLength_cons]
    rcases skip with _ | skip
    · rw [scanFrom] at h
      split at h
      · next hspace =>
        rw [List.cons_append, scanFrom, if_pos hspace]
        exact ih h (Nat.zero_le _)
      · next hspace =>
        split at h
        · cases h
        · next kind n hmunch =>
          obtain ⟨hle, happend⟩ := munch_append hmunch
          split at h
          · cases h
          · next tokens hscan =>
            cases h
            rw [List.cons_append, scanFrom, if_neg hspace, happend tail ht]
            dsimp only
            rw [ih hscan hle, List.take_append_of_le_length hle]
            rcases scanFrom (position + c.utf8Size + byteLength text) 0 tail with error | behind
            · rfl
            · rfl
    · exact ih h (Nat.le_of_succ_le_succ hskip)

/-- **Scanning is compositional over blanks.** A text that falls into tokens falls into the same
ones in front of a blank, whatever stands behind it: the tokens of that text follow where it starts,
or else its error does. -/
theorem scan_append_space {offset : Nat} {tokens : List Token} (h : scan offset text = .ok tokens)
    {c : Char} (hc : isSpace c = true) (rest : List Char) :
    scan offset (text ++ c :: rest)
      = (scan (offset + byteLength text + 1) rest).map (tokens ++ ·) := by
  have hsize : c.utf8Size = 1 := by
    simp only [isSpace, Bool.or_eq_true, beq_iff_eq] at hc
    rcases hc with ((rfl | rfl) | rfl) | rfl <;> rfl
  rw [scan, scanFrom_append h (Nat.zero_le _) (.of_isSpace hc rest), scanFrom, if_pos hc, hsize]
  rfl

/-- A blank keeps the digits of `2` and `6` apart, behind a reference whose quoted brace does not
close it. -/
theorem scan_append_space_digits :
    let text := "\x7bé,\"\x7d\"\x7d2".toList
    let tokens : List Token :=
      [⟨.reference, "\x7bé,\"\x7d\"\x7d".toList, 5⟩, ⟨.number, ['2'], 13⟩]
    scan 5 text = .ok tokens ∧ isSpace '\n' = true ∧
      scan 5 (text ++ '\n' :: ['6']) = (scan (5 + byteLength text + 1) ['6']).map (tokens ++ ·) ∧
      scan (5 + byteLength text + 1) ['6'] = .ok [⟨.number, ['6'], 15⟩] :=
  ⟨rfl, rfl, scan_append_space rfl rfl _, rfl⟩

end DiceNotation.Token
