import DiceNotation.Proofs.Subtraction
import DiceNotation.Proofs.WholeNumbers

/-!
# Double negation

A value that is negated twice is the same value again, down to the potentials: a negation changes
signs and nothing else. Texts are the exception. They are negated as the lists of their code points,
and lists they stay.

The list of the code points of a text is as good as the text, as it reads as the text again
(`Value.asText_codePoints`). Every code point of a text is a small natural number, which is exact in
double precision and has no fraction, and it is a valid one, so that the character that it decodes
to is never the replacement character by mistake.
-/

namespace DiceNotation

-- A power of naturals is the one whose laws the core library states, whatever is imported.
attribute [local instance (high)] instPowNat

namespace Value

/-! ## Texts as code points -/

mutual

/-- The value with the list of its code points in place of every text. -/
def inCodePoints : Value → Value
  | .number x => .number x
  | .list items => .list (allInCodePoints items)
  | .text s => .list ((codePoints s).map .number)

/-- The values with lists of code points in place of their texts. -/
def allInCodePoints : List Value → List Value
  | [] => []
  | item :: rest => inCodePoints item :: allInCodePoints rest

end

theorem inCodePoints_list (items : List Value) :
    inCodePoints (.list items) = .list (items.map inCodePoints) := by
  have hitems : allInCodePoints items = items.map inCodePoints :=
    eq_map_of_cons rfl (fun _ _ ↦ rfl) items
  rw [inCodePoints, hitems]

theorem anyContainsText_eq_false_iff {items : List Value} :
    anyContainsText items = false ↔ ∀ v ∈ items, v.containsText = false := by
  induction items with
  | nil => simp [anyContainsText]
  | cons item rest ih => rw [anyContainsText, Bool.or_eq_false_iff, ih, List.forall_mem_cons]

theorem inCodePoints_of_containsText_eq_false {v : Value} (h : v.containsText = false) :
    v.inCodePoints = v := by
  induction v using induction with
  | number x => rfl
  | list items ih =>
    rw [containsText, anyContainsText_eq_false_iff] at h
    have hitems : items.map inCodePoints = items.map id :=
      List.map_congr_left fun v hv ↦ ih v hv (h v hv)
    rw [inCodePoints_list, hitems, List.map_id]
  | text s => cases h

/-! ## Characters from code points -/

/-- Every character is decoded from its code point. -/
theorem character_floor_toNat (c : Char) : character (Binary64.ofNat c.toNat).floor = c := by
  have hle : c.toNat ≤ UInt32.size - 1 := Nat.le_sub_one_of_lt c.val.toNat_lt
  have hnat : (Binary64.ofNat c.toNat).floor.IsNat c.toNat :=
    (Binary64.isNat_ofNat (Nat.le_trans hle (by decide))).floor
  have hrange : ¬(((Binary64.ofNat c.toNat).floor.isNegative ||
      (Binary64.ofNat (UInt32.size - 1)).lt (Binary64.ofNat c.toNat).floor) = true) := by
    rw [hnat.isNegative_eq, hnat.ofNat_lt_eq_false hle]
    exact Bool.false_ne_true
  have hvalid : c.toNat.isValidChar := c.valid
  rw [character, if_neg hrange]
  dsimp only
  rw [hnat.toNat_eq hle, if_pos hvalid, Char.ofNat_toNat]

/-- The code points of a text read as the text. -/
theorem asText_codePoints (s : String) : (list ((codePoints s).map number)).asText = s := by
  have hcharacters : ∀ c ∈ s.toList,
      character (number (Number.ofNat c.toNat)).total.value.floor = id c :=
    fun c _ ↦ character_floor_toNat c
  rw [asText, codePoints, List.map_map, List.map_map]
  refine (congrArg String.ofList (List.map_congr_left hcharacters)).trans ?_
  rw [List.map_id, String.ofList_toList]

/-! ## Negating twice

A value without texts is negated back to itself, and so is every other, once its texts have been
replaced. -/

theorem negate_negate (v : Value) : v.negate.negate = v.inCodePoints := by
  have hnumber (x : Number) : negate (.number (-x)) = .number x :=
    congrArg number x.neg_neg
  induction v using induction with
  | number x => exact hnumber x
  | list items ih =>
    rw [negate, negate, negateAll_eq_map, negateAll_eq_map, List.map_map, inCodePoints_list]
    exact congrArg list (List.map_congr_left ih)
  | text s =>
    rw [negate, negate, negateAll_eq_map, List.map_map, inCodePoints]
    exact congrArg list (List.map_congr_left fun x _ ↦ hnumber x)

theorem negate_negate_of_containsText_eq_false {v : Value} (h : v.containsText = false) :
    v.negate.negate = v := by
  rw [negate_negate, inCodePoints_of_containsText_eq_false h]

/-- **Double negation restores.** What is negated twice is the same value, with the same potentials,
but for the texts in it, which are the lists of their code points. Such a list reads as the text
again, and is the text again when it is joined with the empty text on either side. -/
theorem negate_negate_restores :
    (∀ v : Value, v.negate.negate = v.inCodePoints) ∧
    ∀ s : String,
      (text s).negate.negate.asText = s ∧
      (text s).negate.negate.join (text "") = text s ∧
      (text "").join (text s).negate.negate = text s := by
  refine ⟨negate_negate, fun s ↦ ?_⟩
  have htext : (text s).negate.negate = list ((codePoints s).map number) := negate_negate (text s)
  rw [htext]
  refine ⟨asText_codePoints s, ?_, ?_⟩
  · change text (asText _ ++ "") = text s
    rw [asText_codePoints, String.append_empty]
  · change text ("" ++ asText _) = text s
    rw [asText_codePoints, String.empty_append]

end Value

theorem Expression.run_evaluate_negate_negate {ρ : Type} [Chance ρ] {rules : Rules} {depth : Nat}
    {frames : List (List Expression)} {e : Expression} {v : Value} {t u : Table ρ}
    (h : (e.evaluate rules depth frames).run.run t = (.ok v, u)) (hv : v.isFinite = true) :
    ∃ trace, ((prefixed .negate (prefixed .negate e)).evaluate rules depth frames).run.run t
      = (.ok v.inCodePoints, { u with trace }) := by
  obtain ⟨trace, honce⟩ := run_evaluate_negate h hv
  obtain ⟨trace', htwice⟩ := run_evaluate_negate honce (Value.isFinite_negate hv)
  rw [Value.negate_negate] at htwice
  exact ⟨trace', htwice⟩

end DiceNotation
