import DiceNotation.Proofs.ErrorPositions
import DiceNotation.Proofs.Joints

/-!
# Where tokens stand

A source that falls into tokens is nothing but these tokens and blanks. Each token is a piece of the
source at its own byte, whatever that byte is counted from, and the tokens follow one another: each
ends before the next one starts. What no token covers is a blank.

All of this is one statement about how the source is made up from its head to its end
(`FallsInto`), which has a constructor for everything that the scanner does: it is at the end, it
passes over a blank, or it takes a token off. That a token is not longer than what is left of the
source is known from the cut itself (`munch_append`), so that the scan goes on exactly behind it.
-/

namespace DiceNotation.Token

/-! ## Tokens and their bytes -/

/-- The byte behind a token. -/
def stop (t : Token) : Nat := t.position + byteLength t.lexeme

/-- The byte is one of the token. -/
def Covers (t : Token) (byte : Nat) : Prop := t.position ≤ byte ∧ byte < t.stop

theorem IsLexeme.ne_nil {kind : Kind} {text : List Char} (h : IsLexeme kind text) : text ≠ [] := by
  cases h with
  | number h =>
    obtain ⟨c, tail, rfl, -⟩ := h.exists_munch
    exact List.cons_ne_nil c tail
  | @operator s hs =>
    intro hnil
    exact (by decide : ∀ s ∈ operatorSymbols, s.toList ≠ []) s hs hnil
  | _ => exact List.cons_ne_nil _ _

theorem position_lt_stop {t : Token} (h : t.lexeme ≠ []) : t.position < t.stop := by
  obtain ⟨c, tail, hlexeme⟩ := List.exists_cons_of_ne_nil h
  have hpos := c.utf8Size_pos
  rw [stop, hlexeme, byteLength_cons]
  omega

/-! ## How a source is made up

By induction on what the scanner does, the tokens follow one another, and a character is a blank or
its first byte is one of a token. -/

/-- From a byte on, the source is made up of these tokens in this order, and of blanks. -/
inductive FallsInto : Nat → List Char → List Token → Prop
  | nil (position : Nat) : FallsInto position [] []
  | space {position : Nat} {c : Char} {rest : List Char} {tokens : List Token}
      (hc : isSpace c = true) (h : FallsInto (position + c.utf8Size) rest tokens) :
      FallsInto position (c :: rest) tokens
  | token {t : Token} {rest : List Char} {tokens : List Token} (ht : IsLexeme t.kind t.lexeme)
      (h : FallsInto t.stop rest tokens) :
      FallsInto t.position (t.lexeme ++ rest) (t :: tokens)

variable {source : List Char} {position : Nat} {tokens : List Token}

/-- The scanner takes a source apart into what it is made up of. -/
theorem fallsInto_of_scanFrom {skip : Nat} (h : scanFrom position skip source = .ok tokens)
    (hskip : skip ≤ source.length) :
    FallsInto (position + byteLength (source.take skip)) (source.drop skip) tokens := by
  induction source generalizing position skip tokens with
  | nil =>
    cases h
    rw [List.drop_nil]
    exact .nil _
  | cons c rest ih =>
    rcases skip with _ | skip
    · rw [scanFrom] at h
      split at h
      · next hc => exact .space hc (ih h (Nat.zero_le _))
      · split at h
        · cases h
        · next kind n hmunch =>
          split at h
          · cases h
          · next tokens hscan =>
            cases h
            obtain ⟨hle, -⟩ := munch_append hmunch
            have hrest := ih hscan hle
            rw [Nat.add_assoc] at hrest
            have htoken := @FallsInto.token ⟨kind, c :: rest.take n, position⟩ _ _
              (isLexeme_of_munch hmunch) hrest
            rw [List.cons_append, List.take_append_drop] at htoken
            exact htoken
    · rw [List.take_succ_cons, List.drop_succ_cons, add_byteLength_cons]
      exact ih h (Nat.le_of_succ_le_succ hskip)

theorem fallsInto_of_scan (h : scan position source = .ok tokens) :
    FallsInto position source tokens :=
  fallsInto_of_scanFrom h (Nat.zero_le _)

namespace FallsInto

theorem position_le (h : FallsInto position source tokens) :
    ∀ t ∈ tokens, position ≤ t.position := by
  induction h with
  | nil => exact fun t ht ↦ absurd ht List.not_mem_nil
  | space _ _ ih => exact fun t ht ↦ Nat.le_trans (Nat.le_add_right _ _) (ih t ht)
  | @token t rest tokens _ _ ih =>
    intro u hu
    rcases List.mem_cons.mp hu with rfl | hu
    · exact Nat.le_refl _
    · exact Nat.le_trans (Nat.le_add_right _ _) (ih u hu)

theorem pairwise (h : FallsInto position source tokens) :
    tokens.Pairwise fun t u ↦ t.position < u.position ∧ t.stop ≤ u.position := by
  induction h with
  | nil => exact .nil
  | space _ _ ih => exact ih
  | token ht h ih =>
    refine .cons (fun u hu ↦ ?_) ih
    have hstop := h.position_le u hu
    exact ⟨Nat.lt_of_lt_of_le (position_lt_stop ht.ne_nil) hstop, hstop⟩

theorem exists_covers_or_isSpace (h : FallsInto position source tokens)
    {before behind : List Char} {c : Char} (hsource : source = before ++ c :: behind) :
    (∃ t ∈ tokens, t.Covers (position + byteLength before)) ∨ isSpace c = true := by
  induction h generalizing before with
  | nil => exact absurd hsource (by simp)
  | @space position d rest tokens hd _ ih =>
    rcases before with _ | ⟨d', before⟩
    · obtain ⟨rfl, -⟩ := List.cons.inj hsource
      exact .inr hd
    · obtain ⟨rfl, hrest⟩ := List.cons.inj hsource
      rw [add_byteLength_cons]
      exact ih hrest
  | @token t rest tokens _ _ ih =>
    have hbehind (before' : List Char) (hbefore : before = t.lexeme ++ before')
        (hrest : rest = before' ++ c :: behind) :
        (∃ u ∈ t :: tokens, u.Covers (t.position + byteLength before)) ∨ isSpace c = true := by
      rw [hbefore, byteLength_append, ← Nat.add_assoc]
      exact (ih hrest).imp_left fun ⟨u, hu, hcovers⟩ ↦ ⟨u, List.mem_cons_of_mem t hu, hcovers⟩
    rcases List.append_eq_append_iff.mp hsource with ⟨before', hbefore, hrest⟩ | ⟨own, hown, hrest⟩
    · exact hbehind before' hbefore hrest
    -- The character is one of the token, unless the token ends before it.
    · rcases own with _ | ⟨c', own⟩
      · rw [List.append_nil] at hown
        exact hbehind [] (by rw [hown, List.append_nil]) hrest.symm
      · obtain ⟨rfl, -⟩ := List.cons.inj hrest
        have hpos := c.utf8Size_pos
        refine .inl ⟨t, List.mem_cons_self, Nat.le_add_right _ _, ?_⟩
        rw [stop, hown, byteLength_append, byteLength_cons]
        omega

end FallsInto

/-- **Nothing is lost in scanning.** The tokens of a source follow one another without overlapping.
Each is a piece of the source at its byte, not empty, and what the scanner takes for a token of its
kind. Whatever character is in none of them is a blank. -/
theorem scan_lossless {offset : Nat} (h : scan offset source = .ok tokens) :
    (tokens.Pairwise fun t u ↦ t.position < u.position ∧ t.stop ≤ u.position) ∧
    (∀ t ∈ tokens, t.lexeme ≠ [] ∧ IsLexeme t.kind t.lexeme ∧
      IsPart (t.lexeme, t.position) (source, offset)) ∧
    ∀ before c behind, source = before ++ c :: behind →
      (∃ t ∈ tokens, t.Covers (offset + byteLength before)) ∨
        c = ' ' ∨ c = '\t' ∨ c = '\r' ∨ c = '\n' := by
  have hfalls := fallsInto_of_scan h
  refine ⟨hfalls.pairwise, fun t ht ↦ ?_, fun before c behind hsource ↦ ?_⟩
  · have hlexeme := isLexeme_of_mem_scan h ht
    exact ⟨hlexeme.ne_nil, hlexeme, isPart_of_mem_scanFrom h ht⟩
  · refine (hfalls.exists_covers_or_isSpace hsource).imp_right fun hspace ↦ ?_
    simpa only [isSpace, Bool.or_eq_true, beq_iff_eq, or_assoc] using hspace

/-- Blanks of different kinds, and a text with a character of two bytes. -/
theorem scan_lossless_twoBytes :
    let source := " \"é\"+\td6".toList
    let tokens : List Token :=
      [⟨.text, "\"é\"".toList, 6⟩, ⟨.operator, ['+'], 10⟩, ⟨.operator, ['d'], 12⟩,
        ⟨.number, ['6'], 13⟩]
    scan 5 source = .ok tokens ∧
      (tokens.Pairwise fun t u ↦ t.position < u.position ∧ t.stop ≤ u.position) ∧
      (∀ t ∈ tokens, t.lexeme ≠ [] ∧ IsLexeme t.kind t.lexeme ∧
        IsPart (t.lexeme, t.position) (source, 5)) ∧
      ∀ before c behind, source = before ++ c :: behind →
        (∃ t ∈ tokens, t.Covers (5 + byteLength before)) ∨
          c = ' ' ∨ c = '\t' ∨ c = '\r' ∨ c = '\n' :=
  ⟨rfl, scan_lossless rfl⟩

end DiceNotation.Token
