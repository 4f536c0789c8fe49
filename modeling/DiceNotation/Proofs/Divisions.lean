import DiceNotation.Proofs.Arguments
import DiceNotation.Proofs.OpenBrackets

/-!
# The parts of references

A reference falls apart at commas, but not at all that are in it. The commas that divide are those
outside quoted text where no bracket is open, with a closing bracket too many not counted, and
nothing is lost between the parts (`Token.isDivision_pieces`).

Division goes on behind its commas, and so does the scan that is followed here (`Scan.pass`). So a
text can be cut in two at any place, and the rest is divided from where the place stands
(`Token.parts_append`). At a comma that divides, the parts of the two halves are the parts of the
whole; and where they are, the comma stands outside of everything.
-/

namespace DiceNotation

namespace Token

variable {start : Nat × Quotation} {text : List Char}

/-! ## Parts and places

The first part of a reference has its name, and the others are the sources of its arguments. A text
is divided at a comma that stands outside of everything, and the place behind the comma stands there
as well. -/

/-- Where the place behind a text stands when the text is divided: how many brackets are open, and
how it stands to quoted text. -/
def standing (text : List Char) : Nat × Quotation := text.foldl Scan.commas.pass (0, .outside)

theorem standing_eq_outside_iff {depth : Nat} :
    standing text = (depth, .outside) ↔ openBrackets? text = some depth :=
  Scan.foldl_pass_commas_eq_iff

/-- The parts of a text, from the first to the last, if some brackets are open before it. -/
def parts (start : Nat × Quotation) (text : List Char) : List (List Char) :=
  (divide start.1 start.2 text).1 :: (divide start.1 start.2 text).2

theorem parts_ne_nil (start : Nat × Quotation) (text : List Char) : parts start text ≠ [] :=
  List.cons_ne_nil _ _

/-- The parts of a text, each with its first byte, for a text that starts at byte `offset`. -/
def pieces (offset : Nat) (text : List Char) : List (List Char × Nat) :=
  located offset (parts (0, .outside) text)

theorem name_eq_trim (t : Token) :
    some t.name = (pieces (t.position + 1) t.inner).head?.map fun piece ↦ Blank.trim piece.1 := rfl

theorem arguments_eq_tail (t : Token) :
    t.arguments = (pieces (t.position + 1) t.inner).tail := rfl

theorem parts_cons (start : Nat × Quotation) (c : Char) (rest : List Char) :
    parts start (c :: rest)
      = if start = (0, .outside) ∧ c = ',' then [] :: parts start rest
        else (parts (Scan.commas.pass start c) rest).modifyHead (c :: ·) := by
  obtain ⟨depth, quotation⟩ := start
  rw [parts, divide_cons]
  cases hnext : Scan.commas.step (depth, quotation) c with
  | none =>
    obtain ⟨rfl, hstops⟩ := Scan.eq_outside_of_step hnext
    obtain ⟨rfl, rfl⟩ : depth = 0 ∧ c = ',' := by simpa [Scan.commas] using hstops
    rfl
  | some next =>
    have hgoes : ¬((depth, quotation) = (0, .outside) ∧ c = ',') := by
      rintro ⟨heq, rfl⟩
      cases heq
      exact absurd (Scan.step_outside_eq_some_iff.mp hnext).1 (by decide)
    rw [if_neg hgoes, Scan.pass_of_step hnext]
    rfl

theorem pass_comma : Scan.commas.pass (0, .outside) ',' = (0, .outside) := rfl

/-! ## Division in two halves

The last part of the first half goes on with the first part of the second half, unless the second
half starts with a part of its own. So behind some of the parts, but not all of them, a text stands
outside of everything. -/

/-- The parts of two halves of a text, of which the last of the first half goes on with the first of
the second half. -/
def glued : List (List Char) → List (List Char) → List (List Char)
  | [], right => right
  | [part], right => right.modifyHead (part ++ ·)
  | part :: next :: left, right => part :: glued (next :: left) right

theorem glued_cons {left : List (List Char)} (h : left ≠ []) (part : List Char)
    (right : List (List Char)) : glued (part :: left) right = part :: glued left right := by
  obtain ⟨next, left, rfl⟩ := List.exists_cons_of_ne_nil h
  rfl

theorem glued_modifyHead (c : Char) (part : List Char) (left : List (List Char))
    {right : List (List Char)} (h : right ≠ []) :
    glued ((c :: part) :: left) right = (glued (part :: left) right).modifyHead (c :: ·) := by
  obtain ⟨first, right, rfl⟩ := List.exists_cons_of_ne_nil h
  cases left <;> rfl

theorem glued_nil_cons {left : List (List Char)} (h : left ≠ []) (right : List (List Char)) :
    glued left ([] :: right) = left ++ right := by
  induction left with
  | nil => exact absurd rfl h
  | cons part left ih =>
    cases left with
    | nil => exact congrArg (· :: right) (List.append_nil part)
    | cons next left =>
      rewrite [glued_cons (List.cons_ne_nil _ _), ih (List.cons_ne_nil _ _)]
      rfl

/-- **Division in two halves.** The rest of a text is divided from where the place before it
stands. -/
theorem parts_append (start : Nat × Quotation) (text rest : List Char) :
    parts start (text ++ rest)
      = glued (parts start text) (parts (text.foldl Scan.commas.pass start) rest) := by
  induction text generalizing start with
  | nil => rfl
  | cons c text ih =>
    rw [List.cons_append, parts_cons, parts_cons, List.foldl_cons]
    split
    · next hcomma =>
      obtain ⟨rfl, rfl⟩ := hcomma
      rw [ih, glued_cons (parts_ne_nil _ _), pass_comma]
    · rw [ih]
      exact (glued_modifyHead c _ _ (parts_ne_nil _ _)).symm

theorem parts_append_comma (h : text.foldl Scan.commas.pass start = (0, .outside))
    (rest : List Char) :
    parts start (text ++ ',' :: rest) = parts start text ++ parts (0, .outside) rest := by
  rw [parts_append, h, parts_cons, if_pos ⟨rfl, rfl⟩]
  exact glued_nil_cons (parts_ne_nil _ _) _

theorem foldl_pass_intercalate {left right : List (List Char)} (hleft : left ≠ [])
    (hright : right ≠ []) (h : parts start text = left ++ right) :
    ([','].intercalate left).foldl Scan.commas.pass start = (0, .outside) := by
  induction text generalizing start left with
  | nil =>
    have hlength : 1 = left.length + right.length := by
      rw [← List.length_append, ← h]
      rfl
    have hleft := List.length_pos_iff.mpr hleft
    have hright := List.length_pos_iff.mpr hright
    omega
  | cons c text ih =>
    obtain ⟨part, left, rfl⟩ := List.exists_cons_of_ne_nil hleft
    rw [parts_cons] at h
    split at h
    · next hcomma =>
      obtain ⟨rfl, rfl⟩ := hcomma
      obtain ⟨rfl, htail⟩ := List.cons.inj h
      cases left with
      | nil => rfl
      | cons next left =>
        rw [List.intercalate_cons_cons]
        exact ih (List.cons_ne_nil next left) htail
    · -- The first part has the character at its head, and the others are those of the rest.
      obtain ⟨rfl, htail⟩ := List.cons.inj h
      have hparts : parts (Scan.commas.pass start c) text
          = ((divide (Scan.commas.pass start c).1 (Scan.commas.pass start c).2 text).1 :: left)
            ++ right := congrArg (_ :: ·) htail
      have hrest := ih (List.cons_ne_nil _ _) hparts
      rw [intercalate_comma] at hrest ⊢
      exact hrest

/-! ## Nothing is lost -/

theorem intercalate_append_cons (left : List (List Char)) (part : List Char)
    (right : List (List Char)) :
    [','].intercalate (left ++ part :: right)
      = left.flatMap (· ++ [',']) ++ (part ++ argumentText right) := by
  induction left with
  | nil => exact intercalate_comma part right
  | cons first left ih =>
    rw [List.cons_append, List.intercalate_cons_of_ne_nil (by simp), ih, List.flatMap_cons]
    simp only [List.append_assoc]

theorem located_append (position : Nat) (left right : List (List Char)) :
    located position (left ++ right)
      = located position left
        ++ located (position + byteLength (left.flatMap (· ++ [',']))) right := by
  induction left generalizing position with
  | nil => rfl
  | cons part left ih =>
    have hcomma : byteLength [','] = 1 := by decide
    rw [List.cons_append, located, ih, located, List.cons_append, List.flatMap_cons,
      byteLength_append, byteLength_append, hcomma, ← Nat.add_assoc, ← Nat.add_assoc]

/-- Parts of a text that starts at byte `offset`, each with its first byte, into which the text
falls at those of its commas that stand outside quoted text and outside brackets. -/
structure IsDivision (offset : Nat) (text : List Char) (pieces : List (List Char × Nat)) :
    Prop where
  ne_nil : pieces ≠ []
  /-- With commas between them, the parts are the text. -/
  joined : [','].intercalate (pieces.map Prod.fst) = text
  /-- A part stands at its byte, behind the parts before it, each with its comma. -/
  starts : ∀ left piece right, pieces = left ++ piece :: right →
    ∃ behind, text = left.flatMap (·.1 ++ [',']) ++ (piece.1 ++ behind) ∧
      piece.2 = offset + byteLength (left.flatMap (·.1 ++ [',']))
  /-- A comma of the text stands between two of the parts where it stands outside quoted text and no
  bracket is open, and only there. -/
  cuts : ∀ before behind, text = before ++ ',' :: behind →
    ((∃ left right, left ≠ [] ∧ right ≠ [] ∧ pieces.map Prod.fst = left ++ right ∧
        [','].intercalate left = before ∧ [','].intercalate right = behind) ↔
      openBrackets? before = some 0)

theorem map_fst_pieces (offset : Nat) (text : List Char) :
    (pieces offset text).map Prod.fst = parts (0, .outside) text :=
  map_fst_located _ _

theorem intercalate_parts (start : Nat × Quotation) (text : List Char) :
    [','].intercalate (parts start text) = text := by
  rw [parts, intercalate_comma]
  exact (exists_walk_of_divide start text).1.symm

/-- **The parts of references.** Division loses nothing: the parts with commas between them are the
text, each stands at its byte, and the commas between them are those outside quoted text and outside
brackets. -/
theorem isDivision_pieces (offset : Nat) (text : List Char) :
    IsDivision offset text (pieces offset text) where
  ne_nil := List.cons_ne_nil _ _
  joined := by rw [map_fst_pieces, intercalate_parts]
  starts left piece right h := by
    have hparts : parts (0, .outside) text
        = left.map Prod.fst ++ piece.1 :: right.map Prod.fst := by
      rw [← map_fst_pieces offset, h, List.map_append, List.map_cons]
    have hbefore : (left.map Prod.fst).flatMap (· ++ [','])
        = left.flatMap (·.1 ++ [',']) := List.flatMap_map ..
    refine ⟨argumentText (right.map Prod.fst), ?_, ?_⟩
    · rw [← hbefore, ← intercalate_append_cons, ← hparts, intercalate_parts]
    · rw [pieces, hparts, located_append, hbefore] at h
      have hlength : (located offset (left.map Prod.fst)).length = left.length := by
        rw [← List.length_map Prod.fst, map_fst_located, List.length_map]
      obtain ⟨-, hpiece⟩ := List.append_inj h hlength
      exact (congrArg Prod.snd (List.cons.inj hpiece).1).symm
  cuts before behind h := by
    rw [map_fst_pieces, ← standing_eq_outside_iff]
    constructor
    · rintro ⟨left, right, hleft, hright, hparts, rfl, -⟩
      exact foldl_pass_intercalate hleft hright hparts
    · intro hstanding
      refine ⟨parts (0, .outside) before, parts (0, .outside) behind, parts_ne_nil _ _,
        parts_ne_nil _ _, ?_, intercalate_parts _ _, intercalate_parts _ _⟩
      rw [h]
      exact parts_append_comma hstanding behind

/-- A closing bracket too many hides no comma, and one that stays open hides all that follow. -/
example : pieces 0 "a),b(,\",\"".toList = [("a)".toList, 0), ("b(,\",\"".toList, 3)] := rfl

end Token

end DiceNotation
