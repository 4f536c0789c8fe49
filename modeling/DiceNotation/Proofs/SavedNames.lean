import DiceNotation.Chance.Script
import DiceNotation.Proofs.Layers
import DiceNotation.Proofs.OpenBrackets
import DiceNotation.Proofs.Rereading
import DiceNotation.Session

/-!
# Names that can be referred to

A function is saved under any name that is not blank, not that of a parameter and not built in. A
reference is more particular. It ends at the brace that closes it, its first comma ends the name,
and blanks at the ends of the name are dropped. So there are functions that are saved for nothing:
their names never come out of any source, neither by themselves nor with arguments.

Which names these are can be told from the name alone (`IsReferable`).
-/

namespace DiceNotation

-- A property of the first or last character is decided by looking at it, whatever is imported.
attribute [local instance (high)] Option.decidableForallMem

open Token Reading

/-! ## Braces of sources

A token closes its own braces and its quotations, and so does a source that falls into tokens. -/

namespace Token

theorem walk_braces_of_isLexeme {kind : Kind} {text : List Char} (h : IsLexeme kind text) :
    Scan.braces.walk (0, .outside) text = some (0, .outside) := by
  cases h with
  | number h => exact (passed_numeral h).braces
  | operator hs => exact (passed_symbol hs).braces
  | openParen | closeParen | openBracket | closeBracket | comma => rfl
  | text h => exact (Leads.quoted h).braces
  | reference h => exact Scan.walk_append (Scan.walk_braces_add h 1)

theorem walk_braces_of_scanFrom {source : List Char} {position skip : Nat} {tokens : List Token}
    (h : scanFrom position skip source = .ok tokens) :
    Scan.braces.walk (0, .outside) (source.drop skip) = some (0, .outside) := by
  -- Behind the first character of a token the scanner skips the rest of it, and so does the walk.
  induction source generalizing position skip tokens with
  | nil =>
    rw [List.drop_nil]
    rfl
  | cons c rest ih =>
    cases skip with
    | succ skip => exact ih h
    | zero =>
      rw [scanFrom] at h
      split at h
      · next hspace =>
        have hc : Passed 0 [c] := passed_of_isSpace hspace
        exact (Scan.walk_append hc.braces).trans (ih h)
      · split at h
        · cases h
        · next kind n hmunch =>
          split at h
          · cases h
          · next more hmore =>
            have hlexeme := walk_braces_of_isLexeme (isLexeme_of_munch hmunch)
            have hsource := (Scan.walk_append hlexeme).trans (ih hmore)
            rwa [List.cons_append, List.take_append_drop] at hsource

end Token

theorem Expression.walk_braces_of_readAt {offset : Nat} {source : List Char} {e : Expression}
    (h : readAt offset source = .ok e) :
    Scan.braces.walk (0, .outside) source = some (0, .outside) := by
  obtain ⟨tokens, hscan, -⟩ := readAt_eq_ok_iff.mp h
  exact walk_braces_of_scanFrom hscan

/-! ## Names of references

Both scans of a reference go over such a name, and a reference without arguments falls apart into
such a name and nothing else. -/

/-- A name that a reference can have. There are no blanks at its ends. Outside quoted text, it
closes the braces that it opens and no others, and its quoted texts end. A comma stands in quoted
text or where brackets are open, of whichever kind; for this, closing ones too many do not count. -/
structure IsReferable (name : List Char) : Prop where
  trimmed : Blank.Trimmed name
  braces : ClosesItsOwn ['\x7b'] ['\x7d'] name
  commas : ∀ before rest, name = before ++ ',' :: rest → openBrackets? before ≠ some 0

theorem isReferable_iff {name : List Char} : IsReferable name ↔
    Blank.Trimmed name ∧ Scan.braces.walk (0, .outside) name = some (0, .outside) ∧
      (Scan.commas.walk (0, .outside) name).isSome = true := by
  rw [Scan.countsUp_braces.walk_eq_some_iff Scan.ignoresQuotes_braces,
    Scan.isSome_walk_commas_iff]
  exact ⟨fun ⟨htrimmed, hbraces, hcommas⟩ ↦ ⟨htrimmed, hbraces, hcommas⟩,
    fun ⟨htrimmed, hbraces, hcommas⟩ ↦ ⟨htrimmed, hbraces, hcommas⟩⟩

instance (text : List Char) : Decidable (Blank.Trimmed text) :=
  decidable_of_iff ((∀ c ∈ text.head?, Blank.isBlank c = false) ∧
      ∀ c ∈ text.getLast?, Blank.isBlank c = false)
    ⟨fun ⟨hhead, hlast⟩ ↦ ⟨hhead, hlast⟩, fun ⟨hhead, hlast⟩ ↦ ⟨hhead, hlast⟩⟩

instance (name : List Char) : Decidable (IsReferable name) :=
  decidable_of_iff' _ isReferable_iff

theorem isReference_nil_iff {name : List Char} (hne : name ≠ []) :
    IsReference name [] ↔ IsReferable name := by
  rw [isReferable_iff]
  constructor
  · intro h
    have hdivide := h.divide_eq
    rw [argumentText, List.flatMap_nil, List.append_nil] at hdivide
    obtain ⟨-, behind, hcommas, -⟩ := exists_walk_of_divide (0, .outside) name
    rw [hdivide] at hcommas
    exact ⟨h.trim_eq ▸ Blank.trimmed_trim name, h.braces, hcommas ▸ rfl⟩
  · rintro ⟨htrimmed, hbraces, hwalks⟩
    obtain ⟨behind, hcommas⟩ := Option.isSome_iff_exists.mp hwalks
    refine ⟨hne, htrimmed.trim_eq, hbraces, by simp, ?_⟩
    exact (divide_of_walk hcommas []).trans (by simp [divide])

theorem Token.isReferable_name {t : Token} (hk : t.kind = .reference)
    (ht : IsLexeme t.kind t.lexeme)
    (hargs : ∀ a ∈ t.arguments, Scan.braces.walk (0, .outside) a.1 = some (0, .outside)) :
    IsReferable t.name := by
  obtain ⟨-, behind, hcommas, -⟩ := exists_walk_of_divide (0, .outside) t.inner
  obtain ⟨behind', hname, -⟩ := Scan.exists_walk_trim (fun _ ↦ Blank.ignores_commas) hcommas
  refine isReferable_iff.mpr ⟨Blank.trimmed_trim _, ?_, by rw [Token.name, hname]; rfl⟩
  exact walk_braces_name (walk_braces_inner hk ht) (forall_mem_divide hargs)

namespace Expression

/-- The expression does not refer to a name that no reference can have. -/
def RefersReferably (e : Expression) : Prop :=
  ∀ name, e.name? = some name → IsReferable name.toList

theorem aboutOperands_refersReferably : AboutOperands RefersReferably where
  list _ := by rintro name ⟨⟩
  prefixed _ _ := by rintro name ⟨⟩
  binary _ _ _ := by rintro name ⟨⟩
  postfixed _ _ := by rintro name ⟨⟩

/-- **No other name is ever read**, with arguments or without. -/
theorem refersReferably_of_readAt {offset : Nat} {source : List Char} {e : Expression}
    (h : readAt offset source = .ok e) : e.Everywhere RefersReferably := by
  refine readAt_induction (motive := fun _ _ e ↦ e.Everywhere RefersReferably) ?_ h
  intro offset source tokens e hscan ih hreads
  refine (hreads.everywhere_iff aboutOperands_refersReferably).mpr fun t ht e he ↦ ?_
  have hlexeme := isLexeme_of_mem_scan hscan ht
  have hname (hk : t.kind = .reference) : IsReferable (String.ofList t.name).toList := by
    rw [String.toList_ofList]
    refine isReferable_name hk hlexeme fun a ha ↦ ?_
    obtain ⟨e', -, hread⟩ := he.exists_mem_children hk ha
    exact walk_braces_of_readAt hread
  cases he with
  | number | text => exact .of_children_eq_nil (by rintro name ⟨⟩) rfl
  | reference hk =>
    refine .of_children_eq_nil ?_ rfl
    rintro _ ⟨⟩
    exact hname hk
  | call hk _ _ hes =>
    refine everywhere_iff.mpr ⟨?_, fun c hc ↦ ?_⟩
    · rintro _ ⟨⟩
      exact hname hk
    · obtain ⟨a, ha, hread⟩ := exists_of_mem_of_forall₂ hes.flip hc
      exact ih t ht a ha c hread

/-- A name in braces is read as the reference to it exactly if a reference can have the name. -/
theorem read_braced_iff {name : String} (hne : name.toList ≠ []) :
    read ("\x7b" ++ name ++ "\x7d") = .ok (.reference name) ↔ IsReferable name.toList := by
  constructor
  · intro h
    exact (refersReferably_of_readAt h).self name rfl
  · intro h
    have hspells := @spells_reference name.toList [] ((isReference_nil_iff hne).mpr h)
      fun a ha ↦ absurd ha List.not_mem_nil
    rw [String.ofList_toList] at hspells
    rw [read, String.toList_append, String.toList_append]
    simpa [argumentText, referenceTo] using hspells.readAt_eq 0

-- Blanks inside a name are kept, and so are commas in brackets and braces in quoted text.
example : read ("\x7b" ++ "hit (1, 2)" ++ "\x7d") = .ok (.reference "hit (1, 2)") :=
  (read_braced_iff (by decide)).mpr (by decide)

example : ∀ name ∈ [" x", "a,1", "\x7d", "\x7b", "\""], ¬ IsReferable name.toList := by
  decide

end Expression

/-! ## Saved functions -/

namespace Session

variable {ρ : Type}

/-- A function is saved if its source can be read and its name can be assigned. -/
theorem save_eq_ok_iff {s s' : Session ρ} {name source : String} :
    s.save name source = (.ok (), s') ↔
      ∃ e, Expression.read source = .ok e ∧ Store.checkAssignable name = .ok () ∧
        s' = { s with store := { s.store with saved := s.store.saved.insert name e } } := by
  rw [save]
  rcases Expression.read source with error | e
  · simp
  · dsimp only
    rcases hname : Store.checkAssignable name with error | ⟨⟩
    · simp [change_of_run_eq (Store.run_save_of_error s.store e hname)]
    · simp [change_of_run_eq (Store.run_save_of_ok s.store e hname), eq_comm]

/-- **What can be saved can be used, if a reference can have its name.** Behind a function that has
been saved, the name in braces is read as the reference to that name exactly if it is such a name,
and no source whatever refers to the name if it is not. The name stands for the function, unless a
variable has the same name. -/
theorem read_braced_iff_of_save {s s' : Session ρ} {name source : String}
    (h : s.save name source = (.ok (), s')) :
    (Expression.read ("\x7b" ++ name ++ "\x7d") = .ok (.reference name) ↔
        IsReferable name.toList) ∧
      (¬ IsReferable name.toList → ∀ other e, Expression.read other = .ok e →
        e.Everywhere fun x ↦ x.name? ≠ some name) ∧
      ∃ e, Expression.read source = .ok e ∧ parameter? name = none ∧
        Store.resolve s'.store.saved s'.store.locals name
          = .ok ((s'.store.locals.get? name).getD e) := by
  obtain ⟨e, hread, hassignable, rfl⟩ := save_eq_ok_iff.mp h
  obtain ⟨hblank, hparameter, hbuiltIn⟩ := Store.checkAssignable_eq_ok_iff.mp hassignable
  have hne : name.toList ≠ [] := fun hnil ↦ hblank (by rw [hnil]; rfl)
  refine ⟨Expression.read_braced_iff hne, fun hname other e hother x hx hrefers ↦ ?_,
    e, hread, hparameter, ?_⟩
  · exact hname (Expression.refersReferably_of_readAt hother x hx name hrefers)
  · rw [Store.resolve, hbuiltIn, Bindings.get?_insert, if_pos rfl]
    rcases s.store.locals.get? name with _ | body
    · rfl
    · rfl

/-- Blanks inside a name and commas in its brackets are no hindrance. -/
theorem read_braced_iff_of_save_brackets :
    let s : Session Script := .start (.ofFaces [1]) 10
    let name := "hit (1, 2)"
    ∃ s', s.save name "3" = (.ok (), s') ∧
      (Expression.read ("\x7b" ++ name ++ "\x7d") = .ok (.reference name) ↔
        IsReferable name.toList) ∧
      (¬ IsReferable name.toList → ∀ other e, Expression.read other = .ok e →
        e.Everywhere fun x ↦ x.name? ≠ some name) ∧
      ∃ e, Expression.read "3" = .ok e ∧ parameter? name = none ∧
        Store.resolve s'.store.saved s'.store.locals name
          = .ok ((s'.store.locals.get? name).getD e) := by
  intro s name
  have hread : Expression.read "3" = .ok (.literal (.ofNat 3)) := by
    rw [Expression.read, Expression.readAt_eq]
    rfl
  have h : s.save name "3" = (.ok (), _) := save_eq_ok_iff.mpr ⟨_, hread, by decide, rfl⟩
  exact ⟨_, h, read_braced_iff_of_save h⟩

/-- A function is saved under a name with a comma, and the name in braces is read as a call. -/
theorem save_comma :
    let s : Session Script := .start (.ofFaces [1]) 10
    (∃ s', s.save "a,1" "2" = (.ok (), s')) ∧
      Expression.read ("\x7b" ++ "a,1" ++ "\x7d") = .ok (.call "a" [.literal (.ofNat 1)]) := by
  intro s
  have hread : Expression.read "2" = .ok (.literal (.ofNat 2)) := by
    rw [Expression.read, Expression.readAt_eq]
    rfl
  have hargument : Expression.readAt 3 "1".toList = .ok (.literal (.ofNat 1)) := by
    rw [Expression.readAt_eq]
    rfl
  have harguments : (Token.mk .reference "\x7ba,1\x7d".toList 0).arguments
      = [("1".toList, 3)] := rfl
  refine ⟨⟨_, save_eq_ok_iff.mpr ⟨_, hread, by decide, rfl⟩⟩, ?_⟩
  refine (Expression.readAt_eq_operand (t := ⟨.reference, "\x7ba,1\x7d".toList, 0⟩)
    rfl rfl).trans ?_
  rw [Token.term, harguments, List.map_singleton, hargument]
  rfl

end Session

end DiceNotation
