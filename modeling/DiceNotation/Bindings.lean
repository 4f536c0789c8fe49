/-!
# Bindings

What names stand for, as a list with one entry for each name that stands for something.
-/

namespace DiceNotation

/-- What names stand for. -/
structure Bindings (α : Type) where
  entries : List (String × α)

namespace Bindings

variable {α : Type}

/-- No name stands for anything. -/
def empty : Bindings α := ⟨[]⟩

/-- What a name stands for. -/
def get? (b : Bindings α) (name : String) : Option α := b.entries.lookup name

/-- Lets a name stand for nothing. -/
def erase (b : Bindings α) (name : String) : Bindings α :=
  ⟨b.entries.filter fun (other, _) ↦ other ≠ name⟩

/-- Lets a name stand for something, whatever it stood for before. -/
def insert (b : Bindings α) (name : String) (a : α) : Bindings α :=
  ⟨(name, a) :: (b.erase name).entries⟩

@[simp] theorem get?_empty (name : String) : (empty : Bindings α).get? name = none := rfl

theorem get?_cons (key name : String) (a : α) (rest : List (String × α)) :
    get? ⟨(key, a) :: rest⟩ name = if name = key then some a else get? ⟨rest⟩ name := by
  by_cases h : name = key
  · simp [get?, h]
  · have hb : (name == key) = false := beq_eq_false_iff_ne.2 h
    simp [get?, List.lookup_cons, hb, h]

theorem get?_erase (b : Bindings α) (name other : String) :
    (b.erase name).get? other = if other = name then none else b.get? other := by
  obtain ⟨entries⟩ := b
  rw [erase]
  induction entries with
  | nil => simp [get?]
  | cons entry rest ih =>
    obtain ⟨key, a⟩ := entry
    by_cases hk : key = name
    · subst hk
      rw [List.filter_cons_of_neg (by simp), ih, get?_cons]
      split <;> rfl
    · rw [List.filter_cons_of_pos (by simpa using hk), get?_cons, get?_cons, ih]
      by_cases ho : other = key
      · subst ho
        simp [hk]
      · simp [ho]

theorem erase_of_get?_eq_none {b : Bindings α} {name : String} (h : b.get? name = none) :
    b.erase name = b := by
  refine congrArg mk (List.filter_eq_self.mpr fun entry hentry ↦ ?_)
  have hne : name ≠ entry.1 := bne_iff_ne.mp (List.lookup_eq_none_iff.mp h entry hentry)
  exact decide_eq_true (Ne.symm hne)

theorem get?_insert (b : Bindings α) (name other : String) (a : α) :
    (b.insert name a).get? other = if other = name then some a else b.get? other := by
  rw [insert, get?_cons]
  by_cases h : other = name
  · simp [h]
  · rw [if_neg h, if_neg h]
    exact (get?_erase b name other).trans (if_neg h)

end Bindings

end DiceNotation
