import DiceNotation.Trace

/-!
# Steps by priority

The steps of a trace are grouped one after another. The text of a step goes to the group of its
priority, which is made if there is none yet, and in the end the groups are sorted. The groups are a
stable partition of the steps (`Trace.byLevel_partitions`), and the only one with the tightest
priority first (`Trace.IsPartition.unique`).

Each step keeps that there is one group for each priority that has occurred, with the texts of this
priority (`Trace.IsGrouping`). Nothing is said there about the order of the groups, so it goes
through the sorting as well, and the order comes last.
-/

namespace DiceNotation.Trace

-- Sums of numbers start from the literal zero, whatever is imported.
attribute [local instance (high)] Zero.ofOfNat0

variable {steps : List Step} {levels : List (Priority × List String)}

/-- The texts of the steps of one priority, in the order of the steps. -/
def textsOf (steps : List Step) (p : Priority) : List String :=
  (steps.filter (·.priority = p)).map (·.text)

theorem textsOf_append_singleton (steps : List Step) (step : Step) (p : Priority) :
    textsOf (steps ++ [step]) p
      = textsOf steps p ++ if step.priority = p then [step.text] else [] := by
  rw [textsOf, List.filter_append, List.map_append]
  by_cases h : step.priority = p
  · simp [textsOf, h]
  · simp [textsOf, h]

theorem textsOf_ne_nil_iff {p : Priority} :
    textsOf steps p ≠ [] ↔ p ∈ steps.map Step.priority := by
  simp [textsOf, List.filter_eq_nil_iff]

/-- There is one group for each priority of a step, and it has the texts of this priority. -/
structure IsGrouping (steps : List Step) (levels : List (Priority × List String)) : Prop where
  nodup : (levels.map Prod.fst).Nodup
  mem_iff : ∀ p, p ∈ levels.map Prod.fst ↔ p ∈ steps.map Step.priority
  texts_eq : ∀ level ∈ levels, level.2 = textsOf steps level.1

/-- The groups are those of a stable partition by priority, with the tightest priority first: each
priority that a step has makes one group, and the group has the texts of its priority in the order
of the steps. -/
structure IsPartition (steps : List Step) (levels : List (Priority × List String)) : Prop where
  descending : levels.Pairwise fun level level' ↦ level'.1 < level.1
  ne_nil : ∀ level ∈ levels, level.2 ≠ []
  mem_iff : ∀ p, p ∈ levels.map Prod.fst ↔ p ∈ steps.map Step.priority
  texts_eq : ∀ level ∈ levels, level.2 = textsOf steps level.1

/-! ## One more step

A group is as it was, or it is the one of the step, with one more text. What one step keeps, all
steps keep; and as the order of the groups has no part in it, they are a partition when they have
been sorted. -/

theorem map_fst_enter (levels : List (Priority × List String)) (step : Step) :
    (enter levels step).map Prod.fst
      = if step.priority ∈ levels.map Prod.fst then levels.map Prod.fst
        else levels.map Prod.fst ++ [step.priority] := by
  induction levels with
  | nil => rfl
  | cons level rest ih =>
    obtain ⟨p, texts⟩ := level
    rw [enter]
    by_cases hp : p = step.priority
    · simp [hp]
    · rw [if_neg hp, List.map_cons, ih, List.map_cons]
      simp only [List.mem_cons, Ne.symm hp, false_or]
      split <;> rfl

theorem mem_enter {level : Priority × List String} {step : Step}
    (hnodup : (levels.map Prod.fst).Nodup) (h : level ∈ enter levels step) :
    (level ∈ levels ∧ level.1 ≠ step.priority) ∨
      ∃ texts, level = (step.priority, texts ++ [step.text]) ∧
        ((step.priority, texts) ∈ levels ∨ (step.priority ∉ levels.map Prod.fst ∧ texts = [])) := by
  induction levels with
  | nil => exact .inr ⟨[], List.mem_singleton.mp h, .inr ⟨List.not_mem_nil, rfl⟩⟩
  | cons first rest ih =>
    obtain ⟨p, texts⟩ := first
    rw [List.map_cons, List.nodup_cons] at hnodup
    rw [enter] at h
    by_cases hp : p = step.priority
    · rw [if_pos hp] at h
      rcases List.mem_cons.mp h with rfl | hrest
      · exact .inr ⟨texts, by rw [hp], .inl (by rw [← hp]; exact List.mem_cons_self)⟩
      · refine .inl ⟨List.mem_cons_of_mem _ hrest, fun hlevel ↦ hnodup.1 ?_⟩
        exact List.mem_map.mpr ⟨level, hrest, hlevel.trans hp.symm⟩
    · rw [if_neg hp] at h
      rcases List.mem_cons.mp h with rfl | hrest
      · exact .inl ⟨List.mem_cons_self, hp⟩
      · rcases ih hnodup.2 hrest with ⟨hmem, hne⟩ | ⟨before, hlevel, hmem | ⟨hnone, hbefore⟩⟩
        · exact .inl ⟨List.mem_cons_of_mem _ hmem, hne⟩
        · exact .inr ⟨before, hlevel, .inl (List.mem_cons_of_mem _ hmem)⟩
        · refine .inr ⟨before, hlevel, .inr ⟨?_, hbefore⟩⟩
          rw [List.map_cons, List.mem_cons, not_or]
          exact ⟨Ne.symm hp, hnone⟩

theorem sum_length_enter (levels : List (Priority × List String)) (step : Step) :
    ((enter levels step).map (·.2.length)).sum = (levels.map (·.2.length)).sum + 1 := by
  induction levels with
  | nil => rfl
  | cons level rest ih =>
    obtain ⟨p, texts⟩ := level
    rw [enter]
    split
    · simp only [List.map_cons, List.sum_cons, List.length_append, List.length_singleton]
      omega
    · simp only [List.map_cons, List.sum_cons, ih]
      omega

namespace IsGrouping

theorem enter (h : IsGrouping steps levels) (step : Step) :
    IsGrouping (steps ++ [step]) (Trace.enter levels step) where
  nodup := by
    rw [map_fst_enter]
    split
    · exact h.nodup
    · next hnew =>
      refine List.nodup_append.mpr ⟨h.nodup, List.pairwise_singleton _ _, ?_⟩
      rintro p hp q hq rfl
      rw [List.mem_singleton.mp hq] at hp
      exact hnew hp
  mem_iff p := by
    rw [map_fst_enter, List.map_append, List.mem_append, ← h.mem_iff]
    split
    · next hold =>
      refine ⟨.inl, fun hp ↦ hp.elim id fun hp ↦ ?_⟩
      rw [List.map_singleton, List.mem_singleton] at hp
      rwa [hp]
    · rw [List.mem_append, List.map_singleton]
  texts_eq level hlevel := by
    rw [textsOf_append_singleton]
    rcases mem_enter h.nodup hlevel with ⟨hmem, hne⟩ | ⟨texts, rfl, hmem⟩
    · rw [if_neg (Ne.symm hne), List.append_nil]
      exact h.texts_eq level hmem
    · rw [if_pos rfl]
      refine congrArg (· ++ [step.text]) ?_
      rcases hmem with hmem | ⟨hnew, rfl⟩
      · exact h.texts_eq _ hmem
      · -- No step before this one has its priority.
        rw [h.mem_iff, ← textsOf_ne_nil_iff, Decidable.not_not] at hnew
        exact hnew.symm

theorem foldl_enter (h : IsGrouping steps levels) (more : List Step) :
    IsGrouping (steps ++ more) (more.foldl Trace.enter levels) := by
  induction more generalizing steps levels with
  | nil =>
    rw [List.append_nil]
    exact h
  | cons step more ih =>
    rw [List.append_cons]
    exact ih (h.enter step)

theorem of_perm {levels' : List (Priority × List String)} (h : IsGrouping steps levels)
    (hperm : levels'.Perm levels) : IsGrouping steps levels' where
  nodup := (hperm.map Prod.fst).nodup_iff.mpr h.nodup
  mem_iff p := (hperm.map Prod.fst).mem_iff.trans (h.mem_iff p)
  texts_eq level hlevel := h.texts_eq level (hperm.mem_iff.mp hlevel)

/-- Groups in descending order are a partition. -/
theorem isPartition (h : IsGrouping steps levels)
    (hsorted : levels.Pairwise fun level level' ↦ level'.1 ≤ level.1) :
    IsPartition steps levels where
  descending := by
    have hdistinct : levels.Pairwise fun level level' ↦ level.1 ≠ level'.1 :=
      List.pairwise_map.mp h.nodup
    refine (hsorted.and hdistinct).imp fun {level level'} hlevels ↦ ?_
    exact Nat.lt_of_le_of_ne hlevels.1 fun heq ↦ hlevels.2 (Priority.level_injective heq).symm
  ne_nil level hlevel := by
    rw [h.texts_eq level hlevel, textsOf_ne_nil_iff, ← h.mem_iff]
    exact List.mem_map_of_mem hlevel
  mem_iff := h.mem_iff
  texts_eq := h.texts_eq

end IsGrouping

/-! ## All steps -/

theorem isGrouping_nil : IsGrouping [] [] where
  nodup := List.nodup_nil
  mem_iff _ := .rfl
  texts_eq _ hlevel := absurd hlevel List.not_mem_nil

theorem isGrouping_foldl_enter (steps : List Step) : IsGrouping steps (steps.foldl enter []) :=
  isGrouping_nil.foldl_enter steps

theorem sum_length_foldl_enter (steps : List Step) (levels : List (Priority × List String)) :
    ((steps.foldl enter levels).map (·.2.length)).sum
      = (levels.map (·.2.length)).sum + steps.length := by
  induction steps generalizing levels with
  | nil => rfl
  | cons step steps ih =>
    rw [List.foldl_cons, ih, sum_length_enter, List.length_cons]
    omega

theorem byLevel_perm (t : Trace) : t.byLevel.Perm (t.toList.foldl enter []) :=
  List.mergeSort_perm _ _

theorem pairwise_byLevel (t : Trace) :
    t.byLevel.Pairwise fun level level' ↦ level'.1 ≤ level.1 := by
  refine (List.pairwise_mergeSort ?_ ?_ (t.toList.foldl enter [])).imp of_decide_eq_true
  · intro level level' level'' h h'
    exact decide_eq_true (Nat.le_trans (of_decide_eq_true h') (of_decide_eq_true h))
  · intro level level'
    rw [← Bool.decide_or, decide_eq_true_eq]
    exact Nat.le_total _ _

theorem isPartition_byLevel (t : Trace) : IsPartition t.toList t.byLevel :=
  ((isGrouping_foldl_enter t.toList).of_perm t.byLevel_perm).isPartition t.pairwise_byLevel

/-- **Steps by priority.** The groups are a stable partition of the steps, with the tightest
priority first, and together they have as many texts as there are steps. -/
theorem byLevel_partitions (t : Trace) :
    IsPartition t.toList t.byLevel ∧ (t.byLevel.map (·.2.length)).sum = t.size := by
  refine ⟨t.isPartition_byLevel, ?_⟩
  rw [(t.byLevel_perm.map (·.2.length)).sum_nat, sum_length_foldl_enter]
  exact Nat.zero_add _

/-! ## The only partition -/

namespace IsPartition

theorem mem_levels_iff (h : IsPartition steps levels) {level : Priority × List String} :
    level ∈ levels ↔
      level.1 ∈ steps.map Step.priority ∧ level.2 = textsOf steps level.1 := by
  constructor
  · intro hlevel
    exact ⟨(h.mem_iff _).mp (List.mem_map_of_mem hlevel), h.texts_eq level hlevel⟩
  · rintro ⟨hpriority, htexts⟩
    obtain ⟨level', hlevel', hfst⟩ := List.mem_map.mp ((h.mem_iff _).mpr hpriority)
    have hsnd : level'.2 = level.2 := by rw [h.texts_eq level' hlevel', hfst, htexts]
    rwa [← Prod.ext hfst hsnd]

theorem nodup (h : IsPartition steps levels) : levels.Nodup := by
  refine h.descending.imp fun {level level'} hlt heq ↦ ?_
  rw [heq] at hlt
  exact Nat.lt_irrefl _ hlt

/-- There is only one partition of the steps. -/
theorem unique {levels' : List (Priority × List String)} (h : IsPartition steps levels)
    (h' : IsPartition steps levels') : levels = levels' := by
  have hperm : levels.Perm levels' :=
    (List.perm_ext_iff_of_nodup h.nodup h'.nodup).mpr fun level ↦
      h.mem_levels_iff.trans h'.mem_levels_iff.symm
  refine hperm.eq_of_pairwise (fun level level' _ _ hlt hgt ↦ ?_) h.descending h'.descending
  exact absurd (Nat.lt_trans hlt hgt) (Nat.lt_irrefl _)

end IsPartition

/-- The groups are the rows of the table of all priorities that have a text. -/
theorem byLevel_eq_filter (t : Trace) :
    t.byLevel = (Priority.descending.map fun p ↦ (p, textsOf t.toList p)).filter
      fun level ↦ !level.2.isEmpty := by
  refine t.isPartition_byLevel.unique ⟨?_, ?_, ?_, ?_⟩
  · refine List.Pairwise.filter _ (List.pairwise_map.mpr ?_)
    exact (by decide : Priority.descending.Pairwise fun p q ↦ q < p)
  · intro level hlevel
    simpa using (List.mem_filter.mp hlevel).2
  · intro p
    rw [← textsOf_ne_nil_iff]
    simp [Priority.mem_descending]
  · intro level hlevel
    obtain ⟨p, -, rfl⟩ := List.mem_map.mp (List.mem_filter.mp hlevel).1
    rfl

end DiceNotation.Trace
