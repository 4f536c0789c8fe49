import DiceNotation.Proofs.Lockstep
import DiceNotation.Proofs.WrittenValues

/-!
# Values but for potentials

The potential of a number is bookkeeping: operators add potentials up, and none of them looks at
one. A value is *plain* if every number in it is its own potential, and values are alike if they
are the same once they are plain. What does not see potentials is the same for values that are
alike, and what operators make of such values is alike again (`Value.Alike.likeness`).

To be alike says more about values than that they are equal, and less: numbers that are alike are
the same down to the sign of zero, but no number that is absent equals another one.
-/

namespace DiceNotation

/-! ## Plain numbers -/

namespace Number

/-- The number as a constant. -/
def plain (x : Number) : Number := const x.value

theorem value_foldl_add (xs : List Number) (start : Number) :
    (xs.foldl (· + ·) start).value = (xs.map value).foldl (· + ·) start.value := by
  induction xs generalizing start with
  | nil => rfl
  | cons x xs ih =>
    rw [List.foldl_cons, ih, List.map_cons, List.foldl_cons]
    rfl

theorem value_sum_congr {xs ys : List Number} (h : xs.map value = ys.map value) :
    (sum xs).value = (sum ys).value := by
  rw [sum, sum, value_foldl_add, value_foldl_add, h]

end Number

/-! ## Plain values

What is negated, joined or summed up does not matter but for its plain value. -/

namespace Value

/-- The value with constants for its numbers. -/
def plain (v : Value) : Value := v.mapNumbers Number.plain

theorem plain_list (items : List Value) : (list items).plain = list (items.map plain) :=
  mapNumbers_list Number.plain items

theorem plain_plain (v : Value) : v.plain.plain = v.plain := by
  induction v using induction with
  | number x => rfl
  | list items ih =>
    rw [plain_list, plain_list, List.map_map]
    exact congrArg list (List.map_congr_left ih)
  | text s => rfl

theorem items_plain (v : Value) : v.plain.items = v.items.map plain := by
  cases v with
  | number x => rfl
  | list items =>
    rw [plain_list]
    rfl
  | text s => rfl

theorem value_total_plain (v : Value) : v.plain.total.value = v.total.value := by
  induction v using induction with
  | number x => rfl
  | list items ih =>
    rw [plain_list, total_list, total_list]
    refine Number.value_sum_congr ?_
    rw [List.map_map, List.map_map, List.map_map]
    exact List.map_congr_left ih
  | text s => rfl

theorem asText_plain (v : Value) : v.plain.asText = v.asText := by
  cases v with
  | number x => rfl
  | list items =>
    rw [plain_list, asText, asText, List.map_map]
    refine congrArg String.ofList (List.map_congr_left fun v _ ↦ ?_)
    exact congrArg (fun x ↦ character x.floor) (value_total_plain v)
  | text s => rfl

theorem plain_negate_plain (v : Value) : v.plain.negate.plain = v.negate.plain := by
  induction v using induction with
  | number x => rfl
  | list items ih =>
    rw [plain_list, negate, negate, negateAll_eq_map, negateAll_eq_map, plain_list, plain_list,
      List.map_map, List.map_map, List.map_map]
    exact congrArg list (List.map_congr_left ih)
  | text s => rfl

theorem plain_join_plain (v w : Value) : (v.plain.join w.plain).plain = (v.join w).plain := by
  have hlists (v w : Value) :
      (list (v.plain.items ++ w.plain.items)).plain = (list (v.items ++ w.items)).plain := by
    rw [plain_list, plain_list, items_plain, items_plain, ← List.map_append, List.map_map]
    exact congrArg list (List.map_congr_left fun v _ ↦ plain_plain v)
  cases v with
  | number x =>
    cases w with
    | number y => rfl
    | list ws => exact hlists (.number x) (.list ws)
    | text t => rfl
  | list vs =>
    cases w with
    | number y => exact hlists (.list vs) (.number y)
    | list ws => exact hlists (.list vs) (.list ws)
    | text t => exact congrArg (fun s ↦ text (s ++ t)) (asText_plain (.list vs))
  | text s => exact congrArg (fun t ↦ text (s ++ t)) (asText_plain w)

theorem isFinite_plain (v : Value) : v.plain.isFinite = v.isFinite := by
  rw [Bool.eq_iff_iff]
  induction v using induction with
  | number x => rfl
  | list items ih =>
    rw [plain_list, isFinite_list, isFinite_list, List.forall_mem_map]
    exact forall₂_congr ih
  | text s => rfl

theorem containsText_plain (v : Value) : v.plain.containsText = v.containsText := by
  induction v using induction with
  | number x => rfl
  | list items ih =>
    rw [plain_list]
    change anyContainsText _ = anyContainsText _
    induction items with
    | nil => rfl
    | cons item rest ihrest =>
      obtain ⟨hitem, hrest⟩ := List.forall_mem_cons.mp ih
      rw [List.map_cons, anyContainsText, anyContainsText, hitem, ihrest hrest]
  | text s => rfl

theorem code_plain (v : Value) : v.plain.code = v.code := by
  induction v using induction with
  | number x => rfl
  | list items ih =>
    rw [plain_list, code, code, codes_map ih]
  | text s => rfl

theorem heading_map_plain (items : List Value) : heading (items.map plain) = heading items := by
  have htext := containsText_plain (.list items)
  have htotal := value_total_plain (.list items)
  rw [plain_list] at htext htotal
  rw [containsText, containsText] at htext
  rw [heading, heading, htext, Number.text, Number.text, htotal]

theorem displays_map {f : Value → Value} {items : List Value} {depth : Nat}
    (h : ∀ v ∈ items, (f v).display depth = v.display depth) :
    displays depth (items.map f) = displays depth items := by
  rw [displays_eq_intercalate, displays_eq_intercalate, List.map_map]
  exact congrArg (String.intercalate ", ") (List.map_congr_left h)

theorem display_plain (depth : Nat) (v : Value) : v.plain.display depth = v.display depth := by
  induction v using induction generalizing depth with
  | number x => rfl
  | list items ih =>
    rw [plain_list]
    cases items with
    | nil => rfl
    | cons item rest =>
      have hheading := heading_map_plain (item :: rest)
      cases depth with
      | zero => exact congrArg (· ++ "[...]") hheading
      | succ depth =>
        have hitems : displays depth ((item :: rest).map plain) = displays depth (item :: rest) :=
          displays_map fun v hv ↦ ih v hv depth
        exact congrArg₂ (fun s t ↦ s ++ "[" ++ t ++ "]") hheading hitems
  | text s => rfl

theorem equals_plain (v w : Value) : equals v.plain w.plain = equals v w := by
  induction v using induction generalizing w with
  | number x => cases w <;> rfl
  | list items ih =>
    cases w with
    | number y => rfl
    | text t => rfl
    | list items' =>
      rw [plain_list, plain_list, equals, equals]
      induction items generalizing items' with
      | nil => cases items' <;> rfl
      | cons item rest ihrest =>
        obtain ⟨hitem, hrest⟩ := List.forall_mem_cons.mp ih
        cases items' with
        | nil => rfl
        | cons item' rest' =>
          rw [List.map_cons, List.map_cons, listEquals, listEquals, hitem, ihrest hrest]
  | text s => cases w <;> rfl

/-! ## Values that are alike

Values that are alike equal the same values, and a function that does not see potentials is the same
for both. -/

/-- The values are the same but for potentials. -/
def Alike (v w : Value) : Prop := v.plain = w.plain

namespace Alike

variable {v w : Value}

theorem beq_eq (h : Alike v w) (v' : Value) : (v' == w) = (v' == v) := by
  change equals v' w = equals v' v
  rw [← equals_plain, ← equals_plain v' v, h.symm]

theorem forall₂_iff {vs ws : List Value} :
    List.Forall₂ Alike vs ws ↔ vs.map plain = ws.map plain := by
  rw [← List.forall₂_eq_eq_eq, List.forall₂_map_left_iff, List.forall₂_map_right_iff]
  rfl

theorem congr {γ : Type} (f : Value → γ) (hf : ∀ v : Value, f v.plain = f v) (h : Alike v w) :
    f v = f w := by
  rw [← hf v, ← hf w, h]

theorem value_total_eq (h : Alike v w) : v.total.value = w.total.value :=
  h.congr (fun v ↦ v.total.value) value_total_plain

theorem items (h : Alike v w) : List.Forall₂ Alike v.items w.items := by
  rw [forall₂_iff, ← items_plain, ← items_plain, h]

theorem list {vs ws : List Value} (h : List.Forall₂ Alike vs ws) :
    Alike (.list vs) (.list ws) := by
  rw [Alike, plain_list, plain_list, forall₂_iff.mp h]

theorem join {v' w' : Value} (h : Alike v w) (h' : Alike v' w') :
    Alike (v.join v') (w.join w') := by
  rw [Alike, ← plain_join_plain v v', ← plain_join_plain w w', h, h']

/-- **No operator sees potentials.** -/
theorem likeness : Play.Likeness Alike where
  refl _ := rfl
  value := value_total_eq
  total h := congrArg (fun x ↦ number (.const x)) h.value_total_eq
  items := items
  list := list
  negate h := h.congr (fun v ↦ v.negate.plain) plain_negate_plain
  join := join
  isFinite h := h.congr isFinite isFinite_plain
  code h := h.congr code code_plain
  display depth h := h.congr (display depth) (display_plain depth)

end Alike

end Value

namespace Expression

/-! ## Expressions that are alike -/

/-- The expression with constants for its literals. -/
def plain (e : Expression) : Expression := e.mapLiterals fun x ↦ .literal x.plain

/-- The expressions are the same but for the potentials of literals. -/
def Alike (e e' : Expression) : Prop := e.plain = e'.plain

theorem plain_ofValue (v : Value) : (ofValue v).plain = ofValue v.plain := by
  induction v using Value.induction with
  | number x => rfl
  | list items ih =>
    rw [Value.plain_list, ofValue_list, ofValue_list, plain, mapLiterals_list, List.map_map,
      List.map_map]
    exact congrArg list (List.map_congr_left ih)
  | text s => rfl

theorem alike_ofValue {v w : Value} (h : v.Alike w) : (ofValue v).Alike (ofValue w) := by
  rw [Alike, plain_ofValue, plain_ofValue, h]

theorem equals_plain (e e' : Expression) : equals e.plain e'.plain = equals e e' := by
  have hlists {es : List Expression} (h : ∀ e ∈ es, ∀ e', equals e.plain e'.plain = equals e e')
      (es' : List Expression) : listEquals (es.map plain) (es'.map plain) = listEquals es es' := by
    induction es generalizing es' with
    | nil => cases es' <;> rfl
    | cons e es ih =>
      obtain ⟨he, hes⟩ := List.forall_mem_cons.mp h
      cases es' with
      | nil => rfl
      | cons e' es' =>
        rw [List.map_cons, List.map_cons, listEquals, listEquals, he, ih hes]
  induction e using induction generalizing e' with
  | step e ih =>
    cases e with
    | literal x => cases e' <;> rfl
    | list items =>
      cases e' with
      | list items' =>
        rw [plain, plain, mapLiterals_list, mapLiterals_list, equals, equals]
        exact hlists ih items'
      | _ => rfl
    | text s => cases e' <;> rfl
    | reference name => cases e' <;> rfl
    | call name arguments =>
      cases e' with
      | call name' arguments' =>
        rw [plain, plain, mapLiterals_call, mapLiterals_call, equals, equals]
        exact congrArg (name == name' && ·) (hlists ih arguments')
      | _ => rfl
    | prefixed op operand =>
      cases e' with
      | prefixed op' operand' =>
        exact congrArg (op == op' && ·) (ih operand List.mem_cons_self operand')
      | _ => rfl
    | binary left op right =>
      cases e' with
      | binary left' op' right' =>
        exact congrArg₂ (op == op' && · && ·) (ih left List.mem_cons_self left')
          (ih right (List.mem_cons_of_mem _ List.mem_cons_self) right')
      | _ => rfl
    | postfixed operand op =>
      cases e' with
      | postfixed operand' op' =>
        exact congrArg (op == op' && ·) (ih operand List.mem_cons_self operand')
      | _ => rfl

theorem Alike.beq_eq {e e' : Expression} (h : e.Alike e') (x : Expression) :
    (x == e') = (x == e) := by
  change equals x e' = equals x e
  rw [← equals_plain, ← equals_plain x e, h.symm]

end Expression

end DiceNotation
