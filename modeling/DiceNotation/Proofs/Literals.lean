import DiceNotation.Proofs.Subexpressions

/-!
# Expressions with other literals

What becomes of an expression when its literals are replaced: where it matters what they are
replaced by, what replacing twice comes to, and when the code stays the same.
-/

namespace DiceNotation.Expression

mutual

/-- The expression with another one in place of every literal. -/
def mapLiterals (f : Number → Expression) : Expression → Expression
  | .literal x => f x
  | .list items => .list (mapAllLiterals f items)
  | .text s => .text s
  | .reference name => .reference name
  | .call name arguments => .call name (mapAllLiterals f arguments)
  | .prefixed op operand => .prefixed op (mapLiterals f operand)
  | .binary left op right => .binary (mapLiterals f left) op (mapLiterals f right)
  | .postfixed operand op => .postfixed (mapLiterals f operand) op

/-- The expressions with other ones in place of their literals. -/
def mapAllLiterals (f : Number → Expression) : List Expression → List Expression
  | [] => []
  | e :: rest => mapLiterals f e :: mapAllLiterals f rest

end

theorem mapAllLiterals_eq_map (f : Number → Expression) (es : List Expression) :
    mapAllLiterals f es = es.map (mapLiterals f) :=
  Value.eq_map_of_cons rfl (fun _ _ ↦ rfl) es

theorem mapLiterals_list (f : Number → Expression) (items : List Expression) :
    mapLiterals f (.list items) = .list (items.map (mapLiterals f)) := by
  rw [mapLiterals, mapAllLiterals_eq_map]

theorem mapLiterals_call (f : Number → Expression) (name : String) (arguments : List Expression) :
    mapLiterals f (.call name arguments) = .call name (arguments.map (mapLiterals f)) := by
  rw [mapLiterals, mapAllLiterals_eq_map]

theorem mapLiterals_congr {f g : Number → Expression} {e : Expression}
    (h : ∀ x, Within (.literal x) e → f x = g x) : e.mapLiterals f = e.mapLiterals g := by
  induction e using induction with
  | step e ih =>
    have hchild : ∀ c ∈ e.children, c.mapLiterals f = c.mapLiterals g :=
      fun c hc ↦ ih c hc fun x hx ↦ h x (.child hc hx)
    cases e with
    | literal x => exact h x .self
    | list items =>
      rw [mapLiterals_list, mapLiterals_list]
      exact congrArg list (List.map_congr_left hchild)
    | text s => rfl
    | reference name => rfl
    | call name arguments =>
      rw [mapLiterals_call, mapLiterals_call]
      exact congrArg (call name) (List.map_congr_left hchild)
    | prefixed op operand =>
      rw [mapLiterals, mapLiterals, hchild operand List.mem_cons_self]
    | binary left op right =>
      rw [mapLiterals, mapLiterals, hchild left List.mem_cons_self,
        hchild right (List.mem_cons_of_mem _ List.mem_cons_self)]
    | postfixed operand op =>
      rw [mapLiterals, mapLiterals, hchild operand List.mem_cons_self]

theorem mapLiterals_literal (e : Expression) : e.mapLiterals literal = e := by
  induction e using induction with
  | step e ih =>
    cases e with
    | list items =>
      rw [mapLiterals_list]
      exact congrArg list ((List.map_congr_left ih).trans (List.map_id items))
    | call name arguments =>
      rw [mapLiterals_call]
      exact congrArg (call name) ((List.map_congr_left ih).trans (List.map_id arguments))
    | prefixed op operand => rw [mapLiterals, ih operand List.mem_cons_self]
    | binary left op right =>
      rw [mapLiterals, ih left List.mem_cons_self,
        ih right (List.mem_cons_of_mem _ List.mem_cons_self)]
    | postfixed operand op => rw [mapLiterals, ih operand List.mem_cons_self]
    | _ => rfl

theorem mapLiterals_mapLiterals (f g : Number → Expression) (e : Expression) :
    (e.mapLiterals f).mapLiterals g = e.mapLiterals fun x ↦ (f x).mapLiterals g := by
  induction e using induction with
  | step e ih =>
    cases e with
    | literal x => rfl
    | list items =>
      rw [mapLiterals_list, mapLiterals_list, mapLiterals_list, List.map_map]
      exact congrArg list (List.map_congr_left ih)
    | text s => rfl
    | reference name => rfl
    | call name arguments =>
      rw [mapLiterals_call, mapLiterals_call, mapLiterals_call, List.map_map]
      exact congrArg (call name) (List.map_congr_left ih)
    | prefixed op operand =>
      rw [mapLiterals, mapLiterals, mapLiterals, ih operand List.mem_cons_self]
    | binary left op right =>
      rw [mapLiterals, mapLiterals, mapLiterals, ih left List.mem_cons_self,
        ih right (List.mem_cons_of_mem _ List.mem_cons_self)]
    | postfixed operand op =>
      rw [mapLiterals, mapLiterals, mapLiterals, ih operand List.mem_cons_self]

/-! ## The code

Literals can be replaced by what is written the same. -/

theorem codes_map {f : Expression → Expression} {es : List Expression}
    (h : ∀ e ∈ es, (f e).code = e.code) : codes (es.map f) = codes es := by
  rw [codes_eq_intercalate, codes_eq_intercalate, List.map_map]
  exact congrArg (String.intercalate ",") (List.map_congr_left h)

theorem argumentCodes_map {f : Expression → Expression} {es : List Expression}
    (h : ∀ e ∈ es, (f e).code = e.code) : argumentCodes (es.map f) = argumentCodes es := by
  induction es with
  | nil => rfl
  | cons e es ih =>
    obtain ⟨he, hes⟩ := List.forall_mem_cons.mp h
    change "," ++ (f e).code ++ argumentCodes (es.map f) = "," ++ e.code ++ argumentCodes es
    rw [he, ih hes]

theorem code_mapLiterals {f : Number → Expression} {e : Expression}
    (h : ∀ x, Within (.literal x) e → (f x).code = x.code) : (e.mapLiterals f).code = e.code := by
  induction e using induction with
  | step e ih =>
    have hchild : ∀ c ∈ e.children, (c.mapLiterals f).code = c.code :=
      fun c hc ↦ ih c hc fun x hx ↦ h x (.child hc hx)
    cases e with
    | literal x => exact h x .self
    | list items =>
      have hitems : codes (items.map (mapLiterals f)) = codes items := codes_map hchild
      rw [mapLiterals_list, code, code, hitems]
    | text s => rfl
    | reference name => rfl
    | call name arguments =>
      have harguments : argumentCodes (arguments.map (mapLiterals f)) = argumentCodes arguments :=
        argumentCodes_map hchild
      rw [mapLiterals_call, code, code, harguments]
    | prefixed op operand =>
      rw [mapLiterals, code, code, hchild operand List.mem_cons_self]
    | binary left op right =>
      rw [mapLiterals, code, code, hchild left List.mem_cons_self,
        hchild right (List.mem_cons_of_mem _ List.mem_cons_self)]
    | postfixed operand op =>
      rw [mapLiterals, code, code, hchild operand List.mem_cons_self]

end DiceNotation.Expression
