import Reckoner.Expr

/-!
What an expression is evaluated in: the mode, and the values of the variables that are bound.

There is a slot for each number of a variable, counted from zero, and as many slots as bindings so
far have needed. A number beyond the last slot is that of a variable without a value.
-/
namespace Reckoner

/-- How the fundamental operations compute: in floating point, or in whole numbers and fractions
with floating point to fall back on. -/
inductive Mode where
  | float
  | exact
deriving DecidableEq, Repr

/-- The exact mode if `b`. -/
def Mode.ofBool (b : Bool) : Mode :=
  if b then exact else float

/-- The mode is the exact one. -/
def Mode.isExact : Mode → Bool
  | float => false
  | exact => true

/-- The mode, and a slot for the value of each variable up to some number. -/
structure Store where
  mode : Mode := .float
  slots : List (Option Value) := []

namespace Store

instance : Inhabited Store :=
  ⟨{}⟩

/-- The value of a variable. -/
def value? (s : Store) (id : VariableId) : Option Value :=
  s.slots[id]?.join

/-- Add empty slots until there is one for `id`. -/
def grow (s : Store) (id : VariableId) : Store :=
  if s.slots.length ≤ id then
    { s with slots := s.slots ++ List.replicate (id + 1 - s.slots.length) none }
  else
    s

/-- Bind a variable. -/
def set (s : Store) (id : VariableId) (v : Value) : Store :=
  { s with slots := (s.grow id).slots.set id (some v) }

/-- Forget the value of a variable. -/
def unset (s : Store) (id : VariableId) : Store :=
  { s with slots := s.slots.set id none }

/-- Change the mode. -/
def setMode (s : Store) (mode : Mode) : Store :=
  { s with mode }

/-! ## Growing -/

theorem length_slots_grow (s : Store) (id : VariableId) :
    (s.grow id).slots.length = max s.slots.length (id + 1) := by
  unfold grow
  split
  · rw [List.length_append, List.length_replicate]
    omega
  · omega

/-- The slots that are added are empty. -/
@[simp] theorem value?_grow (s : Store) (id i : VariableId) :
    (s.grow id).value? i = s.value? i := by
  unfold grow
  split
  · by_cases hi : i < s.slots.length
    · rw [value?, List.getElem?_append_left hi, value?]
    · have hnone : s.slots[i]? = none := List.getElem?_eq_none (Nat.le_of_not_lt hi)
      rw [value?, List.getElem?_append_right (Nat.le_of_not_lt hi), List.getElem?_replicate, value?,
        hnone]
      split <;> rfl
  · rfl

/-! ## Bindings -/

theorem length_slots_set (s : Store) (id : VariableId) (v : Value) :
    (s.set id v).slots.length = max s.slots.length (id + 1) := by
  rw [set, List.length_set, length_slots_grow]

theorem length_slots_unset (s : Store) (id : VariableId) :
    (s.unset id).slots.length = s.slots.length :=
  List.length_set

@[simp] theorem value?_set_self (s : Store) (id : VariableId) (v : Value) :
    (s.set id v).value? id = some v := by
  have hslot : id < (s.grow id).slots.length := by
    rw [length_slots_grow]
    exact Nat.lt_of_lt_of_le (Nat.lt_succ_self id) (Nat.le_max_right _ _)
  rw [value?, set, List.getElem?_set_self hslot, Option.join_some]

theorem value?_set_of_ne (s : Store) {id i : VariableId} (v : Value) (h : i ≠ id) :
    (s.set id v).value? i = s.value? i := by
  rw [value?, set, List.getElem?_set_ne h.symm]
  exact s.value?_grow id i

@[simp] theorem value?_unset_self (s : Store) (id : VariableId) :
    (s.unset id).value? id = none := by
  rw [value?, unset, List.getElem?_set_self']
  cases s.slots[id]? <;> rfl

theorem value?_unset_of_ne (s : Store) {id i : VariableId} (h : i ≠ id) :
    (s.unset id).value? i = s.value? i := by
  rw [value?, unset, List.getElem?_set_ne h.symm, value?]

@[simp] theorem mode_set (s : Store) (id : VariableId) (v : Value) :
    (s.set id v).mode = s.mode :=
  rfl

@[simp] theorem mode_unset (s : Store) (id : VariableId) : (s.unset id).mode = s.mode :=
  rfl

/-- A binding beyond the last slot leaves slots without a value below it. -/
example : (({} : Store).set 2 .null).slots = [none, none, some .null] := by rfl

end Store

end Reckoner
