import Reckoner.Expr

/-!
Names of variables. A name gets the next number when it is first met and keeps it; the name with
number `n` stands at place `n - 1` of the list, and an index finds the numbers of names.
-/
namespace Reckoner

/-- The variables met so far, in the order in which they were met, and their numbers. -/
structure Names where
  toList : List String := []
  ids : List (String × VariableId) := []
deriving DecidableEq, Repr

namespace Names

/-- The number of names. -/
def size (n : Names) : Nat :=
  n.toList.length

/-- The number that the index has for a name. -/
def find? (n : Names) (name : String) : Option VariableId :=
  n.ids.lookup name

/-- The name with this number. -/
def nameOf? (n : Names) : VariableId → Option String
  | 0 => none
  | i + 1 => n.toList[i]?

/-- The number of a name, with the names that have been met then. -/
def idOf (n : Names) (name : String) : VariableId × Names :=
  match n.find? name with
  | some id => (id, n)
  | none =>
    let id := n.size + 1
    (id, { toList := n.toList ++ [name], ids := (name, id) :: n.ids })

/-- The numbers with their names, in order. -/
def entries (n : Names) : List (VariableId × String) :=
  n.toList.zipIdx.map fun (name, i) => (i + 1, name)

/-- A name keeps the number that it gets. -/
@[simp] theorem find?_idOf (n : Names) (name : String) :
    (n.idOf name).2.find? name = some (n.idOf name).1 := by
  unfold idOf
  split
  next id h => exact h
  next => exact List.lookup_cons_self

/-- The other names keep theirs. -/
theorem find?_idOf_of_eq_some {n : Names} {name : String} {id : VariableId}
    (h : n.find? name = some id) (other : String) :
    (n.idOf other).2.find? name = some id := by
  unfold idOf
  split
  next => exact h
  next hnone =>
    have hne : name ≠ other := by
      rintro rfl
      rw [h] at hnone
      cases hnone
    rw [find?, List.lookup_cons, beq_false_of_ne hne]
    exact h

end Names

end Reckoner
