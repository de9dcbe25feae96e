import Reckoner.Names

/-!
Growing lists of names.

Parsing only ever adds names at the end of the list, so a number that a name has got once stays its
number. `Extends` says that one list of names has grown out of another.
-/
namespace Reckoner

namespace Names

variable {n m k : Names}

/-- `m` has the names of `n` under the same numbers, and perhaps more names after them; and what the
index of `n` finds, that of `m` finds too. -/
structure Extends (n m : Names) : Prop where
  toList : n.toList <+: m.toList
  find?_eq_some : ∀ {name : String} {id : VariableId}, n.find? name = some id →
    m.find? name = some id

theorem Extends.refl (n : Names) : n.Extends n :=
  ⟨List.prefix_rfl, id⟩

theorem Extends.trans (hnm : n.Extends m) (hmk : m.Extends k) : n.Extends k :=
  ⟨hnm.toList.trans hmk.toList, fun h => hmk.find?_eq_some (hnm.find?_eq_some h)⟩

/-- Meeting a name only adds to the list. -/
theorem extends_idOf (n : Names) (name : String) : n.Extends (n.idOf name).2 where
  toList := by
    unfold idOf
    split
    · exact List.prefix_rfl
    · exact List.prefix_append _ _
  find?_eq_some := fun h => find?_idOf_of_eq_some h name

/-- The number of a name that has been met; zero, which is the number of no name, otherwise. -/
def number (n : Names) (name : String) : VariableId :=
  (n.find? name).getD 0

theorem number_of_find? {name : String} {id : VariableId} (h : n.find? name = some id) :
    n.number name = id := by
  rw [number, h]
  rfl

/-- The number that a name has just got is its number from then on. -/
theorem Extends.number_idOf {name : String} (h : (n.idOf name).2.Extends m) :
    m.number name = (n.idOf name).1 :=
  number_of_find? (h.find?_eq_some (find?_idOf n name))

end Names

end Reckoner
