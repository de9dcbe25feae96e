import Mathlib.Data.List.Nodup
import Reckoner.Proofs.Index
import Reckoner.Proofs.Names

/-!
Names and numbers correspond to each other.

A name is added to the list and to the index at the same time, and only if the index does not find
it yet. So the index finds a name exactly under the number that the list has for it, no name has two
numbers, and the numbers in use are those from one to the number of names.
-/
namespace Reckoner

namespace Names

variable {n m : Names} {name : String} {id : VariableId}

/-- A number keeps its name when the list grows. -/
theorem Extends.nameOf?_eq_some (h : n.Extends m) (hname : n.nameOf? id = some name) :
    m.nameOf? id = some name := by
  obtain ⟨more, hmore⟩ := h.toList
  cases id with
  | zero => cases hname
  | succ i =>
      obtain ⟨hlt, -⟩ := List.getElem?_eq_some_iff.1 hname
      rw [nameOf?, ← hmore, List.getElem?_append_left hlt]
      exact hname

/-- The numbers in use are those from one to the number of names. -/
theorem isSome_nameOf?_iff : (n.nameOf? id).isSome = true ↔ 1 ≤ id ∧ id ≤ n.size := by
  cases id with
  | zero => simp [nameOf?]
  | succ i =>
      rw [nameOf?, size, isSome_getElem?]
      exact ⟨fun h => ⟨Nat.succ_pos i, h⟩, fun h => h.2⟩

theorem le_size_of_nameOf? (h : n.nameOf? id = some name) : id ≤ n.size :=
  (isSome_nameOf?_iff.1 (Option.isSome_iff_exists.2 ⟨name, h⟩)).2

theorem mem_toList_iff : name ∈ n.toList ↔ ∃ id, n.nameOf? id = some name := by
  rw [List.mem_iff_getElem?]
  constructor
  · rintro ⟨i, hi⟩
    exact ⟨i + 1, hi⟩
  · rintro ⟨_ | i, hi⟩
    · cases hi
    · exact ⟨i, hi⟩

/-! ## The index -/

/-- The index finds a name exactly under its number. -/
def Coherent (n : Names) : Prop :=
  Indexes n.ids n.nameOf?

theorem coherent_empty : Coherent {} :=
  indexes_nil fun id => by cases id <;> rfl

/-- Names and numbers correspond to each other. -/
theorem Coherent.find?_eq_some_iff (h : n.Coherent) :
    n.find? name = some id ↔ n.nameOf? id = some name :=
  h name id

theorem Coherent.isSome_find?_iff (h : n.Coherent) :
    (n.find? name).isSome = true ↔ name ∈ n.toList := by
  rw [find?, h.isSome_lookup_iff, mem_toList_iff]

/-- Meeting a name writes the same into the index and into the list. -/
theorem Coherent.idOf (h : n.Coherent) (name : String) : (n.idOf name).2.Coherent := by
  unfold Names.idOf
  split
  · exact h
  · next hnew =>
      have hfree : n.nameOf? (n.size + 1) = none := List.getElem?_eq_none (Nat.le_refl _)
      refine Indexes.insert h (.inr ⟨hnew, hfree⟩) List.getElem?_concat_length fun id hid => ?_
      cases id with
      | zero => rfl
      | succ i =>
          have hne : i ≠ n.toList.length := fun heq => hid (congrArg Nat.succ heq)
          exact getElem?_concat_of_ne hne

/-- The number that a name has got is one of that name. -/
theorem Coherent.nameOf?_idOf (h : n.Coherent) (name : String) :
    (n.idOf name).2.nameOf? (n.idOf name).1 = some name :=
  (h.idOf name).find?_eq_some_iff.1 (n.find?_idOf name)

/-! ## Several names -/

/-- The names after several more have been met, in order. -/
def meet (n : Names) (names : List String) : Names :=
  names.foldl (fun n name => (n.idOf name).2) n

theorem meet_append (n : Names) (first second : List String) :
    n.meet (first ++ second) = (n.meet first).meet second :=
  List.foldl_append

theorem extends_meet (n : Names) (names : List String) : n.Extends (n.meet names) := by
  induction names generalizing n with
  | nil => exact .refl n
  | cons name rest ih => exact (n.extends_idOf name).trans (ih (n.idOf name).2)

theorem Coherent.meet (h : n.Coherent) (names : List String) : (n.meet names).Coherent := by
  induction names generalizing n with
  | nil => exact h
  | cons name rest ih => exact ih (h.idOf name)

/-- No other names are met. -/
theorem mem_idOf {other : String} (h : other ∈ (n.idOf name).2.toList) :
    other ∈ n.toList ∨ other = name := by
  unfold idOf at h
  split at h
  · exact .inl h
  · simpa using h

theorem mem_meet {names : List String} (h : name ∈ (n.meet names).toList) :
    name ∈ n.toList ∨ name ∈ names := by
  induction names generalizing n with
  | nil => exact .inl h
  | cons first rest ih =>
      rcases ih h with hname | hname
      · rcases mem_idOf hname with hold | rfl
        · exact .inl hold
        · exact .inr List.mem_cons_self
      · exact .inr (List.mem_cons_of_mem first hname)

end Names

end Reckoner
