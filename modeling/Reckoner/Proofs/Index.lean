import Mathlib.Tactic.ByContra

/-!
Indexes of keys.

Beside a list in which every key has one place, an index says where a key stands. An entry is added
where a key gets a place, or stays at the one that it has.
-/
namespace Reckoner

/-- The index finds a key exactly where it stands. -/
def Indexes (index : List (String × Nat)) (keyAt : Nat → Option String) : Prop :=
  ∀ key i, index.lookup key = some i ↔ keyAt i = some key

variable {index : List (String × Nat)} {keyAt keyAt' : Nat → Option String} {key : String}
  {i j : Nat}

theorem indexes_nil (h : ∀ i, keyAt i = none) : Indexes [] keyAt := by
  intro key i
  rw [h i]
  exact ⟨nofun, nofun⟩

/-- What is added at the end of a list changes no other place. -/
theorem getElem?_concat_of_ne {α : Type} {l : List α} {a : α} (h : i ≠ l.length) :
    (l ++ [a])[i]? = l[i]? := by
  rcases Nat.lt_or_gt_of_ne h with hlt | hgt
  · exact List.getElem?_append_left hlt
  · rw [List.getElem?_eq_none (by simp; omega), List.getElem?_eq_none (by omega)]

/-- No key has two places. -/
theorem Indexes.eq_of_eq_some (h : Indexes index keyAt) (hi : keyAt i = some key)
    (hj : keyAt j = some key) : i = j :=
  Option.some.inj (((h key i).2 hi).symm.trans ((h key j).2 hj))

theorem Indexes.isSome_lookup_iff (h : Indexes index keyAt) :
    (index.lookup key).isSome = true ↔ ∃ i, keyAt i = some key := by
  rw [Option.isSome_iff_exists]
  exact exists_congr fun i => h key i

/-- A key is put at a place: at its own, or at one without a key if it has none. -/
theorem Indexes.insert (h : Indexes index keyAt)
    (hfree : index.lookup key = some i ∨ index.lookup key = none ∧ keyAt i = none)
    (hself : keyAt' i = some key) (hothers : ∀ j, j ≠ i → keyAt' j = keyAt j) :
    Indexes ((key, i) :: index) keyAt' := by
  intro other j
  by_cases hkey : other = key
  · subst hkey
    rw [List.lookup_cons_self, Option.some.injEq]
    constructor
    · rintro rfl
      exact hself
    · intro hj
      by_contra hne
      rw [hothers j (Ne.symm hne), ← h] at hj
      rcases hfree with hold | ⟨hnew, -⟩
      · exact hne (Option.some.inj (hold.symm.trans hj))
      · rw [hnew] at hj
        cases hj
  · rw [List.lookup_cons, beq_false_of_ne hkey]
    by_cases hj : j = i
    · -- No other key has the place, neither before nor afterwards.
      subst hj
      have hbefore : keyAt j ≠ some other := by
        rcases hfree with hold | ⟨-, hnone⟩
        · rw [(h key j).1 hold]
          exact fun heq => hkey (Option.some.inj heq).symm
        · rw [hnone]
          exact nofun
      have hafter : keyAt' j ≠ some other := by
        rw [hself]
        exact fun heq => hkey (Option.some.inj heq).symm
      exact (h other j).trans (iff_of_false hbefore hafter)
    · rw [hothers j hj]
      exact h other j

end Reckoner
