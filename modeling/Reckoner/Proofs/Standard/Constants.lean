import Reckoner.Calculator
import Reckoner.Proofs.Value

/-!
The standard constants by the names that they go by.
-/
namespace Reckoner

theorem Vocabulary.mem_of_constant? {v : Vocabulary} {name : String} {c : Constant}
    (h : v.constant? name = some c) : (name, c) ∈ v.constants := by
  obtain ⟨before, after, heq, -⟩ := List.lookup_eq_some_iff.1 h
  rw [heq]
  exact List.mem_append_right _ List.mem_cons_self

namespace Calculator

theorem constants_new (o : Options) :
    (new o).vocabulary.constants =
      if o.constants then (Standard.addConstants Standard.vocabulary).constants else [] := by
  rcases o with ⟨mode, constants, functions, digits⟩
  cases constants <;> cases functions <;> rfl

/-- What a standard constant is shown as denotes it, and is one of two names. -/
structure IsStandard (c : Constant) : Prop where
  double : ∃ x, c.value = .double x
  name : c.name = "π" ∨ c.name = "e"
  known : (Standard.addConstants Standard.vocabulary).constants.lookup c.name = some c

theorem isStandard_of_mem {pair : String × Constant}
    (h : pair ∈ (Standard.addConstants Standard.vocabulary).constants) : IsStandard pair.2 := by
  have hall : ∀ pair ∈ (Standard.addConstants Standard.vocabulary).constants,
      pair.2 = ⟨"π", .double 3.141592653589793⟩ ∨ pair.2 = ⟨"e", .double 2.718281828459045⟩ := by
    simp [Standard.addConstants, Standard.constants, Standard.vocabulary, Vocabulary.addConstant]
  rcases hall pair h with heq | heq
  · exact ⟨⟨_, congrArg Constant.value heq⟩, .inl (congrArg Constant.name heq), heq ▸ rfl⟩
  · exact ⟨⟨_, congrArg Constant.value heq⟩, .inr (congrArg Constant.name heq), heq ▸ rfl⟩

/-- The constants of a new calculator are the standard ones. -/
theorem isStandard_of_constant? {o : Options} {name : String} {c : Constant}
    (h : (new o).vocabulary.constant? name = some c) : IsStandard c := by
  have hmem := Vocabulary.mem_of_constant? h
  rw [constants_new] at hmem
  split at hmem
  · exact isStandard_of_mem hmem
  · cases hmem

theorem IsStandard.wellFormed {c : Constant} (h : IsStandard c) : c.value.WellFormed := by
  obtain ⟨x, hx⟩ := h.double
  rw [hx]
  trivial

end Calculator

end Reckoner
