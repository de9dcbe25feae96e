import Reckoner.Proofs.Expr.Exact
import Reckoner.Proofs.Expr.ReadBack
import Reckoner.Proofs.Standard.Sums

/-!
What regrouping keeps.

The tree that is read back stands for the same rational number as the tree itself: the operands of
sums and products may change their grouping, and that does not matter for rational numbers. Its
numbers are in canonical form if those of the tree are.
-/
namespace Reckoner

namespace Expr

open Standard (registry)

variable {e : Expr} {o : BinaryOperator} {id : FunctionId} {es es' rest rest' : List Expr}
  {ρ : Rationals}

/-! ## Canonical form -/

theorem wellFormedAll_append : WellFormedAll (es ++ es') ↔ WellFormedAll es ∧ WellFormedAll es' := by
  simp only [wellFormedAll_iff, List.forall_mem_append]

theorem wellFormed_joined : (joined id es).WellFormed ↔ WellFormedAll es := by
  unfold joined
  split
  next f inner rest =>
    split
    · exact wellFormedAll_append
    · rfl
  next => rfl

theorem wellFormed_opposite {v : Value} (h : v.isUnsigned = true) : v.opposite.WellFormed := by
  cases v with
  | int k => trivial
  | double x => trivial
  | _ => cases h

/-- The numbers in the tree that is read back are in canonical form. -/
theorem WellFormed.readBack (minimal : Bool) (he : e.WellFormed) :
    (e.readBack minimal).WellFormed := by
  induction e using readBack_induction minimal
    (R := fun o es => WellFormedAll es → WellFormedAll (spread minimal o.place es)) with
  | literal v => rwa [Expr.readBack]
  | var name id => rwa [Expr.readBack]
  | constant name v => rwa [Expr.readBack]
  | signed v hv =>
      rw [Expr.readBack, signed?, if_pos ⟨rfl, hv⟩]
      exact wellFormed_opposite hv
  | sum o args ho hlength _ ih =>
      rw [readBack_of_flattens ho hlength]
      exact wellFormed_joined.2 (ih he)
  | call id args hsigned hplain ih =>
      rw [readBack_call hsigned hplain]
      refine wellFormedAll_iff.2 fun e' he' => ?_
      obtain ⟨a, ha, rfl⟩ := List.mem_map.1 he'
      exact ih a ha (wellFormedAll_iff.1 he a ha)
  | assign target value htarget hvalue =>
      rw [Expr.readBack]
      exact ⟨htarget he.1, hvalue he.2⟩
  | nil o h => rwa [spread_nil]
  | whole o e rest _ hone ih hrest h =>
      rw [spread_cons, hone]
      exact ⟨ih h.1, hrest h.2⟩
  | own o args rest _ hown ih _ hrest h =>
      rw [spread_cons, hown]
      exact wellFormedAll_append.2 ⟨ih h.1, hrest h.2⟩

/-! ## The rational number -/

theorem referenceAll?_append (r : Registry) (es es' : List Expr) (ρ : Rationals) :
    referenceAll? r (es ++ es') ρ = (referenceAll? r es ρ).bind fun (qs, ρ) =>
      (referenceAll? r es' ρ).map fun (ps, ρ) => (qs ++ ps, ρ) := by
  induction es generalizing ρ with
  | nil => simp [referenceAll?]
  | cons e rest ih =>
      rw [List.cons_append, referenceAll?, referenceAll?]
      rcases e.reference? r ρ with _ | ⟨q, ρ₁⟩
      · rfl
      · simp only [ih]
        rcases referenceAll? r rest ρ₁ with _ | ⟨qs, ρ₂⟩
        · rfl
        · simp only [Option.bind_some]
          rcases referenceAll? r es' ρ₂ with _ | ⟨ps, ρ₃⟩
          · rfl
          · rfl

theorem reference?_sum (ho : o.flattens = true) (es : List Expr) (ρ : Rationals) :
    (call o.place es).reference? registry ρ =
      (referenceAll? registry es ρ).map fun (qs, ρ) => (o.total qs, ρ) := by
  rw [reference?, BinaryOperator.get?_place]
  rcases referenceAll? registry es ρ with _ | ⟨qs, ρ'⟩
  · rfl
  · simp [BinaryOperator.rationalResult?_description ho]

/-- A sum of one operand is that operand. -/
theorem reference?_sum_singleton (ho : o.flattens = true) (e : Expr) (ρ : Rationals) :
    (call o.place [e]).reference? registry ρ = e.reference? registry ρ := by
  rw [reference?_sum ho, referenceAll?]
  rcases e.reference? registry ρ with _ | ⟨q, ρ'⟩
  · rfl
  · simp [referenceAll?, BinaryOperator.total_singleton]

/-- A sum can be split between any two operands. -/
theorem reference?_sum_append (ho : o.flattens = true) (es es' : List Expr) (ρ : Rationals) :
    (call o.place (es ++ es')).reference? registry ρ =
      ((call o.place es).reference? registry ρ).bind fun (q, ρ) =>
        ((call o.place es').reference? registry ρ).map fun (p, ρ) => (o.total [q, p], ρ) := by
  simp only [reference?_sum ho, referenceAll?_append]
  rcases referenceAll? registry es ρ with _ | ⟨qs, ρ₁⟩
  · rfl
  · simp only [Option.bind_some, Option.map_some]
    rcases referenceAll? registry es' ρ₁ with _ | ⟨ps, ρ₂⟩
    · rfl
    · simp [o.total_append qs ps]

theorem reference?_sum_congr (ho : o.flattens = true)
    (h : ∀ ρ, (call o.place es).reference? registry ρ = (call o.place es').reference? registry ρ)
    (hrest : ∀ ρ, (call o.place rest).reference? registry ρ =
      (call o.place rest').reference? registry ρ) (ρ : Rationals) :
    (call o.place (es ++ rest)).reference? registry ρ =
      (call o.place (es' ++ rest')).reference? registry ρ := by
  rw [reference?_sum_append ho, reference?_sum_append ho, h]
  simp only [hrest]

/-- A sum within a sum can be replaced by its operands. -/
theorem reference?_sum_inner (ho : o.flattens = true) (inner rest : List Expr) (ρ : Rationals) :
    (call o.place (call o.place inner :: rest)).reference? registry ρ =
      (call o.place (inner ++ rest)).reference? registry ρ := by
  rw [← List.singleton_append]
  exact reference?_sum_congr ho (reference?_sum_singleton ho _) (fun _ => rfl) ρ

theorem reference?_joined (ho : o.flattens = true) (es : List Expr) (ρ : Rationals) :
    (joined o.place es).reference? registry ρ = (call o.place es).reference? registry ρ := by
  unfold joined
  split
  next f inner rest =>
    split
    next hf =>
      subst hf
      exact (reference?_sum_inner ho inner rest ρ).symm
    next => rfl
  next => rfl

theorem referenceAll?_map_congr {f : Expr → Expr}
    (h : ∀ e ∈ es, ∀ ρ, (f e).reference? registry ρ = e.reference? registry ρ) (ρ : Rationals) :
    referenceAll? registry (es.map f) ρ = referenceAll? registry es ρ := by
  induction es generalizing ρ with
  | nil => rfl
  | cons e rest ih =>
      rw [List.map_cons, referenceAll?, referenceAll?, h e List.mem_cons_self]
      simp only [ih fun e he => h e (List.mem_cons_of_mem _ he)]

/-- The opposite of a number without sign is that number negated. -/
theorem rat?_opposite {v : Value} (h : v.isUnsigned = true) :
    v.opposite.rat? = v.rat?.map fun q => -q := by
  cases v with
  | int k =>
      have hk : 0 ≤ k.toInt := of_decide_eq_true h
      have hleast : k ≠ BitVec.intMin 64 := by
        rintro rfl
        exact absurd hk (by decide)
      rw [Value.opposite, Value.rat?, BitVec.toInt_neg_of_ne_intMin hleast]
      simp [Value.rat?]
  | double x => rfl
  | _ => cases h

/-- The target that is read back is a variable if the target is one. -/
theorem readBack_eq_var {minimal : Bool} {name : String} {i : VariableId}
    (h : e.readBack minimal = .var name i) : e = .var name i := by
  cases e with
  | call f args =>
      obtain ⟨args', hargs⟩ := exists_joined f (spread minimal f args)
      rw [readBack, hargs] at h
      split at h
      · cases h
      · split at h <;> cases h
  | assign target value =>
      rw [readBack] at h
      cases h
  | _ =>
      rw [readBack] at h
      exact h

theorem reference?_assign_of_ne {r : Registry} {target value : Expr}
    (h : ∀ name i, target ≠ .var name i) : (assign target value).reference? r ρ = none := by
  cases target with
  | var name i => exact absurd rfl (h name i)
  | _ => rfl

/-- The tree that is read back stands for the same rational number. -/
theorem reference?_readBack (minimal : Bool) (e : Expr) (ρ : Rationals) :
    (e.readBack minimal).reference? registry ρ = e.reference? registry ρ := by
  induction e using readBack_induction minimal (R := fun o es => ∀ ρ,
    (call o.place (spread minimal o.place es)).reference? registry ρ =
      (call o.place es).reference? registry ρ) generalizing ρ with
  | literal v => rw [readBack]
  | var name id => rw [readBack]
  | constant name v => rw [readBack]
  | signed v hv =>
      rw [readBack, signed?, if_pos ⟨rfl, hv⟩]
      simp only [reference?, Standard.get?_negation, referenceAll?, rat?_opposite hv]
      cases v.rat? with
      | none => rfl
      | some q => rfl
  | sum o args ho hlength _ ih => rw [readBack_of_flattens ho hlength, reference?_joined ho, ih]
  | call id args hsigned hplain ih =>
      rw [readBack_call hsigned hplain, reference?, reference?, referenceAll?_map_congr ih]
  | assign target value _ hvalue =>
      rw [readBack]
      by_cases htarget : ∃ name i, target = .var name i
      · obtain ⟨name, i, rfl⟩ := htarget
        rw [readBack, reference?, reference?, hvalue]
      · have hne : ∀ name i, target ≠ .var name i := fun name i heq => htarget ⟨name, i, heq⟩
        rw [reference?_assign_of_ne hne,
          reference?_assign_of_ne fun name i heq => hne name i (readBack_eq_var heq)]
  | nil o ρ => rw [spread_nil]
  | whole o e rest ho hone ih hrest ρ =>
      rw [spread_cons, hone]
      have hfirst : ∀ ρ, (Expr.call o.place [e.readBack minimal]).reference? registry ρ =
          (Expr.call o.place [e]).reference? registry ρ := fun ρ => by
        rw [reference?_sum_singleton ho, reference?_sum_singleton ho, ih]
      exact reference?_sum_congr ho hfirst hrest ρ
  | own o args rest ho hown ih _ hrest ρ =>
      rw [spread_cons, hown, reference?_sum_inner ho]
      exact reference?_sum_congr ho ih hrest ρ

end Expr

end Reckoner
