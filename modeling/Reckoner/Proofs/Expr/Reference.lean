import Reckoner.Expr.Eval
import Reckoner.Proofs.Standard.Exact

/-!
What a tree means over the rational numbers, and what its evaluation evaluates.
-/
namespace Reckoner

/-- The rational numbers that variables stand for. -/
abbrev Rationals := VariableId → Option ℚ

/-- The rational numbers that a store binds variables to. -/
def Store.rationals (s : Store) : Rationals :=
  fun id => (s.value? id).bind Value.rat?

/-- All bindings are numbers in canonical form. -/
def Store.WellFormed (s : Store) : Prop :=
  ∀ id v, s.value? id = some v → v.WellFormed

theorem Store.WellFormed.set {s : Store} (h : s.WellFormed) (id : VariableId) {v : Value}
    (hv : v.WellFormed) : (s.set id v).WellFormed := by
  intro i u hu
  by_cases hi : i = id
  · subst hi
    rw [value?_set_self] at hu
    cases hu
    exact hv
  · rw [value?_set_of_ne s v hi] at hu
    exact h i u hu

theorem Store.rationals_set (s : Store) (id : VariableId) {v : Value} {q : ℚ}
    (hv : v.rat? = some q) :
    (s.set id v).rationals = fun i => if i = id then some q else s.rationals i := by
  funext i
  by_cases hi : i = id
  · simp [rationals, hi, hv]
  · simp [rationals, hi, value?_set_of_ne s v hi]

namespace Expr

mutual

/-- The rational number that a tree stands for, if it is defined, and those of the variables
afterwards. -/
def reference? (r : Registry) : Expr → Rationals → Option (ℚ × Rationals)
  | literal v, ρ => v.rat?.map fun q => (q, ρ)
  | constant _ v, ρ => v.rat?.map fun q => (q, ρ)
  | var _ id, ρ => (ρ id).map fun q => (q, ρ)
  | call id arguments, ρ =>
    match r.get? id, referenceAll? r arguments ρ with
    | some f, some (qs, ρ) => (Standard.rationalResult? f.name qs).map fun q => (q, ρ)
    | _, _ => none
  | assign (var _ id) value, ρ =>
    match reference? r value ρ with
    | some (q, ρ) => some (q, fun i => if i = id then some q else ρ i)
    | none => none
  | assign _ _, _ => none

/-- The rational numbers that trees stand for, one after the other. -/
def referenceAll? (r : Registry) : List Expr → Rationals → Option (List ℚ × Rationals)
  | [], ρ => some ([], ρ)
  | e :: rest, ρ =>
    match reference? r e ρ with
    | none => none
    | some (q, ρ) =>
      match referenceAll? r rest ρ with
      | none => none
      | some (qs, ρ) => some (q :: qs, ρ)

end

mutual

/-- Every value written out in the tree is a number in canonical form. -/
def WellFormed : Expr → Prop
  | literal v => v.WellFormed
  | constant _ v => v.WellFormed
  | var _ _ => True
  | call _ arguments => WellFormedAll arguments
  | assign target value => WellFormed target ∧ WellFormed value

/-- So it is in several trees. -/
def WellFormedAll : List Expr → Prop
  | [] => True
  | e :: rest => WellFormed e ∧ WellFormedAll rest

end

theorem wellFormedAll_iff {es : List Expr} : WellFormedAll es ↔ ∀ e ∈ es, e.WellFormed := by
  induction es with
  | nil => simp [WellFormedAll]
  | cons e rest ih => simp [WellFormedAll, ih]

mutual

/-- Evaluating the first tree from the first store evaluates the second tree from the second store:
it is the tree itself, or one among the arguments or the assigned value. -/
inductive Reaches (r : Registry) : Expr → Store → Expr → Store → Prop
  | self (e : Expr) (s : Store) : Reaches r e s e s
  | argument {id : FunctionId} {f : NamedFunction} {arguments : List Expr} {e : Expr} {s s' : Store}
      (hf : r.get? id = some f) (h : ReachesAll r arguments s e s') :
      Reaches r (.call id arguments) s e s'
  | assigned {name : String} {id : VariableId} {value e : Expr} {s s' : Store}
      (h : Reaches r value s e s') : Reaches r (.assign (.var name id) value) s e s'

/-- The same for arguments, which are evaluated up to the first error. -/
inductive ReachesAll (r : Registry) : List Expr → Store → Expr → Store → Prop
  | head {first e : Expr} {rest : List Expr} {s s' : Store} (h : Reaches r first s e s') :
      ReachesAll r (first :: rest) s e s'
  | tail {first e : Expr} {rest : List Expr} {s s' : Store}
      (hfirst : (first.eval r s).1.isError = false) (h : ReachesAll r rest (first.eval r s).2 e s') :
      ReachesAll r (first :: rest) s e s'

end

/-- The call divides by zero when it is evaluated from this store. -/
def DividesByZero (r : Registry) (id : FunctionId) (arguments : List Expr) (s : Store) : Prop :=
  ∃ f values s', r.get? id = some f ∧ evalAll r arguments s = (.ok values, s') ∧
    Standard.DividesByZero f.name values

/-! ## Evaluation step by step -/

variable {r : Registry}

theorem eval_call {id : FunctionId} {f : NamedFunction} (hf : r.get? id = some f)
    (arguments : List Expr) (s : Store) :
    (call id arguments).eval r s =
      match evalAll r arguments s with
      | (.ok values, s) => (f.call s values, s)
      | (.error e, s) => (.error e, s) := by
  rcases hall : evalAll r arguments s with ⟨err | values, s'⟩ <;> simp [eval, hf, hall]

theorem evalAll_cons_of_error {first : Expr} {rest : List Expr} {s s' : Store} {err : CalcError}
    (h : first.eval r s = (.error err, s')) : evalAll r (first :: rest) s = (.error err, s') := by
  rw [evalAll, h]

theorem evalAll_cons_of_not_error {first : Expr} {rest : List Expr} {s s' : Store} {v : Value}
    (h : first.eval r s = (v, s')) (hv : v.isError = false) :
    evalAll r (first :: rest) s =
      match evalAll r rest s' with
      | (.ok vs, s) => (.ok (v :: vs), s)
      | (.error err, s) => (.error err, s) := by
  rw [evalAll, h]
  cases v with
  | error err => cases hv
  | _ => rfl

/-- The value is an error or not. -/
theorem eval_cases (r : Registry) (e : Expr) (s : Store) :
    (∃ err s', e.eval r s = (.error err, s')) ∨
      ∃ v s', e.eval r s = (v, s') ∧ v.isError = false := by
  rcases heval : e.eval r s with ⟨v, s'⟩
  cases herror : v.isError with
  | true =>
      obtain ⟨err, rfl⟩ := Value.exists_of_isError herror
      exact .inl ⟨err, s', rfl⟩
  | false => exact .inr ⟨v, s', rfl, herror⟩

theorem eval_assign (name : String) (id : VariableId) {value : Expr} {s s' : Store} {v : Value}
    (h : value.eval r s = (v, s')) :
    (assign (.var name id) value).eval r s = if v.isError then (v, s') else (v, s'.set id v) := by
  rw [eval, h]
  cases v <;> rfl

end Expr

end Reckoner
