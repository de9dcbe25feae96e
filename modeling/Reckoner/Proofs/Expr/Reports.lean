import Reckoner.Proofs.Expr.Effects
import Reckoner.Proofs.Standard.Reports

/-!
Evaluation with the report of its arithmetic.

As long as the bindings and the numbers in the tree are in canonical form, so are all values on the
way, and no call that is evaluated has anything to report. Both go by induction on the tree, with
the store that the evaluations to the left leave.
-/
namespace Reckoner

/-- Every binding is in canonical form and no error. -/
def Store.Canonical (s : Store) : Prop :=
  ∀ id v, s.value? id = some v → v.Canonical ∧ v.isError = false

theorem Store.Canonical.set {s : Store} (h : s.Canonical) (id : VariableId) {v : Value}
    (hv : v.Canonical) (herror : v.isError = false) : (s.set id v).Canonical := by
  intro i u hu
  by_cases hid : i = id
  · subst hid
    rw [value?_set_self] at hu
    cases hu
    exact ⟨hv, herror⟩
  · rw [value?_set_of_ne s v hid] at hu
    exact h i u hu

theorem Store.Canonical.unset {s : Store} (h : s.Canonical) (id : VariableId) :
    (s.unset id).Canonical := by
  intro i u hu
  by_cases hid : i = id
  · subst hid
    rw [value?_unset_self] at hu
    cases hu
  · rw [value?_unset_of_ne s hid] at hu
    exact h i u hu

namespace Expr

open Checked
open Standard (registry callReporting)

mutual

/-- The value of an expression and the store afterwards, with the report of all calls. -/
def evalReporting (r : Registry) : Expr → Store → Checked (Value × Store)
  | literal v, s => return (v, s)
  | constant _ v, s => return (v, s)
  | var name id, s =>
    match s.value? id with
    | some v => return (v, s)
    | none => return (.fail .unboundVariable ("Variable " ++ name ++ " is not bound"), s)
  | call id arguments, s =>
    match r.get? id with
    | none => return (.fail .invalidOperation "Unknown function handle", s)
    | some f => do
      match ← evalAllReporting r arguments s with
      | (.ok values, s) => return (← callReporting f s values, s)
      | (.error e, s) => return (.error e, s)
  | assign (var _ id) value, s => do
    match ← evalReporting r value s with
    | (.error e, s) => return (.error e, s)
    | (v, s) => return (v, s.set id v)
  | assign _ _, s => return (.fail .badType "Variable expected on left side", s)

/-- The values of arguments up to the first error, with the report. -/
def evalAllReporting (r : Registry) :
    List Expr → Store → Checked (Except CalcError (List Value) × Store)
  | [], s => return (.ok [], s)
  | e :: rest, s => do
    match ← evalReporting r e s with
    | (.error err, s) => return (.error err, s)
    | (v, s) =>
      match ← evalAllReporting r rest s with
      | (.ok vs, s) => return (.ok (v :: vs), s)
      | (.error err, s) => return (.error err, s)

end

/-! ## Canonical values -/

/-- What evaluation gives from canonical bindings: a canonical value, and canonical bindings. -/
def CanonicalAt (v : Value) (s : Store) : Prop :=
  v.Canonical ∧ s.Canonical

/-- The same for several trees. -/
def CanonicalAllAt (result : Except CalcError (List Value)) (s : Store) : Prop :=
  (∀ vs, result = .ok vs → ∀ v ∈ vs, v.Canonical) ∧ s.Canonical

mutual

theorem canonical_eval : ∀ (e : Expr) (s : Store), e.WellFormed → s.Canonical →
    CanonicalAt (e.eval registry s).1 (e.eval registry s).2
  | .literal v, s, he, hs => by
      rw [eval]
      exact ⟨Value.WellFormed.canonical he, hs⟩
  | .constant name v, s, he, hs => by
      rw [eval]
      exact ⟨Value.WellFormed.canonical he, hs⟩
  | .var name id, s, _, hs => by
      cases hvalue : s.value? id with
      | none =>
          simp only [eval, hvalue]
          exact ⟨Value.canonical_of_isError rfl, hs⟩
      | some v =>
          simp only [eval, hvalue]
          exact ⟨(hs id v hvalue).1, hs⟩
  | .call id arguments, s, he, hs => by
      cases hf : registry.get? id with
      | none =>
          simp only [eval, hf]
          exact ⟨Value.canonical_of_isError rfl, hs⟩
      | some f =>
          have hstore := (canonical_evalAll arguments s he hs).2
          rw [eval_call hf]
          rcases hall : evalAll registry arguments s with ⟨err | values, s'⟩ <;> rw [hall] at hstore
          · exact ⟨Value.canonical_of_isError rfl, hstore⟩
          · exact ⟨Standard.canonical_call hf s' values, hstore⟩
  | .assign target value, s, he, hs => by
      cases target with
      | var name id =>
          obtain ⟨hv, hstore⟩ := canonical_eval value s he.2 hs
          rw [eval_assign name id rfl]
          split
          · exact ⟨hv, hstore⟩
          · next herror => exact ⟨hv, hstore.set id hv (by simpa using herror)⟩
      | _ =>
          simp only [eval]
          exact ⟨Value.canonical_of_isError rfl, hs⟩

theorem canonical_evalAll : ∀ (es : List Expr) (s : Store), WellFormedAll es → s.Canonical →
    CanonicalAllAt (evalAll registry es s).1 (evalAll registry es s).2
  | [], s, _, hs => by
      rw [evalAll]
      refine ⟨fun vs hvs => ?_, hs⟩
      cases hvs
      simp
  | e :: rest, s, hes, hs => by
      obtain ⟨hv, hstore⟩ := canonical_eval e s hes.1 hs
      rcases evalAll_cons (r := registry) e rest s with ⟨err, -, hall⟩ | ⟨-, hall⟩
      · rw [hall]
        exact ⟨nofun, hstore⟩
      · obtain ⟨hvalues, hstore'⟩ := canonical_evalAll rest (e.eval registry s).2 hes.2 hstore
        rw [hall]
        refine ⟨fun vs hvs => ?_, hstore'⟩
        rcases hrest : (evalAll registry rest (e.eval registry s).2).1 with err | vs'
        · rw [hrest] at hvs
          cases hvs
        · rw [hrest] at hvs
          cases hvs
          exact List.forall_mem_cons.2 ⟨hv, hvalues vs' hrest⟩

end

/-! ## No report -/

mutual

theorem gives_eval : ∀ (e : Expr) (s : Store), e.WellFormed → s.Canonical →
    Gives (e.evalReporting registry s) (e.eval registry s)
  | .literal v, s, _, _ => by
      rw [evalReporting, eval]
      exact gives_pure _
  | .constant name v, s, _, _ => by
      rw [evalReporting, eval]
      exact gives_pure _
  | .var name id, s, _, _ => by
      rw [evalReporting, eval]
      cases s.value? id <;> exact gives_pure _
  | .call id arguments, s, he, hs => by
      cases hf : registry.get? id with
      | none =>
          simp only [evalReporting, eval, hf]
          exact gives_pure _
      | some f =>
          have hvalues := (canonical_evalAll arguments s he hs).1
          simp only [evalReporting, hf]
          rw [eval_call hf]
          refine (gives_evalAll arguments s he hs).bind ?_
          rcases hall : evalAll registry arguments s with ⟨err | values, s'⟩
          · exact gives_pure _
          · rw [hall] at hvalues
            exact (Standard.gives_call hf s' (hvalues values rfl)).bind (gives_pure _)
  | .assign target value, s, he, hs => by
      cases target with
      | var name id =>
          rw [evalReporting, eval]
          refine (gives_eval value s he.2 hs).bind ?_
          rcases value.eval registry s with ⟨v, s'⟩
          cases v <;> exact gives_pure _
      | _ =>
          simp only [evalReporting, eval]
          exact gives_pure _

theorem gives_evalAll : ∀ (es : List Expr) (s : Store), WellFormedAll es → s.Canonical →
    Gives (evalAllReporting registry es s) (evalAll registry es s)
  | [], s, _, _ => by
      rw [evalAllReporting, evalAll]
      exact gives_pure _
  | e :: rest, s, hes, hs => by
      have hstore := (canonical_eval e s hes.1 hs).2
      rw [evalAllReporting, evalAll]
      refine (gives_eval e s hes.1 hs).bind ?_
      rcases heval : e.eval registry s with ⟨v, s'⟩
      rw [heval] at hstore
      cases v with
      | error err => exact gives_pure _
      | _ =>
          refine (gives_evalAll rest s' hes.2 hstore).bind ?_
          dsimp only
          rcases evalAll registry rest s' with ⟨err | vs, s''⟩ <;> exact gives_pure _

end

end Expr

end Reckoner
