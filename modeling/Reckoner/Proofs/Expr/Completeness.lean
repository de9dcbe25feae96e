import Reckoner.Proofs.Expr.Soundness

/-!
Evaluation in the exact mode is complete.

A tree that stands for a rational number is evaluated to its canonical form or to a double in its
place, and never to an error. So two trees that stand for the same number have the same value, but
for doubles.
-/
namespace Reckoner

/-- Every variable that stands for a number is bound to its canonical form or to a double. -/
def Store.Approximates (s : Store) (ρ : Rationals) : Prop :=
  ∀ id q, ρ id = some q → ∃ v, s.value? id = some v ∧ v.Approximates q

theorem Store.WellFormed.approximates_rationals {s : Store} (hs : s.WellFormed) :
    s.Approximates s.rationals := by
  intro id q hq
  obtain ⟨v, hv, hrat⟩ := Option.bind_eq_some_iff.1 hq
  exact ⟨v, hv, .inl ⟨hs id v hv, hrat⟩⟩

theorem Store.Approximates.set {s : Store} {ρ : Rationals} (hs : s.Approximates ρ)
    (id : VariableId) {v : Value} {q : ℚ} (hv : v.Approximates q) :
    (s.set id v).Approximates fun i => if i = id then some q else ρ i := by
  intro i p hp
  by_cases hi : i = id
  · subst hi
    obtain rfl : q = p := by simpa using hp
    exact ⟨v, s.value?_set_self i v, hv⟩
  · rw [Store.value?_set_of_ne s v hi]
    exact hs i p (by simpa [hi] using hp)

namespace Expr

open Standard (registry)

variable {s : Store} {ρ ρ₁ : Rationals} {v : Value} {q : ℚ} {qs : List ℚ}

theorem approximates_of_rat? (hv : v.WellFormed) (h : v.rat?.map (fun q => (q, ρ)) = some (q, ρ₁)) :
    v.Approximates q ∧ ρ = ρ₁ := by
  obtain ⟨p, hp, hpair⟩ := Option.map_eq_some_iff.1 h
  cases hpair
  exact ⟨.inl ⟨hv, hp⟩, rfl⟩

/-- A call of a function whose arguments approximate numbers for which it is defined. -/
theorem call_approximates {id : FunctionId} {f : NamedFunction} {values : List Value}
    (hf : registry.get? id = some f) (hmode : s.mode = .exact)
    (hvalues : List.Forall₂ Value.Approximates values qs)
    (hq : Standard.rationalResult? f.name qs = some q) :
    (f.call s values).Approximates q := by
  have hwell : ∀ v ∈ values, v.WellFormed :=
    (List.forall₂_and_left values qs).1 (hvalues.imp fun _ _ hv => ⟨hv.wellFormed, hv⟩) |>.1
  have houtcome := Standard.outcome_call hf hmode hwell
  generalize f.call s values = v at houtcome
  cases houtcome with
  | exact hargs hresult hv =>
      rw [Value.mapM_rat?_eq_of_approximates hargs hvalues, hresult] at hq
      cases hq
      exact .inl hv
  | double x => exact .inr ⟨x, rfl⟩
  | error _ hnone =>
      rw [hnone qs hvalues] at hq
      cases hq

mutual

/-- A tree that stands for a number is evaluated to it, or to a double. -/
theorem eval_approximates : ∀ (e : Expr) (s : Store) {ρ ρ₁ : Rationals} {q : ℚ}, e.WellFormed →
    s.mode = .exact → s.WellFormed → s.Approximates ρ → e.reference? registry ρ = some (q, ρ₁) →
    (e.eval registry s).1.Approximates q ∧ (e.eval registry s).2.Approximates ρ₁
  | .literal v, s, ρ, ρ₁, q, he, _, _, hρ, hq => by
      obtain ⟨hv, rfl⟩ := approximates_of_rat? he hq
      exact ⟨hv, hρ⟩
  | .constant name v, s, ρ, ρ₁, q, he, _, _, hρ, hq => by
      obtain ⟨hv, rfl⟩ := approximates_of_rat? he hq
      exact ⟨hv, hρ⟩
  | .var name id, s, ρ, ρ₁, q, _, _, _, hρ, hq => by
      obtain ⟨p, hp, hpair⟩ := Option.map_eq_some_iff.1 hq
      cases hpair
      obtain ⟨v, hvalue, hv⟩ := hρ id q hp
      simp only [eval, hvalue]
      exact ⟨hv, hρ⟩
  | .call id arguments, s, ρ, ρ₁, q, he, hmode, hs, hρ, hq => by
      rw [reference?] at hq
      split at hq
      · next f qs ρ₂ hf hall =>
          obtain ⟨p, hp, hpair⟩ := Option.map_eq_some_iff.1 hq
          cases hpair
          obtain ⟨values, hvalues, happroximates, hafter⟩ :=
            evalAll_approximates arguments s he hmode hs hρ hall
          have hmode₁ := (soundAllAt_evalAll arguments s he hmode hs).mode
          rw [eval_call hf]
          rcases heval : evalAll registry arguments s with ⟨result, s₁⟩
          rw [heval] at hvalues hafter hmode₁
          obtain rfl : result = .ok values := hvalues
          exact ⟨call_approximates hf hmode₁ happroximates hp, hafter⟩
      · cases hq
  | .assign target value, s, ρ, ρ₁, q, he, hmode, hs, hρ, hq => by
      cases target with
      | var name id =>
          rw [reference?] at hq
          split at hq
          · next p ρ₂ hvalue =>
              cases hq
              obtain ⟨hv, hafter⟩ := eval_approximates value s he.2 hmode hs hρ hvalue
              rw [eval_assign name id rfl, hv.wellFormed.not_isError]
              exact ⟨hv, hafter.set id hv⟩
          · cases hq
      | _ => cases hq

theorem evalAll_approximates : ∀ (es : List Expr) (s : Store) {ρ ρ₁ : Rationals} {qs : List ℚ},
    WellFormedAll es → s.mode = .exact → s.WellFormed → s.Approximates ρ →
    referenceAll? registry es ρ = some (qs, ρ₁) → ∃ values, (evalAll registry es s).1 = .ok values ∧
      List.Forall₂ Value.Approximates values qs ∧ (evalAll registry es s).2.Approximates ρ₁
  | [], s, ρ, ρ₁, qs, _, _, _, hρ, hqs => by
      cases hqs
      exact ⟨[], rfl, .nil, hρ⟩
  | e :: rest, s, ρ, ρ₁, qs, hes, hmode, hs, hρ, hqs => by
      rw [referenceAll?] at hqs
      split at hqs
      · cases hqs
      · next q ρ₂ hfirst =>
          split at hqs
          · cases hqs
          · next qs' ρ₃ hrest =>
              cases hqs
              obtain ⟨hv, hbetween⟩ := eval_approximates e s hes.1 hmode hs hρ hfirst
              have hsound := soundAt_eval e s hes.1 hmode hs
              obtain ⟨values, hvalues, happroximates, hafter⟩ :=
                evalAll_approximates rest _ hes.2 hsound.mode hsound.store hbetween hrest
              refine ⟨(e.eval registry s).1 :: values, ?_⟩
              rw [evalAll_cons_of_not_error rfl hv.wellFormed.not_isError]
              rcases heval : evalAll registry rest (e.eval registry s).2 with ⟨result, s₁⟩
              rw [heval] at hvalues hafter
              obtain rfl : result = .ok values := hvalues
              exact ⟨rfl, .cons hv happroximates, hafter⟩

end

/-- Where one of two trees for the same number has an exact value, the other has the same one or a
double. -/
theorem eval_eq_or_double {e e' : Expr} (he : e.WellFormed) (he' : e'.WellFormed)
    (hmode : s.mode = .exact) (hs : s.WellFormed)
    (hreference : e'.reference? registry s.rationals = e.reference? registry s.rationals)
    (hq : (e.eval registry s).1.rat? = some q) :
    (e'.eval registry s).1 = (e.eval registry s).1 ∨ ∃ x, (e'.eval registry s).1 = .double x := by
  have hsound := soundAt_eval e s he hmode hs
  have hdefined := hreference.trans (hsound.exact q hq).1
  obtain ⟨hv | hdouble, -⟩ :=
    eval_approximates e' s he' hmode hs hs.approximates_rationals hdefined
  · exact .inl (hv.unique ⟨hsound.wellFormed_of_rat? hq, hq⟩)
  · exact .inr hdouble

end Expr

end Reckoner
