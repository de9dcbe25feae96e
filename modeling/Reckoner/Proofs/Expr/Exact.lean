import Reckoner.Proofs.Expr.Reference
import Reckoner.Proofs.Parser.Trees

/-!
Evaluation in the exact mode is sound.

By induction on the tree, an exact value is the rational number that the tree stands for, and every
value on the way was exact too; and where the value is a division by zero, some call divided by
zero. What a single call may give is `Standard.outcome_call`.
-/
namespace Reckoner

namespace Expr

open Standard (registry)

/-- What evaluation in the exact mode promises of the value and the store that it gives. -/
structure SoundAt (e : Expr) (s : Store) (v : Value) (s' : Store) : Prop where
  mode : s'.mode = .exact
  store : s'.WellFormed
  value : v.WellFormed ∨ v.isError = true
  exact : ∀ q, v.rat? = some q → e.reference? registry s.rationals = some (q, s'.rationals) ∧
    ∀ e₁ s₁, Reaches registry e s e₁ s₁ → (e₁.eval registry s₁).1.rat?.isSome = true
  zero : ∀ err, v = .error err → err.kind = .divisionByZero →
    ∃ id arguments s₁, Reaches registry e s (.call id arguments) s₁ ∧
      DividesByZero registry id arguments s₁

/-- The same for several trees, with the values of all or the first error. -/
structure SoundAllAt (es : List Expr) (s : Store) (result : Except CalcError (List Value))
    (s' : Store) : Prop where
  mode : s'.mode = .exact
  store : s'.WellFormed
  values : ∀ vs, result = .ok vs → ∀ v ∈ vs, v.WellFormed
  exact : ∀ vs qs, result = .ok vs → vs.mapM Value.rat? = some qs →
    referenceAll? registry es s.rationals = some (qs, s'.rationals) ∧
      ∀ e₁ s₁, ReachesAll registry es s e₁ s₁ → (e₁.eval registry s₁).1.rat?.isSome = true
  zero : ∀ err, result = .error err → err.kind = .divisionByZero →
    ∃ id arguments s₁, ReachesAll registry es s (.call id arguments) s₁ ∧
      DividesByZero registry id arguments s₁

variable {e : Expr} {es : List Expr} {s s' : Store} {v : Value}

/-- A tree that is its own only sub-evaluation and gives a value that is no error. -/
theorem soundAt_leaf (hmode : s.mode = .exact) (hs : s.WellFormed) (hv : v.WellFormed)
    (heval : e.eval registry s = (v, s))
    (hreference : ∀ q, v.rat? = some q → e.reference? registry s.rationals = some (q, s.rationals))
    (hreaches : ∀ e₁ s₁, Reaches registry e s e₁ s₁ → e₁ = e ∧ s₁ = s) :
    SoundAt e s (e.eval registry s).1 (e.eval registry s).2 := by
  rw [heval]
  refine ⟨hmode, hs, .inl hv, fun q hq => ⟨hreference q hq, fun e₁ s₁ h => ?_⟩, ?_⟩
  · obtain ⟨rfl, rfl⟩ := hreaches e₁ s₁ h
    rw [heval, hq]
    rfl
  · rintro err rfl
    exact absurd hv id

/-- An error of another kind than division by zero. -/
theorem soundAt_fail (hmode : s.mode = .exact) (hs : s.WellFormed) {kind : ErrorKind}
    {message : String} (hkind : kind ≠ .divisionByZero) :
    SoundAt e s (.fail kind message) s where
  mode := hmode
  store := hs
  value := .inr rfl
  exact := fun q hq => by cases hq
  zero := by
    intro err herr hzero
    cases herr
    exact absurd hzero hkind

theorem isError_of_eq_error {err : CalcError} (h : v = .error err) : v.isError = true := by
  rw [h]
  rfl

theorem isError_of_rat? {q : ℚ} (h : v.rat? = some q) : v.isError = false := by
  cases v <;> first | rfl | cases h

/-- A call, from what is known of its arguments. -/
theorem soundAt_call {id : FunctionId} {f : NamedFunction} {arguments : List Expr}
    (hf : registry.get? id = some f)
    (h : SoundAllAt arguments s (evalAll registry arguments s).1 (evalAll registry arguments s).2) :
    SoundAt (.call id arguments) s ((Expr.call id arguments).eval registry s).1
      ((Expr.call id arguments).eval registry s).2 := by
  have heval := eval_call hf arguments s
  rcases hall : evalAll registry arguments s with ⟨err | values, s'⟩
  · rw [hall] at h heval
    rw [heval]
    refine ⟨h.mode, h.store, .inr rfl, fun q hq => (by cases hq), ?_⟩
    intro err' herr hkind
    cases herr
    obtain ⟨id', arguments', s₁, hreaches, hzero⟩ := h.zero err rfl hkind
    exact ⟨id', arguments', s₁, .argument hf hreaches, hzero⟩
  · rw [hall] at h heval
    have hmode : s'.mode = .exact := h.mode
    have houtcome := Standard.outcome_call hf hmode (h.values values rfl)
    dsimp only at heval
    generalize f.call s' values = v at houtcome heval
    rw [heval]
    have hvalue : v.WellFormed ∨ v.isError = true := by
      cases houtcome with
      | exact _ _ hv => exact .inl hv.1
      | double x => exact .inl trivial
      | error _ _ => exact .inr rfl
    refine ⟨hmode, h.store, hvalue, ?_, ?_⟩
    · intro q hq
      obtain ⟨qs, hargs, hresult⟩ : ∃ qs, values.mapM Value.rat? = some qs ∧
          Standard.rationalResult? f.name qs = some q := by
        cases houtcome with
        | exact hargs hresult hv =>
            rw [hv.2] at hq
            cases hq
            exact ⟨_, hargs, hresult⟩
        | double x => cases hq
        | error _ _ => cases hq
      obtain ⟨hreference, hreaches⟩ := h.exact values qs rfl hargs
      refine ⟨?_, ?_⟩
      · rw [reference?, hf]
        simp only [hreference, hresult, Option.map_some]
      · intro e₁ s₁ hreach
        cases hreach with
        | self =>
            rw [heval]
            exact Option.isSome_iff_exists.2 ⟨q, hq⟩
        | argument _ hreach => exact hreaches e₁ s₁ hreach
    · rintro err rfl hkind
      refine ⟨id, arguments, s, .self _ _, f, values, s', hf, hall, ?_⟩
      cases houtcome with
      | exact _ _ hv => exact absurd hv.1 not_false
      | error hzero _ => exact hzero hkind

/-- An assignment to a variable, from what is known of the assigned value. -/
theorem soundAt_assign (name : String) (id : VariableId) {value : Expr}
    (h : SoundAt value s (value.eval registry s).1 (value.eval registry s).2) :
    SoundAt (.assign (.var name id) value) s
      ((Expr.assign (.var name id) value).eval registry s).1
      ((Expr.assign (.var name id) value).eval registry s).2 := by
  rcases hvalue : value.eval registry s with ⟨v, s'⟩
  have heval := eval_assign name id hvalue
  rw [hvalue] at h
  rcases h.value with hwell | herror
  · have hnoError : v.isError = false := hwell.not_isError
    simp only [hnoError, Bool.false_eq_true, if_false] at heval
    rw [heval]
    refine ⟨h.mode, h.store.set id hwell, .inl hwell, ?_, ?_⟩
    · intro q hq
      obtain ⟨hreference, hreaches⟩ := h.exact q hq
      refine ⟨?_, ?_⟩
      · rw [reference?, hreference, s'.rationals_set id hq]
      · intro e₁ s₁ hreach
        cases hreach with
        | self =>
            rw [heval]
            exact Option.isSome_iff_exists.2 ⟨q, hq⟩
        | assigned hreach => exact hreaches e₁ s₁ hreach
    · intro err herr hkind
      exact absurd (isError_of_eq_error herr) (by simp [hnoError])
  · have herror : v.isError = true := herror
    simp only [herror, if_true] at heval
    rw [heval]
    refine ⟨h.mode, h.store, .inr herror, ?_, ?_⟩
    · intro q hq
      exact absurd (isError_of_rat? hq) (by simp [herror])
    · intro err herr hkind
      obtain ⟨id', arguments, s₁, hreach, hzero⟩ := h.zero err herr hkind
      exact ⟨id', arguments, s₁, .assigned hreach, hzero⟩

/-- An argument whose value is an error is the last one that is evaluated. -/
theorem soundAllAt_cons_of_error {err : CalcError} (rest : List Expr)
    (h : SoundAt e s (.error err) s') : SoundAllAt (e :: rest) s (.error err) s' where
  mode := h.mode
  store := h.store
  values := fun vs hvs => by cases hvs
  exact := fun vs qs hvs => by cases hvs
  zero := by
    intro err' herr hkind
    cases herr
    obtain ⟨id, arguments, s₁, hreach, hzero⟩ := h.zero err rfl hkind
    exact ⟨id, arguments, s₁, .head hreach, hzero⟩

/-- After an argument with a value the others are evaluated. -/
theorem soundAllAt_cons_of_value {rest : List Expr} {s₁ : Store}
    {result : Except CalcError (List Value)} (heval : e.eval registry s = (v, s₁))
    (hv : v.WellFormed) (hfirst : SoundAt e s v s₁) (hrest : SoundAllAt rest s₁ result s') :
    SoundAllAt (e :: rest) s (result.map (v :: ·)) s' := by
  have hreachesTail : ∀ {e' s'}, ReachesAll registry rest s₁ e' s' →
      ReachesAll registry (e :: rest) s e' s' := by
    intro e' s' h
    refine .tail (by rw [heval]; exact hv.not_isError) ?_
    rw [heval]
    exact h
  cases result with
  | error err =>
      refine ⟨hrest.mode, hrest.store, fun vs hvs => (by cases hvs), fun vs qs hvs => (by cases hvs),
        ?_⟩
      intro err' herr hkind
      cases herr
      obtain ⟨id, arguments, s₂, hreach, hzero⟩ := hrest.zero err rfl hkind
      exact ⟨id, arguments, s₂, hreachesTail hreach, hzero⟩
  | ok vs =>
      refine ⟨hrest.mode, hrest.store, ?_, ?_, fun err herr => (by cases herr)⟩
      · intro vs' hvs
        cases hvs
        exact List.forall_mem_cons.2 ⟨hv, hrest.values vs rfl⟩
      · intro vs' qs hvs hqs
        cases hvs
        obtain ⟨q, qs', hq, hqs', rfl⟩ := Value.mapM_cons_eq_some hqs
        obtain ⟨hreference, hreaches⟩ := hfirst.exact q hq
        obtain ⟨hreferenceRest, hreachesRest⟩ := hrest.exact vs qs' rfl hqs'
        refine ⟨?_, ?_⟩
        · rw [referenceAll?, hreference]
          simp only [hreferenceRest]
        · intro e₁ s₂ hreach
          cases hreach with
          | head hreach => exact hreaches e₁ s₂ hreach
          | tail _ hreach =>
              rw [heval] at hreach
              exact hreachesRest e₁ s₂ hreach

/-- One more argument, from what is known of it and of the others. -/
theorem soundAllAt_cons {rest : List Expr}
    (hfirst : SoundAt e s (e.eval registry s).1 (e.eval registry s).2)
    (hrest : SoundAllAt rest (e.eval registry s).2 (evalAll registry rest (e.eval registry s).2).1
      (evalAll registry rest (e.eval registry s).2).2) :
    SoundAllAt (e :: rest) s (evalAll registry (e :: rest) s).1
      (evalAll registry (e :: rest) s).2 := by
  rcases heval : e.eval registry s with ⟨v, s₁⟩
  rw [heval] at hfirst hrest
  rcases hfirst.value with hwell | herror
  · rw [evalAll_cons_of_not_error heval hwell.not_isError]
    have hcons := soundAllAt_cons_of_value heval hwell hfirst hrest
    rcases hall : evalAll registry rest s₁ with ⟨err | vs, s'⟩ <;>
      rwa [hall] at hcons
  · obtain ⟨err, rfl⟩ := Value.exists_of_isError herror
    rw [evalAll_cons_of_error heval]
    exact soundAllAt_cons_of_error rest hfirst

mutual

theorem soundAt_eval : ∀ (e : Expr) (s : Store), e.WellFormed → s.mode = .exact → s.WellFormed →
    SoundAt e s (e.eval registry s).1 (e.eval registry s).2
  | .literal v, s, he, hmode, hs => by
      refine soundAt_leaf hmode hs he (by rw [eval]) ?_ ?_
      · intro q hq
        rw [reference?, hq]
        rfl
      · rintro e₁ s₁ ⟨⟩
        exact ⟨rfl, rfl⟩
  | .constant name v, s, he, hmode, hs => by
      refine soundAt_leaf hmode hs he (by rw [eval]) ?_ ?_
      · intro q hq
        rw [reference?, hq]
        rfl
      · rintro e₁ s₁ ⟨⟩
        exact ⟨rfl, rfl⟩
  | .var name id, s, _, hmode, hs => by
      cases hvalue : s.value? id with
      | none =>
          simp only [eval, hvalue]
          exact soundAt_fail hmode hs (by decide)
      | some v =>
          refine soundAt_leaf hmode hs (hs id v hvalue) (by simp only [eval, hvalue]) ?_ ?_
          · intro q hq
            simp only [reference?, Store.rationals, hvalue, Option.bind_some, hq, Option.map_some]
          · rintro e₁ s₁ ⟨⟩
            exact ⟨rfl, rfl⟩
  | .call id arguments, s, he, hmode, hs => by
      cases hf : registry.get? id with
      | none =>
          simp only [eval, hf]
          exact soundAt_fail hmode hs (by decide)
      | some f => exact soundAt_call hf (soundAllAt_evalAll arguments s he hmode hs)
  | .assign target value, s, he, hmode, hs => by
      cases target with
      | var name id => exact soundAt_assign name id (soundAt_eval value s he.2 hmode hs)
      | _ =>
          simp only [eval]
          exact soundAt_fail hmode hs (by decide)

theorem soundAllAt_evalAll : ∀ (es : List Expr) (s : Store), WellFormedAll es → s.mode = .exact →
    s.WellFormed → SoundAllAt es s (evalAll registry es s).1 (evalAll registry es s).2
  | [], s, _, hmode, hs => by
      simp only [evalAll]
      refine ⟨hmode, hs, ?_, ?_, ?_⟩
      · intro vs hvs
        cases hvs
        simp
      · intro vs qs hvs hqs
        cases hvs
        cases hqs
        refine ⟨rfl, ?_⟩
        rintro e₁ s₁ ⟨⟩
      · intro err herr
        cases herr
  | e :: rest, s, hes, hmode, hs => by
      have hfirst := soundAt_eval e s hes.1 hmode hs
      exact soundAllAt_cons hfirst
        (soundAllAt_evalAll rest (e.eval registry s).2 hes.2 hfirst.mode hfirst.store)

end

end Expr

end Reckoner
