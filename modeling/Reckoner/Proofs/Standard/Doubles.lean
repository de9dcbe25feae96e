import Reckoner.Proofs.Standard.Fallback
import Reckoner.Proofs.Standard.Reading

/-!
Where doubles come from in the exact mode.

What an exact attempt gives is a whole number, a fraction or an error, never a double. So a double
that a standard function gives in the exact mode is what it gives in floating point for the same
operands.
-/
namespace Reckoner

/-- The value is no double. -/
def Value.NoDouble (v : Value) : Prop :=
  ∀ x, v ≠ .double x

theorem Value.noDouble_ofFraction (f : Fraction 64) : (ofFraction f).NoDouble := by
  intro x
  unfold ofFraction
  dsimp only
  split
  · split <;> exact nofun
  · exact nofun

namespace Standard

open Value (NoDouble noDouble_ofFraction)

variable {args : List Value} {u v a b : Value} {x : Float} {op : Float → Float → Float}

/-! ## Exact attempts -/

theorem noDouble_of_map {o : Option (Fraction 64)} (h : o.map Value.ofFraction = some v) :
    v.NoDouble := by
  obtain ⟨f, -, rfl⟩ := Option.map_eq_some_iff.1 h
  exact noDouble_ofFraction f

theorem noDouble_foldExact {exact : FractionOperation} {acc : Fraction 64}
    (h : foldExact exact acc args = some v) : v.NoDouble := by
  induction args generalizing acc with
  | nil =>
      cases h
      exact noDouble_ofFraction acc
  | cons a rest ih =>
      rw [foldExact] at h
      split at h
      · cases h
      · split at h
        · cases h
        · exact ih h

theorem noDouble_twoExact {exact : FractionOperation} (h : twoExact exact a b = some v) :
    v.NoDouble := by
  unfold twoExact at h
  split at h
  · exact noDouble_of_map h
  · cases h

theorem noDouble_powerExact {base : Fraction 64} {n : BitVec 64} (h : powerExact base n = some v) :
    v.NoDouble := by
  unfold powerExact at h
  split at h
  · split at h <;> cases h <;> exact nofun
  · split at h
    · cases h
      exact nofun
    · split at h
      · cases h
      · split at h
        · exact noDouble_of_map h
        · cases h
          exact noDouble_ofFraction _

/-- The attempt gives no double. -/
def Attempt.NoDouble (a : Attempt) : Prop :=
  ∀ v, a = .done v → v.NoDouble

theorem Attempt.noDouble_ofOption {o : Option Value} (h : ∀ v, o = some v → v.NoDouble) :
    (Attempt.ofOption o).NoDouble := by
  cases o with
  | none => exact nofun
  | some u =>
      rintro v ⟨⟩
      exact h u rfl

/-- A double in the place of an attempt that gives none is the one to fall back on. -/
theorem Attempt.NoDouble.eq_of_getD {a : Attempt} (h : a.NoDouble) (hx : a.getD u = .double x) :
    u = .double x := by
  cases a with
  | done v => exact absurd hx (h v rfl x)
  | untried => exact hx
  | failed => exact hx

theorem noDouble_attemptDivide (a b : Value) : (attemptDivide .exact a b).NoDouble := by
  unfold attemptDivide
  split
  · exact nofun
  · split
    · rintro v ⟨⟩
      exact nofun
    · exact Attempt.noDouble_ofOption fun _ => noDouble_twoExact

theorem noDouble_attemptPower (a b : Value) : (attemptPower .exact a b).NoDouble := by
  unfold attemptPower
  dsimp only [attemptIn]
  split
  · exact Attempt.noDouble_ofOption fun _ => noDouble_powerExact
  · exact nofun

/-! ## The functions -/

theorem add_float_of_exact (h : add .exact args = .double x) : add .float args = .double x := by
  unfold add at h ⊢
  split at h
  · exact h
  · exact (Attempt.noDouble_ofOption fun _ => noDouble_foldExact).eq_of_getD h

theorem multiply_float_of_exact (h : multiply .exact args = .double x) :
    multiply .float args = .double x := by
  unfold multiply at h ⊢
  split at h
  · exact h
  · exact (Attempt.noDouble_ofOption fun _ => noDouble_foldExact).eq_of_getD h

theorem binary_float_of_exact {attempt : Mode → Value → Value → Attempt}
    (hexact : ∀ a b, (attempt .exact a b).NoDouble)
    (hfloat : ∀ a b u, (attempt .float a b).getD u = u)
    (h : binary attempt op .exact args = .double x) :
    binary attempt op .float args = .double x := by
  unfold binary at h ⊢
  split at h
  · split at h
    · exact h
    · rw [hfloat]
      exact (hexact _ _).eq_of_getD h
  · cases h

theorem unaryExact_float_of_exact {exact : Fraction 64 → Option Value} {op : Float → Float}
    (hexact : ∀ q v, exact q = some v → v.NoDouble)
    (h : unaryExact exact op .exact args = .double x) :
    unaryExact exact op .float args = .double x := by
  unfold unaryExact at h ⊢
  split at h
  · next a _ =>
      cases hv : a.toFraction?.bind exact with
      | none =>
          rw [hv] at h
          exact h
      | some v =>
          obtain ⟨q, -, hq⟩ := Option.bind_eq_some_iff.1 hv
          rw [hv] at h
          exact absurd h (hexact q v hq x)
  · exact h

theorem subtract_float_of_exact (h : subtract .exact args = .double x) :
    subtract .float args = .double x :=
  binary_float_of_exact (fun _ _ => Attempt.noDouble_ofOption fun _ => noDouble_twoExact)
    (fun _ _ _ => rfl) h

theorem divide_float_of_exact (h : divide .exact args = .double x) :
    divide .float args = .double x :=
  binary_float_of_exact noDouble_attemptDivide
    Fraction.Operation.getD_attemptDivide_float h

theorem power_float_of_exact (h : power .exact args = .double x) : power .float args = .double x :=
  binary_float_of_exact noDouble_attemptPower (fun _ _ _ => rfl) h

theorem negate_float_of_exact (h : negate .exact args = .double x) :
    negate .float args = .double x := by
  refine unaryExact_float_of_exact (fun q v hv => ?_) h
  split at hv
  · cases hv
  · cases hv
    exact noDouble_ofFraction _

theorem abs_float_of_exact (h : abs .exact args = .double x) : abs .float args = .double x := by
  refine unaryExact_float_of_exact (fun q v hv => ?_) h
  obtain ⟨n, -, rfl⟩ := Option.map_eq_some_iff.1 hv
  exact noDouble_ofFraction _

theorem round_float_of_exact (h : round .exact args = .double x) : round .float args = .double x :=
  unaryExact_float_of_exact (fun q v hv => by cases hv; exact nofun) h

/-- A double that a registered function gives in the exact mode is what it gives in floating point
for the same operands. -/
theorem call_float_of_call_exact {id : FunctionId} {f : NamedFunction} {s : Store}
    (hf : registry.get? id = some f) (hmode : s.mode = .exact) (h : f.call s args = .double x) :
    f.call { mode := .float } args = .double x := by
  have hall : ∀ f ∈ fundamentals ++ functions, f.call { mode := .exact } args = .double x →
      f.call { mode := .float } args = .double x := by
    refine forall_mem_standard ?_ (fun _ _ _ _ h => h) round_float_of_exact abs_float_of_exact
    simp only [fundamentals, List.forall_mem_cons]
    refine ⟨add_float_of_exact, multiply_float_of_exact, subtract_float_of_exact,
      divide_float_of_exact, negate_float_of_exact, power_float_of_exact, fun h => ?_,
      List.forall_mem_nil _⟩
    -- The assignment is no function of values: a call of it gives an error.
    cases h
  rw [call_of_mode_eq hf hmode] at h
  exact hall f (List.mem_of_getElem? hf) h

end Standard

end Reckoner
