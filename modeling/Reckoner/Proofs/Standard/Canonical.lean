import Reckoner.Proofs.Standard.Registry
import Reckoner.Proofs.Value

/-!
Fractions in canonical form.

Every fraction that a function gives is made by the canonical value of a fraction, so it is in
lowest terms whatever the arguments are and in either mode. Two exact values in canonical form are
equal only if they stand for the same number.
-/
namespace Reckoner

namespace Value

/-- If the value is a fraction, it is in lowest terms with a denominator from two up. -/
def Canonical (v : Value) : Prop :=
  ∀ f, v = .fraction f → (Value.fraction f).WellFormed

variable {u v : Value} {p q : ℚ}

theorem WellFormed.canonical (h : v.WellFormed) : v.Canonical := by
  rintro f rfl
  exact h

theorem canonical_of_isError (h : v.isError = true) : v.Canonical := by
  rintro f rfl
  cases h

/-- Whatever pair it is made of, a value is in canonical form. -/
theorem canonical_ofFraction (f : Fraction 64) : (ofFraction f).Canonical := by
  rcases ofFraction_cases f with ⟨-, -, hexactly⟩ | ⟨-, hzero⟩
  · exact hexactly.1.canonical
  · rw [hzero]
    exact canonical_of_isError rfl

/-- An exact value in canonical form is the canonical form of the number that it stands for. -/
theorem Canonical.exactly (h : v.Canonical) (hq : v.rat? = some q) : v.Exactly q := by
  refine ⟨?_, hq⟩
  cases v with
  | int n => trivial
  | fraction f => exact h f rfl
  | _ => cases hq

/-- Exact values are whole numbers and fractions. -/
theorem int_or_fraction (h : v.rat? = some q) : (∃ n, v = .int n) ∨ ∃ f, v = .fraction f := by
  cases v with
  | int n => exact .inl ⟨n, rfl⟩
  | fraction f => exact .inr ⟨f, rfl⟩
  | _ => cases h

/-- Equal exact values are the same. -/
theorem eq_of_beq_of_rat? (hp : u.rat? = some p) (hq : v.rat? = some q) (h : (u == v) = true) :
    u = v := by
  rcases int_or_fraction hp with ⟨m, rfl⟩ | ⟨f, rfl⟩ <;>
    rcases int_or_fraction hq with ⟨n, rfl⟩ | ⟨g, rfl⟩
  · exact congrArg Value.int (eq_of_beq (show (m == n) = true from h))
  · cases h
  · cases h
  · exact congrArg Value.fraction (eq_of_beq (show (f == g) = true from h))

theorem beq_self_of_rat? (h : v.rat? = some q) : (v == v) = true := by
  rcases int_or_fraction h with ⟨n, rfl⟩ | ⟨f, rfl⟩
  · exact beq_self_eq_true n
  · exact beq_self_eq_true f

/-- Equality of exact values is that of the numbers that they stand for. -/
theorem Canonical.beq_iff (hu : u.Canonical) (hv : v.Canonical) (hp : u.rat? = some p)
    (hq : v.rat? = some q) : (u == v) = true ↔ p = q := by
  constructor
  · intro h
    obtain rfl := eq_of_beq_of_rat? hp hq h
    exact Option.some.inj (hp.symm.trans hq)
  · rintro rfl
    obtain rfl := (hu.exactly hp).unique (hv.exactly hq)
    exact beq_self_of_rat? hp

end Value

namespace Standard

variable {args : List Value} {v : Value}

open Value (Canonical canonical_ofFraction canonical_of_isError)

/-! ## Results of the functions -/

theorem canonical_double (x : Float) : (Value.double x).Canonical :=
  nofun

theorem canonical_onFloats (f : List Float → Float) (args : List Value) :
    (onFloats f args).Canonical := by
  unfold onFloats
  split
  · exact canonical_double _
  · exact canonical_of_isError rfl

theorem canonical_onTwoFloats (f : Float → Float → Float) (a b : Value) :
    (onTwoFloats f a b).Canonical := by
  unfold onTwoFloats
  split
  · exact canonical_double _
  · exact canonical_of_isError rfl

theorem canonical_of_firstError? (h : firstError? args = some v) : v.Canonical :=
  canonical_of_isError (List.find?_some h)

theorem canonical_unary (f : Float → Float) (args : List Value) : (unary f args).Canonical := by
  unfold unary
  split
  · split
    · next herror => exact canonical_of_isError herror
    · unfold onFloat
      split
      · exact canonical_double _
      · exact canonical_of_isError rfl
  · exact canonical_of_isError rfl

/-- An attempt at an exact operation does not give anything but values in canonical form. -/
def Attempt.Canonical (a : Attempt) : Prop :=
  ∀ v, a = .done v → v.Canonical

theorem Attempt.Canonical.getD {a : Attempt} (h : a.Canonical) (hv : v.Canonical) :
    (a.getD v).Canonical := by
  cases a with
  | done u => exact h u rfl
  | untried => exact hv
  | failed => exact hv

theorem Attempt.canonical_ofOption {o : Option Value} (h : ∀ v ∈ o, v.Canonical) :
    (Attempt.ofOption o).Canonical := by
  cases o with
  | none => exact nofun
  | some u =>
      intro v hv
      cases hv
      exact h u rfl

theorem canonical_attemptIn {a : Attempt} (h : a.Canonical) (mode : Mode) :
    (attemptIn mode a).Canonical := by
  cases mode with
  | float => exact nofun
  | exact => exact h

theorem canonical_foldExact {op : FractionOperation} {acc : Fraction 64}
    (h : foldExact op acc args = some v) : v.Canonical := by
  induction args generalizing acc with
  | nil =>
      cases h
      exact canonical_ofFraction acc
  | cons a rest ih =>
      rw [foldExact] at h
      split at h
      · cases h
      · split at h
        · cases h
        · exact ih h

theorem canonical_of_map {o : Option (Fraction 64)} (h : o.map Value.ofFraction = some v) :
    v.Canonical := by
  obtain ⟨f, -, rfl⟩ := Option.map_eq_some_iff.1 h
  exact canonical_ofFraction f

theorem canonical_twoExact {op : FractionOperation} {a b : Value} (h : twoExact op a b = some v) :
    v.Canonical := by
  unfold twoExact at h
  split at h
  · exact canonical_of_map h
  · cases h

theorem canonical_powerExact {base : Fraction 64} {n : BitVec 64} (h : powerExact base n = some v) :
    v.Canonical := by
  unfold powerExact at h
  split at h
  · split at h <;> cases h
    · exact canonical_of_isError rfl
    · exact nofun
  · split at h
    · cases h
      exact nofun
    · split at h
      · cases h
      · split at h
        · exact canonical_of_map h
        · cases h
          exact canonical_ofFraction _

theorem canonical_binary {attempt : Mode → Value → Value → Attempt} (f : Float → Float → Float)
    (h : ∀ mode a b, (attempt mode a b).Canonical) (mode : Mode) (args : List Value) :
    (binary attempt f mode args).Canonical := by
  unfold binary
  split
  · split
    · next herror => exact canonical_of_firstError? herror
    · exact (h mode _ _).getD (canonical_onTwoFloats f _ _)
  · exact canonical_of_isError rfl

theorem canonical_unaryExact {exact : Fraction 64 → Option Value} (f : Float → Float)
    (h : ∀ q, ∀ v ∈ exact q, v.Canonical) (mode : Mode) (args : List Value) :
    (unaryExact exact f mode args).Canonical := by
  unfold unaryExact
  split
  · next a =>
      cases hv : a.toFraction?.bind exact with
      | none => exact canonical_unary f [a]
      | some v =>
          obtain ⟨q, -, hq⟩ := Option.bind_eq_some_iff.1 hv
          exact h q v hq
  · exact canonical_unary f _

theorem canonical_add (mode : Mode) (args : List Value) : (add mode args).Canonical := by
  unfold add
  split
  · next herror => exact canonical_of_firstError? herror
  · exact (canonical_attemptIn (Attempt.canonical_ofOption fun _ => canonical_foldExact) mode).getD
      (canonical_onFloats _ _)

theorem canonical_multiply (mode : Mode) (args : List Value) : (multiply mode args).Canonical := by
  unfold multiply
  split
  · next herror => exact canonical_of_firstError? herror
  · exact (canonical_attemptIn (Attempt.canonical_ofOption fun _ => canonical_foldExact) mode).getD
      (canonical_onFloats _ _)

theorem canonical_subtract (mode : Mode) (args : List Value) : (subtract mode args).Canonical :=
  canonical_binary _ (fun mode _ _ => canonical_attemptIn
    (Attempt.canonical_ofOption fun _ => canonical_twoExact) mode) mode args

theorem canonical_divide (mode : Mode) (args : List Value) : (divide mode args).Canonical := by
  refine canonical_binary _ (fun mode a b => ?_) mode args
  unfold attemptDivide
  split
  · exact nofun
  · split
    · refine canonical_attemptIn (fun v hv => ?_) mode
      cases hv
      exact canonical_of_isError rfl
    · exact canonical_attemptIn (Attempt.canonical_ofOption fun _ => canonical_twoExact) mode

theorem canonical_power (mode : Mode) (args : List Value) : (power mode args).Canonical := by
  refine canonical_binary _ (fun mode a b => canonical_attemptIn ?_ mode) mode args
  split
  · exact Attempt.canonical_ofOption fun _ => canonical_powerExact
  · exact nofun

theorem canonical_negate (mode : Mode) (args : List Value) : (negate mode args).Canonical := by
  refine canonical_unaryExact _ (fun q v hv => ?_) mode args
  split at hv
  · cases hv
  · cases hv
    exact canonical_ofFraction _

theorem canonical_abs (mode : Mode) (args : List Value) : (abs mode args).Canonical := by
  refine canonical_unaryExact _ (fun q v hv => ?_) mode args
  obtain ⟨n, -, rfl⟩ := Option.map_eq_some_iff.1 hv
  exact canonical_ofFraction _

theorem canonical_round (mode : Mode) (args : List Value) : (round mode args).Canonical := by
  refine canonical_unaryExact _ (fun q v hv => ?_) mode args
  cases hv
  exact nofun

/-- What a registered function gives is in canonical form, for any arguments and in any store. -/
theorem canonical_call {id : FunctionId} {f : NamedFunction} (hf : registry.get? id = some f)
    (s : Store) (args : List Value) : (f.call s args).Canonical := by
  have hall : ∀ f ∈ fundamentals ++ functions, (f.call s args).Canonical := by
    refine forall_mem_standard ?_ (fun _ _ op _ => canonical_unary op args)
      (canonical_round s.mode args) (canonical_abs s.mode args)
    simp only [fundamentals, List.forall_mem_cons]
    exact ⟨canonical_add s.mode args, canonical_multiply s.mode args,
      canonical_subtract s.mode args, canonical_divide s.mode args, canonical_negate s.mode args,
      canonical_power s.mode args, canonical_of_isError rfl, List.forall_mem_nil _⟩
  exact hall f (List.mem_of_getElem? hf)

end Standard

end Reckoner
