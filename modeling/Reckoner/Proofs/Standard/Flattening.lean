import Reckoner.Proofs.Standard.Fallback

/-!
Sums and products of many operands, flat and nested.

A sum of many operands can be one call, or calls of two nested from the left. The one call works on
fractions all the way; nested calls go through the canonical value of each partial result, and
through floating point for good once a step overflows. Both are settled by the same steps on
fractions: they are exact together, with one value, and otherwise both are doubles.
-/
namespace Reckoner

namespace Value

/-- The value of the fraction that was found, or a double if none was. -/
def ExactOrDouble (v : Value) : Option (Fraction 64) → Prop
  | some r => v = ofFraction r
  | none => ∃ x, v = double x

variable {u v : Value} {r? : Option (Fraction 64)} {f : Fraction 64} {q : ℚ}

theorem ExactOrDouble.exactly_iff (h : v.ExactOrDouble r?)
    (hform : ∀ r, r? = some r → ∃ q, r.Represents q) : (∃ q, v.Exactly q) ↔ r?.isSome = true := by
  cases r? with
  | some r =>
      obtain ⟨q, hq⟩ := hform r rfl
      have hv : v = ofFraction r := h
      exact iff_of_true ⟨q, hv ▸ exactly_ofFraction hq⟩ rfl
  | none =>
      obtain ⟨x, rfl⟩ := h
      apply iff_of_false
      · rintro ⟨q, hq⟩
        cases hq.2
      · exact Bool.false_ne_true

theorem ExactOrDouble.eq (hu : u.ExactOrDouble r?) (hv : v.ExactOrDouble r?)
    (h : r?.isSome = true) : u = v := by
  obtain ⟨r, rfl⟩ := Option.isSome_iff_exists.1 h
  have hvalue : v = ofFraction r := hv
  rw [hvalue]
  exact hu

theorem ExactOrDouble.exists_double (hv : v.ExactOrDouble r?) (h : r?.isSome ≠ true) :
    ∃ x, v = double x := by
  obtain rfl : r? = none := by simpa using h
  exact hv

theorem Reduced.exists_toFloat? (h : v.Reduced) : ∃ x, v.toFloat? = some x := by
  cases v with
  | int n => exact ⟨_, rfl⟩
  | fraction f => exact ⟨_, rfl⟩
  | _ => cases h

theorem Exactly.reduced (h : v.Exactly q) : v.Reduced := by
  obtain ⟨hwell, hrat⟩ := h
  cases v with
  | int n => trivial
  | fraction f =>
      obtain ⟨hden, hcoprime⟩ := hwell
      exact ⟨by omega, hcoprime⟩
  | _ => cases hrat

/-- Storing a fraction in lowest terms and working on it again changes nothing. -/
theorem toFraction?_ofFraction (h : f.Represents q) : (ofFraction f).toFraction? = some f := by
  obtain ⟨g, hg, hrepresents⟩ := (exactly_ofFraction h).toFraction?
  rw [hg, hrepresents.unique h]

end Value

namespace Fraction.Operation

open Checked Standard

variable {o : Operation} {args : List Value} {fs : List (Fraction 64)} {f g r : Fraction 64}
  {v x y : Value} {xs : List Value} {p q : ℚ}

/-- One call on exact operands is settled by its steps. -/
theorem exactOrDouble_call (hargs : ∀ a ∈ args, a.Reduced)
    (hcount : o = sub ∨ o = div → args.length = 2)
    (hfs : args.mapM Value.toFraction? = some fs) :
    (o.call .exact args).ExactOrDouble (o.fold fs).unlessOverflow := by
  have hoperands : ∀ a ∈ args, a.Operand := fun a ha => .inl (hargs a ha)
  have hnoError := firstError?_eq_none fun a ha => (hoperands a ha).not_isError
  rw [call_exact hnoError hcount, exactValue?, hfs, Option.bind_some]
  cases (o.fold fs).unlessOverflow with
  | some r => exact rfl
  | none => exact exists_call_float hnoError (fun a ha => (hargs a ha).exists_toFloat?) hcount

/-- On two operands there is one step. -/
theorem exactOrDouble_call_pair (hx : x.Reduced) (hy : y.Reduced)
    (hf : x.toFraction? = some f) (hg : y.toFraction? = some g) :
    (o.call .exact [x, y]).ExactOrDouble (o.apply f g).unlessOverflow := by
  have hargs : ∀ a ∈ [x, y], a.Reduced := by
    simp [hx, hy]
  have hfs : [x, y].mapM Value.toFraction? = some [f, g] := by
    simp [List.mapM_cons, hf, hg]
  have hcall := exactOrDouble_call (o := o) hargs (fun _ => rfl) hfs
  rwa [unlessOverflow_fold_pair (hx.represents hf)] at hcall

/-- A step of a sum or a product that does not overflow gives a fraction in lowest terms. -/
theorem exists_represents_apply (ho : o = add ∨ o = mul) (hf : f.Represents p)
    (hg : g.Represents q) (h : (o.apply f g).unlessOverflow = some r) : ∃ x, r.Represents x := by
  obtain ⟨x, hx⟩ : ∃ x, o.result? f.toRat g.toRat = some x := by
    rcases ho with rfl | rfl
    · exact ⟨_, rfl⟩
    · exact ⟨_, rfl⟩
  exact ⟨x, represents_apply (by decide) hf.den_ne_zero hg.den_ne_zero h hx⟩

/-- What is done with a double and an exact value is done in floating point. -/
theorem exists_call_double (o : Operation) (x : Float) (hy : y.Reduced) :
    ∃ z, o.call .exact [.double x, y] = .double z := by
  have hoperands : ∀ a ∈ [.double x, y], a.Operand := by
    simp [Value.Operand, hy]
  have hnumbers : ∀ a ∈ [.double x, y], ∃ z, a.toFloat? = some z :=
    List.forall_mem_cons.2 ⟨⟨x, rfl⟩, List.forall_mem_singleton.2 hy.exists_toFloat?⟩
  have hnoError := firstError?_eq_none fun a ha => (hoperands a ha).not_isError
  rw [call_exact hnoError fun _ => rfl, exactValue?_pair_eq_none (.inl rfl)]
  exact exists_call_float hnoError hnumbers fun _ => rfl

/-- The operands in calls of two, nested from the left. -/
def nested (o : Operation) (mode : Mode) (x : Value) (xs : List Value) : Value :=
  xs.foldl (fun acc y => o.call mode [acc, y]) x

theorem exists_nested_double (o : Operation) (x : Float) (hxs : ∀ y ∈ xs, y.Reduced) :
    ∃ z, o.nested .exact (.double x) xs = .double z := by
  induction xs generalizing x with
  | nil => exact ⟨x, rfl⟩
  | cons y rest ih =>
      obtain ⟨z, hz⟩ := exists_call_double o x (hxs y List.mem_cons_self)
      rw [nested, List.foldl_cons, hz]
      exact ih z fun y hy => hxs y (List.mem_cons_of_mem _ hy)

/-- Nested calls are settled by the steps on the fractions of their operands. An operand that stands
alone is not worked on, so it has to be in canonical form. -/
theorem exactOrDouble_nested (ho : o = add ∨ o = mul) (hx : x.Reduced)
    (hf : x.toFraction? = some f) (halone : xs = [] → x = .ofFraction f)
    (hxs : ∀ y ∈ xs, y.Reduced) (hfs : xs.mapM Value.toFraction? = some fs) :
    (o.nested .exact x xs).ExactOrDouble (fs.foldlM o.apply f).unlessOverflow := by
  rw [unlessOverflow_foldlM o.oblivious_apply]
  induction xs generalizing x f fs with
  | nil =>
      cases hfs
      exact halone rfl
  | cons y rest ih =>
      obtain ⟨g, gs, hg, hgs, rfl⟩ := Value.mapM_cons_eq_some hfs
      have hy := hxs y List.mem_cons_self
      have hrest := fun u hu => hxs u (List.mem_cons_of_mem y hu)
      have hstep := exactOrDouble_call_pair (o := o) hx hy hf hg
      rw [List.foldlM_cons, nested, List.foldl_cons]
      cases hacc : (o.apply f g).unlessOverflow with
      | some acc =>
          -- The partial result is stored as a value, and read back as the same fraction.
          obtain ⟨p, hp⟩ := exists_represents_apply ho (hx.represents hf) (hy.represents hg) hacc
          have hcall : o.call .exact [x, y] = .ofFraction acc := by rwa [hacc] at hstep
          rw [hcall]
          exact ih (Value.exactly_ofFraction hp).reduced (Value.toFraction?_ofFraction hp)
            (fun _ => rfl) hrest hgs
      | none =>
          obtain ⟨z, hz⟩ : ∃ z, o.call .exact [x, y] = .double z := by rwa [hacc] at hstep
          rw [hz]
          exact exists_nested_double o z hrest

/-- A flat sum or product is exact if and only if the nested one is. Their exact values are equal,
and where there is none both are doubles. -/
theorem call_eq_nested (ho : o = add ∨ o = mul) (hx : x.Reduced) (hxs : ∀ y ∈ xs, y.Reduced)
    (hne : xs ≠ []) :
    let flat := o.call .exact (x :: xs)
    let nested := o.nested .exact x xs
    ((∃ q, flat.Exactly q) ↔ ∃ q, nested.Exactly q) ∧
      ((∃ q, flat.Exactly q) → nested = flat) ∧
      (¬ (∃ q, flat.Exactly q) → (∃ y, flat = .double y) ∧ ∃ z, nested = .double z) := by
  intro flat nested
  obtain ⟨f, hf, hform⟩ := hx.exists_toFraction?
  obtain ⟨fs, hfs⟩ := Value.exists_mapM fun y hy => (hxs y hy).exists_toFraction?.imp fun _ h => h.1
  have hall : ∀ a ∈ x :: xs, a.Reduced := List.forall_mem_cons.2 ⟨hx, hxs⟩
  have hoperands : (x :: xs).mapM Value.toFraction? = some (f :: fs) := by
    simp [List.mapM_cons, hf, hfs]
  have hflat : flat.ExactOrDouble (fs.foldlM o.apply f).unlessOverflow := by
    rw [← unlessOverflow_fold_cons ho hform]
    have hcount : o = sub ∨ o = div → (x :: xs).length = 2 := by
      rcases ho with rfl | rfl
      · exact nofun
      · exact nofun
    exact exactOrDouble_call hall hcount hoperands
  have hnested : nested.ExactOrDouble (fs.foldlM o.apply f).unlessOverflow :=
    exactOrDouble_nested ho hx hf (fun h => absurd h hne) hxs hfs
  have hsteps : ∀ r, (fs.foldlM o.apply f).unlessOverflow = some r → ∃ q, r.Represents q := by
    intro r hr
    rw [← unlessOverflow_fold_cons ho hform] at hr
    obtain ⟨q, hq⟩ : ∃ q, rationalResult? o.name ((f :: fs).map toRat) = some q := by
      rcases ho with rfl | rfl
      · exact ⟨_, rfl⟩
      · exact ⟨_, rfl⟩
    have hfractions := represents_of_mapM (fun a ha => .inl (hall a ha)) hoperands
    exact ⟨q, represents_fold hfractions hr hq⟩
  have hflatExact := hflat.exactly_iff hsteps
  have hnestedExact := hnested.exactly_iff hsteps
  refine ⟨hflatExact.trans hnestedExact.symm, fun h => ?_, fun h => ?_⟩
  · exact hnested.eq hflat (hflatExact.1 h)
  · have hnone := fun hsome => h (hflatExact.2 hsome)
    exact ⟨hflat.exists_double hnone, hnested.exists_double hnone⟩

/-- The greatest whole number, one, and minus one: the sum fits, but a partial sum does not. -/
theorem call_eq_nested_greatest :
    let x : Value := .int (Word.greatest 64)
    let xs : List Value := [.int 1#64, .int (-1#64)]
    x.Reduced ∧ (∀ y ∈ xs, y.Reduced) ∧ xs ≠ [] ∧
      (∃ y, add.call .exact (x :: xs) = .double y) ∧ ∃ z, add.nested .exact x xs = .double z := by
  intro x xs
  have hx : x.Reduced := trivial
  have hxs : ∀ y ∈ xs, y.Reduced := by
    simp [xs, Value.Reduced]
  have hne : xs ≠ [] := by simp [xs]
  refine ⟨hx, hxs, hne, (call_eq_nested (.inl rfl) hx hxs hne).2.2 ?_⟩
  rintro ⟨q, -, hq⟩
  have hnone : (add.call .exact (x :: xs)).rat? = none := by decide +kernel
  rw [hnone] at hq
  cases hq

end Fraction.Operation

end Reckoner
