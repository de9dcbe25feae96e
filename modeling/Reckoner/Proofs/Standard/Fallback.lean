import Reckoner.Proofs.Fraction.Exactness
import Reckoner.Proofs.Standard.Rational
import Reckoner.Standard

/-!
Exact or floating point, and never a mix of the two.

In the exact mode a sum, product, difference or quotient is the exact result, or division by zero,
or what the operation gives for the same operands in floating point. Which of the three it is depends
on the operands and on whether a step of the operation on fractions overflows. The steps are taken
from left to right here, with one flag for all of them, and an exact result is given exactly if the
flag is down in the end.
-/
namespace Reckoner

namespace Value

/-- A whole number, or a fraction in lowest terms with a positive denominator. -/
def Reduced : Value → Prop
  | int _ => True
  | fraction f => 0 < f.den.toInt ∧ Nat.Coprime f.num.toInt.natAbs f.den.toInt.natAbs
  | null | double _ | error _ => False

/-- The value is no error, and in lowest terms if it is a fraction. -/
def Operand (v : Value) : Prop :=
  v.Reduced ∨ v = null ∨ ∃ x, v = double x

variable {v : Value} {f : Fraction 64}

theorem Reduced.exists_toFraction? (h : v.Reduced) :
    ∃ f, v.toFraction? = some f ∧ f.Represents f.toRat := by
  cases v with
  | int n =>
      have hform := represents_ofWord (show 1 < 64 by decide) n
      exact ⟨.ofWord n, rfl, hform.toRat_eq ▸ hform⟩
  | fraction f => exact ⟨f, rfl, Fraction.represents_of_coprime h.1 h.2⟩
  | _ => cases h

theorem Reduced.represents (h : v.Reduced) (hf : v.toFraction? = some f) :
    f.Represents f.toRat := by
  obtain ⟨g, hg, hrepresents⟩ := h.exists_toFraction?
  rw [hf] at hg
  cases hg
  exact hrepresents

theorem Operand.represents (h : v.Operand) (hf : v.toFraction? = some f) :
    f.Represents f.toRat := by
  rcases h with h | rfl | ⟨x, rfl⟩
  · exact h.represents hf
  · cases hf
  · cases hf

theorem Operand.not_isError (h : v.Operand) : v.isError = false := by
  rcases h with h | rfl | ⟨x, rfl⟩
  · cases v with
    | error e => cases h
    | _ => rfl
  · rfl
  · rfl

/-- An exact value stands for the ratio of its fraction. -/
theorem rat?_eq (v : Value) : v.rat? = v.toFraction?.map Fraction.toRat := by
  cases v with
  | int n =>
      have hform := represents_ofWord (show 1 < 64 by decide) n
      simp [rat?, Value.toFraction?, hform.toRat_eq]
  | _ => rfl

theorem mapM_rat?_eq (vs : List Value) :
    vs.mapM rat? = (vs.mapM Value.toFraction?).map (List.map Fraction.toRat) := by
  induction vs with
  | nil => rfl
  | cons v rest ih =>
      rw [List.mapM_cons, List.mapM_cons, ih, rat?_eq]
      cases v.toFraction? with
      | none => rfl
      | some f =>
          cases rest.mapM Value.toFraction? with
          | none => rfl
          | some fs => rfl

end Value

namespace Standard

theorem firstError?_eq_none {args : List Value} (hargs : ∀ a ∈ args, a.isError = false) :
    firstError? args = none := by
  rw [firstError?, List.find?_eq_none]
  intro a ha
  simp [hargs a ha]

theorem Attempt.getD_ofOption (o : Option Value) (fallback : Value) :
    (Attempt.ofOption o).getD fallback = o.getD fallback := by
  cases o <;> rfl

/-- Two operands are a list of operands. -/
theorem onTwoFloats_eq (f : Float → Float → Float) (a b : Value) :
    onTwoFloats f a b = onFloats (fun xs => f (xs.getD 0 0) (xs.getD 1 0)) [a, b] := by
  unfold onTwoFloats onFloats
  cases ha : a.toFloat? with
  | none => simp [List.mapM_cons, ha]
  | some x => cases hb : b.toFloat? <;> simp [List.mapM_cons, ha, hb]

end Standard

namespace Fraction.Operation

open Checked Standard

/-! ## The operations on values -/

/-- The function that the operation is registered as. -/
def name : Operation → String
  | add => "add"
  | sub => "subtract"
  | mul => "multiply"
  | div => "divide"

/-- The operation on values. -/
def call : Operation → Mode → List Value → Value
  | add => Standard.add
  | sub => Standard.subtract
  | mul => Standard.multiply
  | div => Standard.divide

/-- The steps of the operation on a list of fractions, from left to right with one flag for all of
them. Sums begin with zero and products with one. -/
def fold : Operation → List (Fraction 64) → Checked (Fraction 64)
  | add, fs => fs.foldlM Fraction.add (.ofWord 0#64)
  | mul, fs => fs.foldlM Fraction.mul (.ofWord 1#64)
  | sub, [f, g] => Fraction.sub f g
  | div, [f, g] => Fraction.div f g
  | _, _ => return invalid

/-- The value of the steps: nothing if an operand is not exact or if a step overflows. -/
def exactValue? (o : Operation) (args : List Value) : Option Value :=
  (args.mapM Value.toFraction?).bind fun fs => (o.fold fs).unlessOverflow.map Value.ofFraction

variable {o : Operation} {args : List Value} {fs : List (Fraction 64)} {f r : Fraction 64}
  {v : Value} {p q : ℚ}

/-- Giving up at the first step that overflows is the same as looking at the flag in the end. -/
theorem foldExact_eq {op : FractionOperation} (hop : ∀ f g, Oblivious (op f g))
    (acc : Fraction 64) (args : List Value) :
    foldExact op acc args = (args.mapM Value.toFraction?).bind fun fs =>
      (fs.foldlM op acc).unlessOverflow.map Value.ofFraction := by
  simp only [unlessOverflow_foldlM hop]
  induction args generalizing acc with
  | nil => rfl
  | cons a rest ih =>
      rw [foldExact, List.mapM_cons]
      cases a.toFraction? with
      | none => rfl
      | some f =>
          cases hstep : (op acc f).unlessOverflow with
          | none => cases rest.mapM Value.toFraction? <;> simp [hstep]
          | some acc' => cases hrest : rest.mapM Value.toFraction? <;> simp [hrest, hstep, ih]

theorem exactValue?_pair {a b : Value} {f g : Fraction 64} (ha : a.toFraction? = some f)
    (hb : b.toFraction? = some g) :
    o.exactValue? [a, b] = (o.fold [f, g]).unlessOverflow.map Value.ofFraction := by
  simp [exactValue?, List.mapM_cons, ha, hb]

theorem exactValue?_pair_eq_none {a b : Value} (h : a.toFraction? = none ∨ b.toFraction? = none) :
    o.exactValue? [a, b] = none := by
  rcases h with h | h
  · simp [exactValue?, List.mapM_cons, h]
  · cases a.toFraction? <;> simp [exactValue?, List.mapM_cons, h]

theorem twoExact_eq {op : FractionOperation} (hop : ∀ f g, o.fold [f, g] = op f g) (a b : Value) :
    twoExact op a b = o.exactValue? [a, b] := by
  rw [twoExact]
  cases ha : a.toFraction? with
  | none => rw [exactValue?_pair_eq_none (.inl ha)]
  | some f =>
      cases hb : b.toFraction? with
      | none => rw [exactValue?_pair_eq_none (.inr hb)]
      | some g => rw [exactValue?_pair ha hb, hop]

/-- Nothing overflows when a fraction is divided by zero. -/
theorem unlessOverflow_fold_div_zero (f : Fraction 64) :
    (fold div [f, .ofWord 0#64]).unlessOverflow = some invalid :=
  unlessOverflow_div_zero rfl (fits_mul_one (by decide) f.num rfl)

theorem isExact_iff (v : Value) (hv : v.isError = false) :
    v.isExact = true ↔ ∃ f, v.toFraction? = some f := by
  cases v with
  | error e => cases hv
  | _ => simp [Value.isExact, Value.toFraction?]

/-- The quotient is tried on all exact operands, and the attempt by zero is the same by whichever of
the two ways it is found out. -/
theorem attemptDivide_eq {a b : Value} (ha : a.isError = false) (hb : b.isError = false)
    (u : Value) : (attemptDivide .exact a b).getD u = (exactValue? div [a, b]).getD u := by
  unfold attemptDivide
  by_cases hexact : a.isExact = true
  · obtain ⟨f, hf⟩ := (isExact_iff a ha).1 hexact
    by_cases hzero : isZero b = true
    · obtain rfl : b = .int 0#64 := by
        cases b with
        | int n => exact congrArg Value.int (eq_of_beq hzero)
        | _ => cases hzero
      have hvalue : exactValue? div [a, .int 0#64] = some .divisionByZero := by
        rw [exactValue?_pair hf rfl]
        exact congrArg (Option.map Value.ofFraction) (unlessOverflow_fold_div_zero f)
      rw [hexact, hzero, hvalue]
      rfl
    · have hdiv : ∀ f g, fold div [f, g] = Fraction.div f g := fun _ _ => rfl
      rw [hexact, Bool.not_true, if_neg Bool.false_ne_true, if_neg hzero, attemptIn,
        Attempt.getD_ofOption, twoExact_eq hdiv]
  · have hnone : a.toFraction? = none := by
      cases hf : a.toFraction? with
      | none => rfl
      | some f => exact absurd ((isExact_iff a ha).2 ⟨f, hf⟩) hexact
    rw [exactValue?_pair_eq_none (.inl hnone), Bool.eq_false_iff.2 hexact]
    rfl

theorem getD_attemptDivide_float (a b u : Value) : (attemptDivide .float a b).getD u = u := by
  unfold attemptDivide
  split
  · rfl
  · split <;> rfl

/-- The exact mode takes the exact result if there is one, and otherwise does what floating point
does. -/
theorem call_exact (hargs : firstError? args = none)
    (hcount : o = .sub ∨ o = .div → args.length = 2) :
    o.call .exact args = (o.exactValue? args).getD (o.call .float args) := by
  cases o with
  | add =>
      rw [call, Standard.add, Standard.add, hargs, exactValue?]
      simp only [attemptAdd, attemptIn, Attempt.getD_ofOption, foldExact_eq oblivious_add]
      rfl
  | mul =>
      rw [call, Standard.multiply, Standard.multiply, hargs, exactValue?]
      simp only [attemptMultiply, attemptIn, Attempt.getD_ofOption, foldExact_eq oblivious_mul]
      rfl
  | sub =>
      obtain ⟨a, b, rfl⟩ := List.length_eq_two.1 (hcount (.inl rfl))
      rw [call, Standard.subtract, binary, binary, hargs, ← twoExact_eq fun _ _ => rfl]
      simp only [attemptSubtract, attemptIn, Attempt.getD_ofOption]
      rfl
  | div =>
      obtain ⟨a, b, rfl⟩ := List.length_eq_two.1 (hcount (.inr rfl))
      have hnoError : ∀ c ∈ [a, b], c.isError = false := by
        simpa [firstError?] using hargs
      rw [call, Standard.divide, binary, binary, hargs]
      simp only [getD_attemptDivide_float]
      exact attemptDivide_eq (hnoError a (by simp)) (hnoError b (by simp)) _

/-! ## What the steps give -/

/-- The first step of a sum or a product leaves the first operand as it is. -/
theorem unlessOverflow_fold_cons (ho : o = add ∨ o = mul) (hf : f.Represents p) :
    (o.fold (f :: fs)).unlessOverflow = (fs.foldlM o.apply f).unlessOverflow := by
  rcases ho with rfl | rfl
  · rw [fold, List.foldlM_cons, unlessOverflow_bind fun a => oblivious_foldlM oblivious_add a fs,
      unlessOverflow_zero_add (by decide) hf]
    rfl
  · rw [fold, List.foldlM_cons, unlessOverflow_bind fun a => oblivious_foldlM oblivious_mul a fs,
      unlessOverflow_one_mul (by decide) hf]
    rfl

/-- On two operands there is one step. -/
theorem unlessOverflow_fold_pair (hf : f.Represents p) (g : Fraction 64) :
    (o.fold [f, g]).unlessOverflow = (o.apply f g).unlessOverflow := by
  have hstep : ([g].foldlM o.apply f).unlessOverflow = (o.apply f g).unlessOverflow := by
    simp
  cases o with
  | add => rw [unlessOverflow_fold_cons (.inl rfl) hf, hstep]
  | mul => rw [unlessOverflow_fold_cons (.inr rfl) hf, hstep]
  | sub => rfl
  | div => rfl

/-- Steps that are exact unless they overflow give what the same steps give over the rational
numbers. -/
theorem represents_foldlM {g : ℚ → ℚ → ℚ} (hg : ∀ p q, o.result? p q = some (g p q))
    (hfs : ∀ f ∈ fs, f.Represents f.toRat) (hf : f.Represents p)
    (h : (fs.foldlM o.apply f).unlessOverflow = some r) :
    r.Represents ((fs.map toRat).foldl g p) := by
  rw [unlessOverflow_foldlM o.oblivious_apply] at h
  induction fs generalizing f p with
  | nil =>
      cases h
      exact hf
  | cons b rest ih =>
      rw [List.foldlM_cons] at h
      obtain ⟨acc, hacc, hrest⟩ := Option.bind_eq_some_iff.1 h
      have hb := hfs b List.mem_cons_self
      have hstep : acc.Represents (g p b.toRat) := by
        apply represents_apply (by decide) hf.den_ne_zero hb.den_ne_zero hacc
        rw [hf.toRat_eq, hg]
      exact ih (fun f hf => hfs f (List.mem_cons_of_mem _ hf)) hstep hrest

/-- A fold that does not overflow gives the result over the rational numbers. -/
theorem represents_fold (hfs : ∀ f ∈ fs, f.Represents f.toRat)
    (h : (o.fold fs).unlessOverflow = some r)
    (hq : rationalResult? o.name (fs.map toRat) = some q) : r.Represents q := by
  have htwo : o = sub ∨ o = div → ∃ f g, fs = [f, g] := by
    intro ho
    have hname : o.name ∈ ["subtract", "divide", "pow"] := by
      rcases ho with rfl | rfl <;> simp [name]
    have hlength := length_eq_two hname (fs.map toRat) (by simp [hq])
    rw [List.length_map] at hlength
    exact List.length_eq_two.1 hlength
  cases o with
  | add =>
      cases hq
      rw [List.sum_eq_foldl]
      exact represents_foldlM (o := add) (fun _ _ => rfl) hfs (represents_zero (by decide)) h
  | mul =>
      cases hq
      rw [List.prod_eq_foldl]
      exact represents_foldlM (o := mul) (fun _ _ => rfl) hfs (represents_one (by decide)) h
  | sub =>
      obtain ⟨f, g, rfl⟩ := htwo (.inl rfl)
      exact represents_apply (o := sub) (by decide) (hfs f (by simp)).den_ne_zero
        (hfs g (by simp)).den_ne_zero h hq
  | div =>
      obtain ⟨f, g, rfl⟩ := htwo (.inr rfl)
      exact represents_apply (o := div) (by decide) (hfs f (by simp)).den_ne_zero
        (hfs g (by simp)).den_ne_zero h hq

/-! ## Exact, division by zero, or floating point -/

/-- All operands are exact, the result `q` is defined, and no step overflows. -/
def IsExact (o : Operation) (args : List Value) (q : ℚ) : Prop :=
  ∃ fs, args.mapM Value.toFraction? = some fs ∧
    rationalResult? o.name (fs.map toRat) = some q ∧ ((o.fold fs).run {}).2.overflow = false

/-- An exact value is divided by zero. -/
def DividesByZero (o : Operation) (args : List Value) : Prop :=
  o = div ∧ ∃ p, args.mapM Value.rat? = some [p, 0]

theorem represents_of_mapM (hargs : ∀ a ∈ args, a.Operand)
    (hfs : args.mapM Value.toFraction? = some fs) : ∀ f ∈ fs, f.Represents f.toRat := by
  induction args generalizing fs with
  | nil =>
      cases hfs
      simp
  | cons a rest ih =>
      obtain ⟨f, gs, hf, hgs, rfl⟩ := Value.mapM_cons_eq_some hfs
      have hrest := ih (fun a ha => hargs a (List.mem_cons_of_mem _ ha)) hgs
      exact List.forall_mem_cons.2 ⟨(hargs a List.mem_cons_self).represents hf, hrest⟩

theorem IsExact.exactValue? (hargs : ∀ a ∈ args, a.Operand) (h : o.IsExact args q) :
    ∃ v, o.exactValue? args = some v ∧ v.Exactly q := by
  obtain ⟨fs, hfs, hq, hflag⟩ := h
  have hresult : (o.fold fs).unlessOverflow = some (o.fold fs).result := by
    rw [unlessOverflow_eq, hflag]
    rfl
  have hform := represents_fold (represents_of_mapM hargs hfs) hresult hq
  refine ⟨.ofFraction (o.fold fs).result, ?_, Value.exactly_ofFraction hform⟩
  rw [Operation.exactValue?, hfs, Option.bind_some, hresult, Option.map_some]

theorem DividesByZero.exactValue? (hargs : ∀ a ∈ args, a.Operand) (h : o.DividesByZero args) :
    o.exactValue? args = some .divisionByZero := by
  obtain ⟨rfl, p, hp⟩ := h
  rw [Value.mapM_rat?_eq] at hp
  obtain ⟨fs, hfs, hmap⟩ := Option.map_eq_some_iff.1 hp
  obtain ⟨f, g, rfl⟩ : ∃ f g, fs = [f, g] := by
    have hlength := congrArg List.length hmap
    rw [List.length_map] at hlength
    exact List.length_eq_two.1 hlength
  have hg : g.Represents 0 := by
    have hzero : g.toRat = 0 := by
      injection hmap with _ hrest
      injection hrest
    have hform := represents_of_mapM hargs hfs g (by simp)
    rwa [hzero] at hform
  obtain rfl := hg.unique (represents_zero (by decide))
  rw [Operation.exactValue?, hfs, Option.bind_some]
  exact congrArg (Option.map Value.ofFraction) (unlessOverflow_fold_div_zero f)

theorem exists_pair_of_mapM (hcount : args.length = 2)
    (hfs : args.mapM Value.toFraction? = some fs) : ∃ f g, fs = [f, g] := by
  obtain ⟨a, b, rfl⟩ := List.length_eq_two.1 hcount
  obtain ⟨f, gs, -, hgs, rfl⟩ := Value.mapM_cons_eq_some hfs
  obtain ⟨g, rest, -, hrest, rfl⟩ := Value.mapM_cons_eq_some hgs
  cases hrest
  exact ⟨f, g, rfl⟩

/-- What is found exactly is the result, or there is none on account of a division by zero. -/
theorem exactValue?_eq_some (hargs : ∀ a ∈ args, a.Operand)
    (hcount : o = sub ∨ o = div → args.length = 2) (h : o.exactValue? args = some v) :
    (∃ q, o.IsExact args q ∧ v.Exactly q) ∨ o.DividesByZero args ∧ v = .divisionByZero := by
  obtain ⟨fs, hfs, hmap⟩ := Option.bind_eq_some_iff.1 h
  obtain ⟨r, hr, rfl⟩ := Option.map_eq_some_iff.1 hmap
  have hform := represents_of_mapM hargs hfs
  cases hq : rationalResult? o.name (fs.map toRat) with
  | some q =>
      exact .inl ⟨q, ⟨fs, hfs, hq, (unlessOverflow_eq_some.1 hr).1⟩,
        Value.exactly_ofFraction (represents_fold hform hr hq)⟩
  | none =>
      cases o with
      | add => cases hq
      | mul => cases hq
      | sub =>
          obtain ⟨f, g, rfl⟩ := exists_pair_of_mapM (hcount (.inl rfl)) hfs
          cases hq
      | div =>
          obtain ⟨f, g, rfl⟩ := exists_pair_of_mapM (hcount (.inr rfl)) hfs
          have hzero : g.toRat = 0 := by
            by_contra hne
            rw [List.map_cons, List.map_cons, List.map_nil, name, rationalResult?, if_neg hne] at hq
            cases hq
          have hnum : g.num = 0#64 := (toRat_eq_zero (hform g (by simp)).den_ne_zero).1 hzero
          obtain rfl := div_eq_invalid hnum hr
          refine .inr ⟨⟨rfl, f.toRat, ?_⟩, rfl⟩
          rw [Value.mapM_rat?_eq, hfs, Option.map_some, List.map_cons, List.map_cons, hzero,
            List.map_nil]

/-- In floating point an operation is a function of the operands as doubles. -/
theorem exists_call_float_eq (hargs : firstError? args = none)
    (hcount : o = sub ∨ o = div → args.length = 2) :
    ∃ f, o.call .float args = onFloats f args := by
  cases o with
  | add =>
      rw [call, Standard.add, hargs]
      exact ⟨_, rfl⟩
  | mul =>
      rw [call, Standard.multiply, hargs]
      exact ⟨_, rfl⟩
  | sub =>
      obtain ⟨a, b, rfl⟩ := List.length_eq_two.1 (hcount (.inl rfl))
      rw [call, Standard.subtract, binary, hargs]
      exact ⟨_, onTwoFloats_eq _ a b⟩
  | div =>
      obtain ⟨a, b, rfl⟩ := List.length_eq_two.1 (hcount (.inr rfl))
      rw [call, Standard.divide, binary, hargs]
      simp only [getD_attemptDivide_float]
      exact ⟨_, onTwoFloats_eq _ a b⟩

/-- Floating point gives doubles, and the error of an operand that is no number. -/
theorem call_float (hargs : firstError? args = none)
    (hcount : o = sub ∨ o = div → args.length = 2) :
    (∃ x, o.call .float args = .double x) ∨ o.call .float args = invalidArgument := by
  obtain ⟨f, hf⟩ := exists_call_float_eq hargs hcount
  rw [hf, onFloats]
  cases args.mapM Value.toFloat? with
  | some xs => exact .inl ⟨f xs, rfl⟩
  | none => exact .inr rfl

/-- Floating point gives a double for numbers. -/
theorem exists_call_float (hargs : firstError? args = none)
    (hnumbers : ∀ a ∈ args, ∃ x, a.toFloat? = some x)
    (hcount : o = sub ∨ o = div → args.length = 2) : ∃ x, o.call .float args = .double x := by
  obtain ⟨f, hf⟩ := exists_call_float_eq hargs hcount
  obtain ⟨xs, hxs⟩ := Value.exists_mapM hnumbers
  exact ⟨f xs, by rw [hf, onFloats, hxs]⟩

/-- On two whole numbers the steps overflow exactly if the result does not fit. -/
theorem isExact_pair_iff {m n : BitVec 64}
    (hq : rationalResult? o.name [(m.toInt : ℚ), (n.toInt : ℚ)] = some q) :
    o.IsExact [.int m, .int n] q ↔ Fits 64 q := by
  have hm := Value.represents_ofWord (show 1 < 64 by decide) m
  have hn := Value.represents_ofWord (show 1 < 64 by decide) n
  have hresult : o.result? (Fraction.ofWord m).toRat (Fraction.ofWord n).toRat = some q := by
    rw [hm.toRat_eq, hn.toRat_eq, ← hq]
    cases o with
    | add => simp [result?, name, rationalResult?]
    | mul => simp [result?, name, rationalResult?]
    | sub => rfl
    | div => rfl
  have hfold : (o.fold [.ofWord m, .ofWord n]).unlessOverflow = ofRat? 64 q := by
    rw [unlessOverflow_fold_pair hm]
    exact unlessOverflow_apply_of_isInteger (by decide) rfl rfl hresult
  have hflag : ((o.fold [.ofWord m, .ofWord n]).run {}).2.overflow = false ↔ Fits 64 q := by
    rw [← not_iff_not, Bool.not_eq_false, ← unlessOverflow_eq_none, hfold, ofRat?_eq_none]
  rw [← hflag]
  constructor
  · rintro ⟨fs, hfs, -, hdown⟩
    cases hfs
    exact hdown
  · intro hdown
    refine ⟨[.ofWord m, .ofWord n], rfl, ?_, hdown⟩
    rw [List.map_cons, List.map_cons, List.map_nil, hm.toRat_eq, hn.toRat_eq, hq]

theorem rat?_call_float (hargs : firstError? args = none)
    (hcount : o = sub ∨ o = div → args.length = 2) : (o.call .float args).rat? = none := by
  rcases call_float hargs hcount with ⟨x, hx⟩ | hx
  · rw [hx]
    rfl
  · rw [hx]
    rfl

/-- The three outcomes in the exact mode. -/
theorem call_exact_cases (hargs : ∀ a ∈ args, a.Operand)
    (hcount : o = sub ∨ o = div → args.length = 2) :
    (∃ q, o.IsExact args q ∧ (o.call .exact args).Exactly q) ∨
      (o.DividesByZero args ∧ o.call .exact args = .divisionByZero) ∨
      (¬ (∃ q, o.IsExact args q) ∧ ¬ o.DividesByZero args ∧
        o.call .exact args = o.call .float args) := by
  have hcall := call_exact (firstError?_eq_none fun a ha => (hargs a ha).not_isError) hcount
  cases hvalue : o.exactValue? args with
  | none =>
      rw [hvalue, Option.getD_none] at hcall
      refine .inr (.inr ⟨?_, ?_, hcall⟩)
      · rintro ⟨q, h⟩
        obtain ⟨v, hv, -⟩ := h.exactValue? hargs
        rw [hvalue] at hv
        cases hv
      · intro h
        have hzero := h.exactValue? hargs
        rw [hvalue] at hzero
        cases hzero
  | some v =>
      rw [hvalue, Option.getD_some] at hcall
      rw [hcall]
      rcases exactValue?_eq_some hargs hcount hvalue with h | h
      · exact .inl h
      · exact .inr (.inl h)

/-- Exact or floating point, never a mix. The canonical form of the true result is given exactly if
all operands are exact, the result is defined and no step overflows; division by zero is reported
exactly if an exact value is divided by zero; in all other cases the value is what floating point
gives for the same operands. On two whole numbers a step overflows exactly if the result does not
fit. -/
theorem exact_or_float (o : Operation) (hargs : ∀ a ∈ args, a.Operand)
    (hcount : o = sub ∨ o = div → args.length = 2) :
    (∀ q, (o.call .exact args).Exactly q ↔ o.IsExact args q) ∧
    ((∃ e, o.call .exact args = .error e ∧ e.kind = .divisionByZero) ↔ o.DividesByZero args) ∧
    (o.DividesByZero args → o.call .exact args = .divisionByZero) ∧
    (¬ (∃ q, o.IsExact args q) → ¬ o.DividesByZero args →
      o.call .exact args = o.call .float args) ∧
    ∀ m n q, args = [.int m, .int n] →
      rationalResult? o.name [(m.toInt : ℚ), (n.toInt : ℚ)] = some q →
      (o.IsExact args q ↔ Fits 64 q) := by
  have hnoError := firstError?_eq_none fun a ha => (hargs a ha).not_isError
  have hcall := call_exact hnoError hcount
  have hzero : o.DividesByZero args → o.call .exact args = .divisionByZero := by
    intro h
    rw [hcall, h.exactValue? hargs]
    rfl
  have hexact : ∀ {q}, o.IsExact args q → (o.call .exact args).Exactly q := by
    intro q h
    obtain ⟨v, hv, hexactly⟩ := h.exactValue? hargs
    rwa [hcall, hv]
  refine ⟨fun q => ⟨fun h => ?_, hexact⟩, ⟨?_, fun h => ⟨_, hzero h, rfl⟩⟩, hzero, ?_, ?_⟩
  · rcases call_exact_cases hargs hcount with ⟨p, hp, hv⟩ | ⟨-, hv⟩ | ⟨-, -, hv⟩
    · obtain rfl : p = q := Option.some.inj (hv.2.symm.trans h.2)
      exact hp
    · rw [hv] at h
      cases h.2
    · have hrat := h.2
      rw [hv, rat?_call_float hnoError hcount] at hrat
      cases hrat
  · rintro ⟨e, he, hkind⟩
    rcases call_exact_cases hargs hcount with ⟨p, -, hv⟩ | ⟨h, -⟩ | ⟨-, -, hv⟩
    · rw [he] at hv
      cases hv.2
    · exact h
    · rw [he] at hv
      rcases call_float hnoError hcount with ⟨x, hx⟩ | hx
      · rw [hx] at hv
        cases hv
      · rw [hx] at hv
        cases hv
        cases hkind
  · intro hnone hnot
    rcases call_exact_cases hargs hcount with ⟨q, hq, -⟩ | ⟨h, -⟩ | ⟨-, -, hv⟩
    · exact absurd ⟨q, hq⟩ hnone
    · exact absurd h hnot
    · exact hv
  · rintro m n q rfl hq
    exact isExact_pair_iff hq

/-- The least whole number less one does not fit, so the difference is left to floating point. -/
theorem exact_or_float_least :
    let args : List Value := [.int (Word.least 64), .int 1#64]
    (∀ a ∈ args, a.Operand) ∧ args.length = 2 ∧
      sub.call .exact args = sub.call .float args := by
  intro args
  have hargs : ∀ a ∈ args, a.Operand := by
    simp [args, Value.Operand, Value.Reduced]
  have hcount : args.length = 2 := rfl
  have h := exact_or_float sub hargs fun _ => hcount
  refine ⟨hargs, hcount, h.2.2.2.1 ?_ ?_⟩
  · rintro ⟨q, hq⟩
    obtain ⟨fs, hfs, hresult, -⟩ := id hq
    cases hfs
    cases hresult
    have hfits := (h.2.2.2.2 _ _ _ rfl (by decide +kernel)).1 hq
    exact absurd hfits (by decide +kernel)
  · rintro ⟨ho, -⟩
    cases ho

end Fraction.Operation

end Reckoner
