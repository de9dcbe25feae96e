import Reckoner.Proofs.Expr.Completeness
import Reckoner.Proofs.Expr.Regrouped

/-!
The value of the tree that is read back.

Where one value is exact the other is the same one or a double, as both trees stand for one rational
number. Doubles depend on the grouping of operands, since an exact sum or product that overflows on
the way is done in floating point. But a value stays if no sum or product that is read back in
another grouping is a double, in the grouping of the tree or in the other one.
-/
namespace Reckoner

namespace Expr

open Standard (registry)

/-- The sum or product is read back in another grouping: not with its own operands. -/
def Regrouped (minimal : Bool) (e : Expr) : Prop :=
  ∃ (o : BinaryOperator) (args : List Expr), o.flattens = true ∧ e = call o.place args ∧
    e.readBack minimal ≠ call o.place (args.map (readBack minimal))

/-- Evaluated from this store the tree keeps its value when it is read back, if its operands do. A
whole number without sign is negated in the exact mode only. A sum or product that is read back in
another grouping is evaluated in the exact mode, and it is no double, nor is what is read back. -/
structure Steady (minimal : Bool) (e : Expr) (s : Store) : Prop where
  negation : ∀ k : BitVec 64, e = call Standard.negation [literal (.int k)] → 0 ≤ k.toInt →
    s.mode = .exact
  sum : Regrouped minimal e → s.mode = .exact ∧ s.WellFormed ∧ e.WellFormed ∧
    (∀ x, (e.eval registry s).1 ≠ .double x) ∧
    ∀ x, ((e.readBack minimal).eval registry s).1 ≠ .double x

variable {e : Expr} {o : BinaryOperator} {minimal : Bool} {es es' rest rest' : List Expr}
  {s : Store}

/-! ## Exact values -/

/-- An exact value is that of the tree that is read back too, unless this one is a double. -/
theorem eval_readBack_of_exact (minimal : Bool) (he : e.WellFormed) (hmode : s.mode = .exact)
    (hs : s.WellFormed) {q : ℚ} (hq : (e.eval registry s).1.rat? = some q) :
    ((e.readBack minimal).eval registry s).1 = (e.eval registry s).1 ∨
      ∃ x, ((e.readBack minimal).eval registry s).1 = .double x :=
  eval_eq_or_double he (he.readBack minimal) hmode hs (reference?_readBack minimal e _) hq

/-- If the tree that is read back has an exact value then so has the tree itself, unless its value
is a double. -/
theorem eval_of_readBack_exact (minimal : Bool) (he : e.WellFormed) (hmode : s.mode = .exact)
    (hs : s.WellFormed) {q : ℚ} (hq : ((e.readBack minimal).eval registry s).1.rat? = some q) :
    (e.eval registry s).1 = ((e.readBack minimal).eval registry s).1 ∨
      ∃ x, (e.eval registry s).1 = .double x :=
  eval_eq_or_double (he.readBack minimal) he hmode hs (reference?_readBack minimal e _).symm hq

/-! ## How evaluation goes -/

/-- How the evaluation of several trees goes, but for their values: whether it gets through, and the
store afterwards. -/
def course (es : List Expr) (s : Store) : Except CalcError Unit × Store :=
  ((evalAll registry es s).1.map fun _ => (), (evalAll registry es s).2)

theorem course_of_ok {vs : List Value} {s' : Store} (h : evalAll registry es s = (.ok vs, s')) :
    course es s = (.ok (), s') := by
  rw [course, h]
  rfl

theorem course_of_error {err : CalcError} {s' : Store}
    (h : evalAll registry es s = (.error err, s')) : course es s = (.error err, s') := by
  rw [course, h]
  rfl

theorem evalAll_of_course_ok {s' : Store} (h : course es s = (.ok (), s')) :
    ∃ vs, evalAll registry es s = (.ok vs, s') := by
  rcases hall : evalAll registry es s with ⟨err | vs, s₁⟩
  · rw [course_of_error hall] at h
    cases h
  · rw [course_of_ok hall] at h
    exact ⟨vs, by rw [(Prod.mk.inj h).2]⟩

theorem evalAll_of_course_error {err : CalcError} {s' : Store}
    (h : course es s = (.error err, s')) : evalAll registry es s = (.error err, s') := by
  rcases hall : evalAll registry es s with ⟨err' | vs, s₁⟩
  · rw [course_of_error hall] at h
    cases h
    rfl
  · rw [course_of_ok hall] at h
    cases h

theorem evalAll_append (r : Registry) (es es' : List Expr) (s : Store) :
    evalAll r (es ++ es') s =
      match evalAll r es s with
      | (.ok vs, s) =>
        match evalAll r es' s with
        | (.ok ws, s) => (.ok (vs ++ ws), s)
        | (.error err, s) => (.error err, s)
      | (.error err, s) => (.error err, s) := by
  induction es generalizing s with
  | nil =>
      simp only [List.nil_append, evalAll]
      rcases evalAll r es' s with ⟨err | ws, s₁⟩ <;> rfl
  | cons e rest ih =>
      rw [List.cons_append]
      rcases eval_cases r e s with ⟨err, s₁, heval⟩ | ⟨v, s₁, heval, hv⟩
      · rw [evalAll_cons_of_error heval, evalAll_cons_of_error heval]
      · rw [evalAll_cons_of_not_error heval hv, evalAll_cons_of_not_error heval hv, ih]
        rcases evalAll r rest s₁ with ⟨err | vs, s₂⟩
        · rfl
        · dsimp only
          rcases evalAll r es' s₂ with ⟨err | ws, s₃⟩ <;> rfl

theorem course_append (es es' : List Expr) (s : Store) :
    course (es ++ es') s =
      match course es s with
      | (.ok _, s) => course es' s
      | (.error err, s) => (.error err, s) := by
  rcases hall : evalAll registry es s with ⟨err | vs, s₁⟩
  · rw [course_of_error hall, course_of_error]
    rw [evalAll_append, hall]
  · rw [course_of_ok hall]
    rcases hall' : evalAll registry es' s₁ with ⟨err | ws, s₂⟩
    · simp only [course_of_error hall']
      refine course_of_error ?_
      simp only [evalAll_append, hall, hall']
    · simp only [course_of_ok hall']
      have happend : evalAll registry (es ++ es') s = (.ok (vs ++ ws), s₂) := by
        simp only [evalAll_append, hall, hall']
      exact course_of_ok happend

theorem course_append_congr (h : course es s = course es' s)
    (hrest : ∀ s', course es s = (.ok (), s') → course rest s' = course rest' s') :
    course (es ++ rest) s = course (es' ++ rest') s := by
  rw [course_append, course_append, ← h]
  rcases hall : course es s with ⟨err | ⟨⟩, s'⟩
  · rfl
  · exact hrest s' hall

theorem course_cons_congr {e' : Expr} (h : e.eval registry s = e'.eval registry s) :
    course (e :: rest) s = course (e' :: rest) s := by
  simp only [course, evalAll, h]

/-- A sum or product of numbers is a double or exact. -/
theorem eval_sum (ho : o.flattens = true) (hes : WellFormedAll es) (hmode : s.mode = .exact)
    (hs : s.WellFormed) {vs : List Value} {s' : Store}
    (hall : evalAll registry es s = (.ok vs, s')) :
    ∃ v, (call o.place es).eval registry s = (v, s') ∧
      ((∃ x, v = .double x) ∨ ∃ q, v.Exactly q) := by
  have hsound := soundAllAt_evalAll es s hes hmode hs
  have heval := eval_call (BinaryOperator.get?_place o) es s
  rw [hall] at hsound heval
  exact ⟨_, heval, (BinaryOperator.call_cases ho hsound.mode (hsound.values vs rfl)).imp_right
    fun ⟨_, _, hexact⟩ => ⟨_, hexact⟩⟩

/-- A sum or product goes like its operands: numbers have a sum and a product. -/
theorem course_sum (ho : o.flattens = true) {inner : List Expr} (hinner : WellFormedAll inner)
    (hmode : s.mode = .exact) (hs : s.WellFormed) :
    course [call o.place inner] s = course inner s := by
  rcases hall : evalAll registry inner s with ⟨err | vs, s'⟩
  · have heval := eval_call (BinaryOperator.get?_place o) inner s
    rw [hall] at heval
    rw [course_of_error hall, course_of_error (evalAll_cons_of_error heval)]
  · obtain ⟨v, heval, hv⟩ := eval_sum ho hinner hmode hs hall
    have herror : v.isError = false := by
      rcases hv with ⟨x, rfl⟩ | ⟨q, hq⟩
      · rfl
      · exact hq.1.not_isError
    rw [course_of_ok hall]
    exact course_of_ok (evalAll_cons_of_not_error heval herror)

/-- Two sums of the same rational number whose operands go the same way are equal if neither is a
double. -/
theorem eval_sum_eq (ho : o.flattens = true) (hes : WellFormedAll es) (hes' : WellFormedAll es')
    (hmode : s.mode = .exact) (hs : s.WellFormed) (hcourse : course es' s = course es s)
    (hreference : (call o.place es').reference? registry s.rationals =
      (call o.place es).reference? registry s.rationals)
    (h : ∀ x, ((call o.place es).eval registry s).1 ≠ .double x)
    (h' : ∀ x, ((call o.place es').eval registry s).1 ≠ .double x) :
    (call o.place es').eval registry s = (call o.place es).eval registry s := by
  rcases hresult : course es s with ⟨err | ⟨⟩, s'⟩
  · have heval := eval_call (BinaryOperator.get?_place o) es s
    have heval' := eval_call (BinaryOperator.get?_place o) es' s
    rw [evalAll_of_course_error hresult] at heval
    rw [evalAll_of_course_error (hcourse.trans hresult)] at heval'
    rw [heval, heval']
  · obtain ⟨vs, hall⟩ := evalAll_of_course_ok hresult
    obtain ⟨ws, hall'⟩ := evalAll_of_course_ok (hcourse.trans hresult)
    obtain ⟨v, heval, hv⟩ := eval_sum ho hes hmode hs hall
    obtain ⟨w, heval', -⟩ := eval_sum ho hes' hmode hs hall'
    have he : (call o.place es).WellFormed := hes
    have he' : (call o.place es').WellFormed := hes'
    rw [heval] at h
    obtain ⟨q, hq⟩ := hv.resolve_left fun ⟨x, hx⟩ => h x hx
    have hvalue := (eval_eq_or_double he he' hmode hs hreference (by rw [heval]; exact hq.2))
      |>.resolve_right fun ⟨x, hx⟩ => h' x hx
    rw [heval, heval'] at hvalue
    rw [heval, heval', show w = v from hvalue]

/-- Operands that are gathered from a first one that is a sum go the same way. -/
theorem course_of_joined (ho : o.flattens = true) (hes : WellFormedAll es) (hmode : s.mode = .exact)
    (hs : s.WellFormed) {pieces : List Expr} (h : joined o.place es = call o.place pieces) :
    course pieces s = course es s := by
  unfold joined at h
  split at h
  next f inner rest =>
    split at h
    next hf =>
      obtain rfl := (Expr.call.inj h).2
      subst hf
      exact course_append_congr (course_sum ho hes.1 hmode hs).symm fun _ _ => rfl
    next => rw [(Expr.call.inj h).2]
  next => rw [(Expr.call.inj h).2]

theorem eval_of_course_ok {s' : Store} (h : course [e] s = (.ok (), s')) :
    (e.eval registry s).1.isError = false ∧ (e.eval registry s).2 = s' := by
  obtain ⟨vs, hvs⟩ := evalAll_of_course_ok h
  rcases eval_cases registry e s with ⟨err, s₁, heval⟩ | ⟨v, s₁, heval, hv⟩
  · rw [evalAll_cons_of_error heval] at hvs
    cases hvs
  · rw [evalAll_cons_of_not_error heval hv] at hvs
    rw [heval]
    exact ⟨hv, (Prod.mk.inj hvs).2⟩

/-- One operand that goes like others, and then the rest. -/
theorem course_operand {C : Expr → Store → Prop} {pieces : List Expr} (he : e.WellFormed)
    (hmode : s.mode = .exact) (hs : s.WellFormed) (hpieces : course pieces s = course [e] s)
    (hreaches : ∀ e₁ s₁, ReachesAll registry (e :: rest) s e₁ s₁ → C e₁ s₁)
    (hrest : ∀ s, (∀ e₁ s₁, ReachesAll registry rest s e₁ s₁ → C e₁ s₁) → s.mode = .exact →
      s.WellFormed → course rest' s = course rest s) :
    course (pieces ++ rest') s = course (e :: rest) s := by
  refine course_append_congr hpieces fun s' hok => ?_
  obtain ⟨herror, rfl⟩ := eval_of_course_ok (hpieces.symm.trans hok)
  have hsound := soundAt_eval e s he hmode hs
  exact hrest _ (fun e₁ s₁ hreach => hreaches e₁ s₁ (.tail herror hreach)) hsound.mode hsound.store

/-! ## Values that stay -/

theorem negate_int {k : BitVec 64} (hk : 0 ≤ k.toInt) :
    Standard.negate .exact [.int k] = .int (-k) := by
  have hleast : k ≠ Word.least 64 := by
    rintro rfl
    exact absurd hk (by decide)
  have hopposite : (Value.int (-k)).Exactly (-k.toInt : ℚ) := by
    have hunsigned : (Value.int k).isUnsigned = true := decide_eq_true hk
    exact ⟨trivial, rat?_opposite hunsigned⟩
  have hneg := Standard.represents_neg (Value.represents_ofWord (by decide) k) hleast
  have hvalue : Standard.negate .exact [.int k] = .ofFraction (Fraction.ofWord k).neg := by
    simp [Standard.negate, Standard.unaryExact, Value.toFraction?, Fraction.ofWord, hleast]
  rw [hvalue]
  exact (Value.exactly_ofFraction hneg).unique hopposite

/-- The negation of a number without sign. -/
theorem eval_opposite {v : Value} (hv : v.isUnsigned = true)
    (hmode : ∀ k, v = .int k → s.mode = .exact) :
    (call Standard.negation [literal v]).eval registry s = (v.opposite, s) := by
  have heval := eval_call Standard.get?_negation [literal v] s
  have hall : evalAll registry [literal v] s = (.ok [v], s) := by
    cases v with
    | error e => cases hv
    | _ => simp [evalAll, eval]
  rw [hall] at heval
  rw [heval]
  cases v with
  | int k =>
      have hk : 0 ≤ k.toInt := of_decide_eq_true hv
      show (Standard.negate s.mode [.int k], s) = _
      rw [hmode k rfl, negate_int hk]
      rfl
  | double x =>
      have hnegate : ∀ mode, Standard.negate mode [.double x] = .double (-x) := fun mode => by
        cases mode <;> rfl
      show (Standard.negate s.mode [.double x], s) = _
      rw [hnegate]
      rfl
  | _ => cases hv

theorem eval_assign_of_ne {r : Registry} {target value : Expr}
    (h : ∀ name i, target ≠ .var name i) (s : Store) :
    (assign target value).eval r s = (.fail .badType "Variable expected on left side", s) := by
  cases target with
  | var name i => exact absurd rfl (h name i)
  | _ => rfl

/-- Trees whose values stay, one after the other. -/
theorem evalAll_map_congr {f : Expr → Expr} {C : Expr → Store → Prop}
    (h : ∀ e ∈ es, ∀ s, (∀ e₁ s₁, Reaches registry e s e₁ s₁ → C e₁ s₁) →
      (f e).eval registry s = e.eval registry s)
    (hreaches : ∀ e₁ s₁, ReachesAll registry es s e₁ s₁ → C e₁ s₁) :
    evalAll registry (es.map f) s = evalAll registry es s := by
  induction es generalizing s with
  | nil => rfl
  | cons e rest ih =>
      have hfirst := h e List.mem_cons_self s fun e₁ s₁ hreach => hreaches e₁ s₁ (.head hreach)
      rcases eval_cases registry e s with ⟨err, s', heval⟩ | ⟨v, s', heval, hv⟩
      · rw [heval] at hfirst
        rw [List.map_cons, evalAll_cons_of_error heval, evalAll_cons_of_error hfirst]
      · rw [heval] at hfirst
        have hrest := ih (s := s') (fun e he => h e (List.mem_cons_of_mem _ he))
          fun e₁ s₁ hreach => hreaches e₁ s₁ (.tail (by rw [heval]; exact hv) (by rwa [heval]))
        rw [List.map_cons, evalAll_cons_of_not_error heval hv, evalAll_cons_of_not_error hfirst hv,
          hrest]

/-- A call whose arguments keep their values when they are read back keeps its own. -/
theorem eval_call_map {f : Expr → Expr} {C : Expr → Store → Prop} {id : FunctionId}
    (h : ∀ e ∈ es, ∀ s, (∀ e₁ s₁, Reaches registry e s e₁ s₁ → C e₁ s₁) →
      (f e).eval registry s = e.eval registry s)
    (hreaches : ∀ e₁ s₁, Reaches registry (call id es) s e₁ s₁ → C e₁ s₁) :
    (call id (es.map f)).eval registry s = (call id es).eval registry s := by
  cases hget : registry.get? id with
  | none => simp only [eval, hget]
  | some g =>
      have hall := evalAll_map_congr h fun e₁ s₁ hreach => hreaches e₁ s₁ (.argument hget hreach)
      simp only [eval, hall]

/-- A sum that is read back in another grouping keeps its value if its operands go the same way. -/
theorem Steady.eval_regrouped {args : List Expr} (h : Steady minimal (call o.place args) s)
    (ho : o.flattens = true) (hlength : 2 ≤ args.length)
    (hregrouped : Regrouped minimal (call o.place args))
    (hcourse : s.mode = .exact → s.WellFormed → WellFormedAll args →
      course (spread minimal o.place args) s = course args s) :
    ((call o.place args).readBack minimal).eval registry s = (call o.place args).eval registry s := by
  obtain ⟨hmode, hs, he, hdouble, hdouble'⟩ := h.sum hregrouped
  obtain ⟨pieces, hpieces⟩ := exists_joined o.place (spread minimal o.place args)
  have hread : (call o.place args).readBack minimal = call o.place pieces := by
    rw [readBack_of_flattens ho hlength, hpieces]
  have hwell := he.readBack minimal
  have hreference := reference?_readBack minimal (call o.place args) s.rationals
  rw [hread] at hdouble' hwell hreference ⊢
  have hjoined : course pieces s = course (spread minimal o.place args) s := by
    have hspread : (joined o.place (spread minimal o.place args)).WellFormed := by rwa [hpieces]
    exact course_of_joined ho (wellFormed_joined.1 hspread) hmode hs hpieces
  exact eval_sum_eq ho he hwell hmode hs (hjoined.trans (hcourse hmode hs he)) hreference hdouble
    hdouble'

/-- A tree keeps its value when it is read back if everything that is evaluated on the way does so
for its part. -/
theorem eval_readBack (minimal : Bool) (e : Expr) (s : Store)
    (h : ∀ e₁ s₁, Reaches registry e s e₁ s₁ → Steady minimal e₁ s₁) :
    (e.readBack minimal).eval registry s = e.eval registry s := by
  -- The values of several operands change with their grouping, but not the course of evaluation.
  induction e using readBack_induction minimal (R := fun o es => ∀ s,
    (∀ e₁ s₁, ReachesAll registry es s e₁ s₁ → Steady minimal e₁ s₁) → s.mode = .exact →
      s.WellFormed → WellFormedAll es → course (spread minimal o.place es) s = course es s)
    generalizing s with
  | literal v => rw [readBack]
  | var name id => rw [readBack]
  | constant name v => rw [readBack]
  | signed v hv =>
      have hmode : ∀ k, v = .int k → s.mode = .exact := by
        rintro k rfl
        exact (h _ _ (.self _ _)).negation k rfl (of_decide_eq_true hv)
      rw [readBack, signed?, if_pos ⟨rfl, hv⟩, eval_opposite hv hmode]
      exact eval.eq_1 registry s v.opposite
  | sum o args ho hlength hargs hspread =>
      by_cases hregrouped : Regrouped minimal (call o.place args)
      · refine (h _ _ (.self _ _)).eval_regrouped ho hlength hregrouped
          (hspread s fun e₁ s₁ hreach => ?_)
        exact h e₁ s₁ (.argument (BinaryOperator.get?_place o) hreach)
      · have hread : (call o.place args).readBack minimal =
            call o.place (args.map (readBack minimal)) := by
          by_contra hne
          exact hregrouped ⟨o, args, ho, rfl, hne⟩
        rw [hread]
        exact eval_call_map hargs h
  | call id args hsigned hplain ih =>
      rw [readBack_call hsigned hplain]
      exact eval_call_map ih h
  | assign target value _ hvalue =>
      rw [readBack]
      by_cases htarget : ∃ name i, target = .var name i
      · obtain ⟨name, i, rfl⟩ := htarget
        have hstays := hvalue s fun e₁ s₁ hreach => h e₁ s₁ (.assigned hreach)
        simp only [readBack, eval, hstays]
      · have hne : ∀ name i, target ≠ .var name i := fun name i heq => htarget ⟨name, i, heq⟩
        rw [eval_assign_of_ne hne,
          eval_assign_of_ne fun name i heq => hne name i (readBack_eq_var heq)]
  | nil o s => rw [spread_nil]
  | whole o e rest ho hone ih hrest s h hmode hs hes =>
      rw [spread_cons, hone]
      refine course_operand hes.1 hmode hs ?_ h fun s' h' hmode' hs' => hrest s' h' hmode' hs' hes.2
      exact course_cons_congr (ih s fun e₁ s₁ hreach => h e₁ s₁ (.head hreach))
  | own o args rest ho hown ih _ hrest s h hmode hs hes =>
      rw [spread_cons, hown]
      refine course_operand hes.1 hmode hs ?_ h fun s' h' hmode' hs' => hrest s' h' hmode' hs' hes.2
      have hreaches : ∀ e₁ s₁, ReachesAll registry args s e₁ s₁ → Steady minimal e₁ s₁ :=
        fun e₁ s₁ hreach => h e₁ s₁ (.head (.argument (BinaryOperator.get?_place o) hreach))
      rw [course_sum ho hes.1 hmode hs]
      exact ih s hreaches hmode hs hes.1

end Expr

end Reckoner
