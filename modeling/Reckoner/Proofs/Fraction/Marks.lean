import Reckoner.Fraction
import Reckoner.Proofs.Word.Gcd

/-!
Marks are only ever raised.

No computation with words or fractions looks at the marks that it finds: it gives what it gives from
no mark raised, and adds its own marks to those that were there. So a mark that is raised stays
raised, and whether a chain of operations overflows can be asked of each operation by itself.
-/
namespace Reckoner

/-- The marks that are raised in one status or the other. -/
def Status.join (s t : Status) : Status :=
  ⟨s.overflow || t.overflow, s.fault || t.fault⟩

theorem Status.join_empty (s : Status) : s.join {} = s := by
  simp [join]

theorem Status.join_assoc (s t u : Status) : (s.join t).join u = s.join (t.join u) := by
  simp [join, Bool.or_assoc]

namespace Checked

variable {α β : Type} {x : Checked α} {f : α → Checked β}

/-- The computation does not depend on the marks that it finds, and adds its own to them. -/
def Oblivious (x : Checked α) : Prop :=
  ∀ s : Status, x.run s = ((x.run {}).1, s.join (x.run {}).2)

theorem oblivious_of_run {a : α} {t : Status} (h : ∀ s, x.run s = (a, s.join t)) : Oblivious x := by
  intro s
  have hempty : ({} : Status).join t = t := by simp [Status.join]
  rw [h s, h {}, hempty]

/-- A computation that gives `a` and raises nothing. -/
theorem oblivious_of_silent {a : α} (h : ∀ s, x.run s = (a, s)) : Oblivious x := by
  apply oblivious_of_run (a := a) (t := {})
  intro s
  rw [h s, s.join_empty]

theorem oblivious_pure (a : α) : Oblivious (pure a : Checked α) :=
  oblivious_of_silent fun _ => rfl

theorem Oblivious.bind (hx : Oblivious x) (hf : ∀ a, Oblivious (f a)) : Oblivious (x >>= f) := by
  intro s
  rw [run_bind, run_bind, hx s, hf _ (s.join _), hf _ (x.run {}).2, s.join_assoc]

theorem oblivious_mark (wrapped : Bool) : Oblivious (mark wrapped) := by
  apply oblivious_of_run (a := ()) (t := ⟨wrapped, false⟩)
  intro s
  simp [Status.join]

theorem oblivious_expect (safe : Bool) : Oblivious (expect safe) := by
  apply oblivious_of_run (a := ()) (t := ⟨false, !safe⟩)
  intro s
  simp [Status.join]

/-- An overflow that was there stays, and whether there is a new one does not depend on it. -/
theorem Oblivious.overflow (hx : Oblivious x) (s : Status) :
    (x.run s).2.overflow = (s.overflow || (x.run {}).2.overflow) := by
  rw [hx s]
  rfl

theorem Oblivious.result (hx : Oblivious x) (s : Status) : (x.run s).1 = x.result := by
  rw [hx s]
  rfl

theorem unlessOverflow_eq (x : Checked α) :
    x.unlessOverflow = if (x.run {}).2.overflow then none else some x.result :=
  rfl

theorem unlessOverflow_eq_none : x.unlessOverflow = none ↔ (x.run {}).2.overflow = true := by
  rw [unlessOverflow_eq]
  split <;> simp_all

/-- The computations of a chain can be asked one by one whether they overflow. -/
theorem unlessOverflow_bind (hf : ∀ a, Oblivious (f a)) :
    (x >>= f).unlessOverflow = x.unlessOverflow.bind fun a => (f a).unlessOverflow := by
  have hchain : (x >>= f).run {} = (f x.result).run (x.run {}).2 := rfl
  have hoverflow := (hf x.result).overflow (x.run {}).2
  rw [unlessOverflow_eq, unlessOverflow_eq, hchain, hoverflow]
  cases (x.run {}).2.overflow with
  | true => rfl
  | false =>
      have hresult : (x >>= f).result = (f x.result).result := (hf x.result).result (x.run {}).2
      rw [hresult]
      rfl

/-- A computation that gives `a` and raises nothing can be left out. -/
theorem unlessOverflow_bind_of_run {a : α} (hx : x.run {} = (a, {})) :
    (x >>= f).unlessOverflow = (f a).unlessOverflow := by
  have hrun : (x >>= f).run {} = (f a).run {} := by rw [run_bind, hx]
  rw [unlessOverflow_eq, unlessOverflow_eq, result, result, hrun]

theorem unlessOverflow_bind_eq_none (hf : ∀ a, Oblivious (f a))
    (hx : (x.run {}).2.overflow = true) : (x >>= f).unlessOverflow = none := by
  rw [unlessOverflow_bind hf, unlessOverflow_eq_none.2 hx, Option.bind_none]

/-- A fold of computations that do not look at the marks is one too. -/
theorem oblivious_foldlM {step : α → β → Checked α} (hstep : ∀ a b, Oblivious (step a b))
    (a : α) (bs : List β) : Oblivious (bs.foldlM step a) := by
  induction bs generalizing a with
  | nil => exact oblivious_pure a
  | cons b rest ih =>
      rw [List.foldlM_cons]
      exact (hstep a b).bind ih

/-- A chain overflows if one of its steps does, each taken by itself. -/
theorem unlessOverflow_foldlM {step : α → β → Checked α} (hstep : ∀ a b, Oblivious (step a b))
    (a : α) (bs : List β) :
    (bs.foldlM step a).unlessOverflow = bs.foldlM (fun a b => (step a b).unlessOverflow) a := by
  induction bs generalizing a with
  | nil => rfl
  | cons b rest ih =>
      rw [List.foldlM_cons, unlessOverflow_bind fun a => oblivious_foldlM hstep a rest,
        List.foldlM_cons]
      exact congrArg _ (funext ih)

end Checked

namespace Word

open Checked

variable {w : Nat}

/-- A checked operation that raises `overflow` in a case of its own and no fault. -/
theorem oblivious_of_run_marks {x : Checked (BitVec w)} {a : BitVec w} {wrapped : Bool}
    (h : ∀ s, x.run s = (a, { s with overflow := s.overflow || wrapped })) : Oblivious x := by
  apply oblivious_of_run (a := a) (t := ⟨wrapped, false⟩)
  intro s
  simp [h s, Status.join]

theorem oblivious_add (a b : BitVec w) : Oblivious (add a b) :=
  oblivious_of_run_marks (run_add a b)

theorem oblivious_sub (a b : BitVec w) : Oblivious (sub a b) :=
  oblivious_of_run_marks (run_sub a b)

theorem oblivious_mul (a b : BitVec w) : Oblivious (mul a b) :=
  oblivious_of_run_marks (run_mul a b)

theorem oblivious_quotient (a b : BitVec w) : Oblivious (quotient a b) :=
  (oblivious_expect _).bind fun _ => oblivious_pure _

theorem oblivious_opposite (a : BitVec w) : Oblivious (opposite a) :=
  (oblivious_expect _).bind fun _ => oblivious_pure _

theorem oblivious_gcd (a b : BitVec w) : Oblivious (gcd a b) := by
  obtain ⟨g, hrun, -⟩ := run_gcd a b
  exact oblivious_of_silent hrun

end Word

namespace Fraction

open Checked Word

variable {w : Nat}

theorem oblivious_normalize (f : Fraction w) : Oblivious f.normalize := by
  unfold normalize
  split
  · exact oblivious_pure _
  · refine (oblivious_gcd _ _).bind fun g => ?_
    refine (oblivious_quotient _ _).bind fun n => (oblivious_quotient _ _).bind fun d => ?_
    split
    · exact oblivious_pure _
    · split
      · exact (oblivious_mark _).bind fun _ => oblivious_pure _
      · refine (oblivious_opposite _).bind fun _ => ?_
        exact (oblivious_opposite _).bind fun _ => oblivious_pure _

theorem oblivious_align (a b : Fraction w) : Oblivious (align a b) := by
  unfold align
  refine (oblivious_gcd _ _).bind fun g => ?_
  split
  · exact oblivious_pure _
  · refine (oblivious_quotient _ _).bind fun _ => (oblivious_mul _ _).bind fun _ => ?_
    refine (oblivious_quotient _ _).bind fun _ => (oblivious_mul _ _).bind fun _ => ?_
    refine (oblivious_quotient _ _).bind fun _ => (oblivious_mul _ _).bind fun _ => ?_
    exact oblivious_pure _

theorem oblivious_add (a b : Fraction w) : Oblivious (add a b) :=
  (oblivious_align a b).bind fun _ =>
    (Word.oblivious_add _ _).bind fun _ => oblivious_normalize _

theorem oblivious_sub (a b : Fraction w) : Oblivious (sub a b) :=
  (oblivious_align a b).bind fun _ =>
    (Word.oblivious_sub _ _).bind fun _ => oblivious_normalize _

theorem oblivious_mul (a b : Fraction w) : Oblivious (mul a b) :=
  (Word.oblivious_mul _ _).bind fun _ =>
    (Word.oblivious_mul _ _).bind fun _ => oblivious_normalize _

theorem oblivious_div (a b : Fraction w) : Oblivious (div a b) :=
  (Word.oblivious_mul _ _).bind fun _ =>
    (Word.oblivious_mul _ _).bind fun _ => oblivious_normalize _

end Fraction

end Reckoner
