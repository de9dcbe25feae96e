import Reckoner.Proofs.Calculator
import Reckoner.Proofs.Expr.Exact
import Reckoner.Proofs.Parser.Errors
import Reckoner.Proofs.Standard.Constants
import Reckoner.Proofs.Standard.Doubles

/-!
Exact evaluation of what has been read.

All numbers in a tree that has been read are in canonical form, and evaluation keeps the store so,
so what holds of the evaluation of a tree holds of every evaluation that it consists of. A text that
cannot be read gives an error that is no division by zero.
-/
namespace Reckoner

namespace Expr

open Standard (registry)

variable {e e₁ : Expr} {es : List Expr} {s s₁ : Store}

/-! ## The evaluations that an evaluation consists of -/

mutual

/-- A reached tree is well-formed and evaluated in the exact mode from a well-formed store. -/
theorem Reaches.wellFormed : ∀ {e : Expr} {s : Store} {e₁ : Expr} {s₁ : Store},
    Reaches registry e s e₁ s₁ → e.WellFormed → s.mode = .exact → s.WellFormed →
    e₁.WellFormed ∧ s₁.mode = .exact ∧ s₁.WellFormed
  | _, _, _, _, .self _ _, he, hmode, hs => ⟨he, hmode, hs⟩
  | _, _, _, _, .argument _ h, he, hmode, hs => h.wellFormed he hmode hs
  | _, _, _, _, .assigned h, he, hmode, hs => h.wellFormed he.2 hmode hs

theorem ReachesAll.wellFormed : ∀ {es : List Expr} {s : Store} {e₁ : Expr} {s₁ : Store},
    ReachesAll registry es s e₁ s₁ → WellFormedAll es → s.mode = .exact → s.WellFormed →
    e₁.WellFormed ∧ s₁.mode = .exact ∧ s₁.WellFormed
  | _, _, _, _, .head h, hes, hmode, hs => h.wellFormed hes.1 hmode hs
  | _, s, _, _, @ReachesAll.tail _ first _ _ _ _ _ h, hes, hmode, hs => by
      have hfirst := soundAt_eval first s hes.1 hmode hs
      exact h.wellFormed hes.2 hfirst.mode hfirst.store

end

/-- Every reached evaluation is sound. -/
theorem Reaches.soundAt (h : Reaches registry e s e₁ s₁) (he : e.WellFormed)
    (hmode : s.mode = .exact) (hs : s.WellFormed) :
    SoundAt e₁ s₁ (e₁.eval registry s₁).1 (e₁.eval registry s₁).2 := by
  obtain ⟨he₁, hmode₁, hs₁⟩ := h.wellFormed he hmode hs
  exact soundAt_eval e₁ s₁ he₁ hmode₁ hs₁

/-- An exact value of a sound evaluation is in canonical form. -/
theorem SoundAt.wellFormed_of_rat? {v : Value} {s' : Store} {q : ℚ} (h : SoundAt e s v s')
    (hq : v.rat? = some q) : v.WellFormed := by
  rcases h.value with hv | hv
  · exact hv
  · rw [isError_of_rat? hq] at hv
    cases hv

/-- A call gives no other doubles in the exact mode than in floating point. -/
theorem Reaches.exists_call_float {id : FunctionId} {arguments : List Expr} {x : Float}
    (h : Reaches registry e s (.call id arguments) s₁) (he : e.WellFormed)
    (hmode : s.mode = .exact) (hs : s.WellFormed)
    (hx : ((Expr.call id arguments).eval registry s₁).1 = .double x) :
    ∃ f values, registry.get? id = some f ∧ (evalAll registry arguments s₁).1 = .ok values ∧
      f.call { mode := .float } values = .double x := by
  obtain ⟨he₁, hmode₁, hs₁⟩ := h.wellFormed he hmode hs
  cases hf : registry.get? id with
  | none =>
      simp only [eval, hf] at hx
      cases hx
  | some f =>
      have hafter := (soundAllAt_evalAll arguments s₁ he₁ hmode₁ hs₁).mode
      rw [eval_call hf] at hx
      rcases hall : evalAll registry arguments s₁ with ⟨err | values, s₂⟩
      · rw [hall] at hx
        cases hx
      · rw [hall] at hx hafter
        exact ⟨f, values, rfl, rfl, Standard.call_float_of_call_exact hf hafter hx⟩

/-! ## Trees that have been read -/

variable {v : Vocabulary} {n n' : Names}

/-- The tree of a call is well-formed if its arguments are. -/
theorem wellFormed_callTree {id : FunctionId} {args : List Expr} (h : ∀ e ∈ args, e.WellFormed) :
    (callTree id args).WellFormed := by
  unfold callTree
  split
  next target value =>
    split
    · exact ⟨h target (by simp), h value (by simp)⟩
    · exact wellFormedAll_iff.2 h
  next => exact wellFormedAll_iff.2 h

theorem wellFormed_combine (o : BinaryOperator) {left right : Expr} (hleft : left.WellFormed)
    (hright : right.WellFormed) : (o.combine left right).WellFormed := by
  have hpair : (Expr.call o.place [left, right]).WellFormed := ⟨hleft, hright, trivial⟩
  unfold BinaryOperator.combine
  split
  · exact ⟨hleft, hright⟩
  · split
    next f args =>
      split
      · rw [WellFormed, wellFormedAll_iff] at hleft ⊢
        intro e he
        rcases List.mem_append.1 he with he | he
        · exact hleft e he
        · obtain rfl : e = right := by simpa using he
          exact hright
      · exact hpair
    next => exact hpair

/-- The trees of an operand's own text are well-formed if the constants are. -/
theorem wellFormed_of_operand {t : Token}
    (hconstants : ∀ name c, v.constant? name = some c → c.value.WellFormed)
    (ht : ∀ e, t.kind ≠ .tree e) (h : Parser.Yields (Parser.operand v t) n e n') :
    e.WellFormed := by
  cases Parser.stands_of_yields h with
  | tree hk => exact absurd hk (ht e)
  | constant _ hconstant => exact hconstants _ _ hconstant
  | _ => trivial

theorem treeProperty_wellFormed
    (hconstants : ∀ name c, v.constant? name = some c → c.value.WellFormed) :
    Grammar.TreeProperty v (fun t => ∀ e, t.kind ≠ .tree e) (fun _ => True)
      fun _ e => e.WellFormed where
  mono := fun _ h => h
  operand := wellFormed_of_operand hconstants
  binary := fun o _ _ => wellFormed_combine o
  negate := fun h => ⟨h, trivial⟩
  call := fun _ _ _ => wellFormed_callTree

/-- A text is read to a well-formed tree, or to an error that is no division by zero. -/
theorem wellFormed_of_read (hv : v.functions.HasOperators)
    (hconstants : ∀ name c, v.constant? name = some c → c.value.WellFormed) (n : Names)
    (text : String) :
    (Parser.read v n (Token.scan text)).1.WellFormed ∨
      ∃ err, (Parser.read v n (Token.scan text)).1 = .ofError err ∧
        err.kind ≠ .divisionByZero := by
  unfold Parser.read
  rcases hparse : Parser.parse v n (Token.scan text) with ⟨⟨err⟩ | ⟨e⟩, n'⟩
  · right
    refine ⟨err.toCalcError, rfl, ?_⟩
    have hreported := Grammar.reported_of_parse hv (fun t ht => Token.spelled_of_mem_scan ht) hparse
    intro hzero
    have hkind := hreported.kind_mem
    simp [hzero] at hkind
  · left
    exact (treeProperty_wellFormed hconstants).of_parse hv
      (fun t ht => Token.spelled_of_mem_scan ht)
      (fun t rest hsuffix _ _ =>
        (Token.spelled_of_mem_scan (hsuffix.subset List.mem_cons_self)).kind_ne_tree)
      (fun _ _ _ _ => trivial) hparse

/-- The exact mode is sound. If the value of a text is exact, then every value on the way is exact
too, and it is the rational number that the text stands for, in canonical form. If it is a division
by zero, then some evaluated call divides by zero. And every exact value on the way, whatever the
outcome is, is the rational number that its part of the text stands for, and every double that a
call gives on the way is the one that the function gives in floating point for the same values. -/
theorem exact_eval_of_read (hv : v.functions = registry)
    (hconstants : ∀ name c, v.constant? name = some c → c.value.WellFormed) (n : Names)
    (text : String) (s : Store) (hmode : s.mode = .exact) (hs : s.WellFormed) :
    let e := (Parser.read v n (Token.scan text)).1
    (∀ q, (e.eval registry s).1.rat? = some q →
      (e.eval registry s).1.WellFormed ∧
      e.reference? registry s.rationals = some (q, (e.eval registry s).2.rationals) ∧
      ∀ e₁ s₁, Reaches registry e s e₁ s₁ → ∀ x, (e₁.eval registry s₁).1 ≠ .double x) ∧
    (∀ err, (e.eval registry s).1 = .error err → err.kind = .divisionByZero →
      ∃ id arguments s₁, Reaches registry e s (.call id arguments) s₁ ∧
        DividesByZero registry id arguments s₁) ∧
    (∀ e₁ s₁, Reaches registry e s e₁ s₁ → ∀ q, (e₁.eval registry s₁).1.rat? = some q →
      (e₁.eval registry s₁).1.WellFormed ∧ (e₁.eval registry s₁).2.WellFormed ∧
      e₁.reference? registry s₁.rationals = some (q, (e₁.eval registry s₁).2.rationals)) ∧
    ∀ id arguments s₁, Reaches registry e s (.call id arguments) s₁ → ∀ x,
      ((Expr.call id arguments).eval registry s₁).1 = .double x → ∃ f values,
        registry.get? id = some f ∧ (evalAll registry arguments s₁).1 = .ok values ∧
        f.call { mode := .float } values = .double x := by
  intro e
  rcases wellFormed_of_read (hv ▸ Standard.hasOperators_registry) hconstants n text with
    he | ⟨err, he, hkind⟩
  · have hsound := soundAt_eval e s he hmode hs
    refine ⟨fun q hq => ?_, hsound.zero, fun e₁ s₁ h q hq => ?_,
      fun id arguments s₁ h x hx => h.exists_call_float he hmode hs hx⟩
    · obtain ⟨hreference, hreaches⟩ := hsound.exact q hq
      refine ⟨hsound.wellFormed_of_rat? hq, hreference, fun e₁ s₁ h x hx => ?_⟩
      have hexact := hreaches e₁ s₁ h
      rw [hx] at hexact
      cases hexact
    · have hinner := h.soundAt he hmode hs
      exact ⟨hinner.wellFormed_of_rat? hq, hinner.store, (hinner.exact q hq).1⟩
  · have hvalue : ∀ s, (e.eval registry s).1 = .error err := fun s => by
      rw [show e = .literal (.error err) from he, eval]
    refine ⟨fun q hq => ?_, fun err' herr hzero => ?_, fun e₁ s₁ h q hq => ?_,
      fun id arguments s₁ h => ?_⟩
    · rw [hvalue] at hq
      cases hq
    · rw [hvalue] at herr
      cases herr
      exact absurd hzero hkind
    · rw [show e = .literal (.error err) from he] at h
      cases h
      rw [eval] at hq
      cases hq
    · rw [show e = .literal (.error err) from he] at h
      cases h

/-- The value of `y = 1/3 + x` where `x`, the second variable, is one. -/
theorem exact_eval_of_third_plus_one :
    let v := (Calculator.new { constants := true, functions := true }).vocabulary
    let e := (Parser.read v {} (Token.scan "y = 1/3 + x")).1
    let s := ({ mode := .exact } : Store).set 2 (.int 1)
    (e.eval registry s).1.rat? = some (4 / 3) ∧
      e.reference? registry s.rationals = some (4 / 3, (e.eval registry s).2.rationals) := by
  intro v e s
  have hfunctions : v.functions = registry := Calculator.registry_new _
  have hempty : ({ mode := .exact } : Store).WellFormed := fun _ _ h => by cases h
  have hs : s.WellFormed := hempty.set 2 trivial
  have hvalue : (e.eval registry s).1.rat? = some (4 / 3) := by decide +kernel
  have hsound := exact_eval_of_read hfunctions
    (fun _ _ h => (Calculator.isStandard_of_constant? h).wellFormed) {} "y = 1/3 + x" s rfl hs
  exact ⟨hvalue, (hsound.1 _ hvalue).2.1⟩

end Expr

end Reckoner
