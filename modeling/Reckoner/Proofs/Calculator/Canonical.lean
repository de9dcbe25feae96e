import Reckoner.Proofs.Calculator.Dialogue
import Reckoner.Proofs.Expr.Reports
import Reckoner.Proofs.Expr.Soundness

/-!
Everything that a calculator returns or keeps is in canonical form.

Whatever a host asks, in either mode and in any order, no value that is returned and no binding is a
fraction in another form than lowest terms, and no binding is an error. So no step of the arithmetic
on the way goes wrong: a transcript that reports on it has nothing to report.
-/
namespace Reckoner

namespace Transcript

open Checked
open Standard (registry)

variable {t : Transcript} {o : Options} {request : Request VariableId}
  {requests : List (Request VariableId)}

/-- The transcript after one more evaluation of a tree, with the report of its arithmetic. -/
def evaluateReporting (t : Transcript) (index : Nat) : Checked Transcript :=
  match t.trees[index]? with
  | some e => do
    let (v, store) ← e.evalReporting t.calculator.registry t.calculator.store
    return { t with calculator := { t.calculator with store }, values := t.values ++ [v] }
  | none => return t

/-- The transcript after one more request, with the report of the arithmetic in evaluations. -/
def askReporting (t : Transcript) : Request VariableId → Checked Transcript
  | .evaluate index => t.evaluateReporting index
  | .eval text => do
    let t' ← (t.ask (.parse text)).evaluateReporting t.trees.length
    return t'.keepLast (t.calculator.parse text).1
  | request => return t.ask request

/-- The transcript after requests, with the report. -/
def afterReporting (t : Transcript) : List (Request VariableId) → Checked Transcript
  | [] => return t
  | request :: rest => do (← t.askReporting request).afterReporting rest

/-- The value has been returned, or a variable is bound to it. -/
def Shows (t : Transcript) (v : Value) : Prop :=
  v ∈ t.values ∨ ∃ id, t.calculator.value? id = some v

/-- A host binds variables to values in canonical form that are no errors. -/
def Admissible (requests : List (Request VariableId)) : Prop :=
  ∀ id v, .bind id v ∈ requests → v.Canonical ∧ v.isError = false

/-! ## The invariant -/

/-- What has been read is a tree with numbers in canonical form, or an error. -/
def IsRead (e : Expr) : Prop :=
  e.WellFormed ∨ ∃ err, e = .ofError err

/-- Everything in a transcript of a calculator that was made from options is in canonical form. -/
structure Canonical (o : Options) (t : Transcript) : Prop where
  vocabulary : t.calculator.vocabulary = (Calculator.new o).vocabulary
  store : t.calculator.store.Canonical
  trees : ∀ e ∈ t.trees, IsRead e
  values : ∀ v ∈ t.values, v.Canonical

theorem canonical_new (o : Options) : Canonical o (new o) where
  vocabulary := rfl
  store := by
    intro id v h
    cases h
  trees := by simp [new]
  values := by simp [new]

/-- The standard functions are registered. -/
theorem Canonical.registry (h : Canonical o t) (ho : o.functions = true) :
    t.calculator.registry = Standard.registry := by
  have hnew := Calculator.registry_new o
  rw [if_pos ho] at hnew
  rw [Calculator.registry, h.vocabulary]
  exact hnew

theorem Canonical.isRead_parse (h : Canonical o t) (text : String) :
    IsRead (t.calculator.parse text).1 := by
  have hv : t.calculator.vocabulary.functions.HasOperators := by
    rw [h.vocabulary]
    exact Calculator.hasOperators_new o
  have hconstants : ∀ name c, t.calculator.vocabulary.constant? name = some c →
      c.value.WellFormed := by
    rw [h.vocabulary]
    exact fun _ _ hc => (Calculator.isStandard_of_constant? hc).wellFormed
  rcases Expr.wellFormed_of_read hv hconstants t.calculator.names text with he | ⟨err, he, -⟩
  · exact .inl he
  · exact .inr ⟨err, he⟩

/-- The evaluation of a tree that has been read keeps the bindings canonical, gives a canonical
value, and has nothing to report. -/
theorem eval_isRead {e : Expr} {s : Store} (he : IsRead e) (hs : s.Canonical) :
    Expr.CanonicalAt (e.eval registry s).1 (e.eval registry s).2 ∧
      Gives (e.evalReporting registry s) (e.eval registry s) := by
  rcases he with he | ⟨err, rfl⟩
  · exact ⟨Expr.canonical_eval e s he hs, Expr.gives_eval e s he hs⟩
  · rw [Expr.ofError, Expr.eval, Expr.evalReporting]
    exact ⟨⟨Value.canonical_of_isError rfl, hs⟩, gives_pure _⟩

/-- A text that is read adds one more tree. -/
theorem Canonical.parse (h : Canonical o t) (text : String) :
    Canonical o (t.ask (.parse text)) where
  vocabulary := by
    rw [Transcript.ask, Calculator.vocabulary_parse, h.vocabulary]
  store := by
    rw [Transcript.ask, Calculator.store_parse]
    exact h.store
  trees := List.forall_mem_append.2 ⟨h.trees, List.forall_mem_singleton.2 (h.isRead_parse text)⟩
  values := h.values

/-- An evaluation adds one more value. -/
theorem Canonical.evaluate (h : Canonical o t) (ho : o.functions = true) (index : Nat) :
    Canonical o (t.ask (.evaluate index)) ∧
      Gives (t.evaluateReporting index) (t.ask (.evaluate index)) := by
  unfold evaluateReporting
  cases htree : t.trees[index]? with
  | none =>
      rw [ask_evaluate_of_eq_none htree]
      exact ⟨h, gives_pure _⟩
  | some e =>
      obtain ⟨⟨hv, hs⟩, hgives⟩ := eval_isRead (h.trees e (List.mem_of_getElem? htree)) h.store
      rw [← h.registry ho] at hv hs hgives
      rw [ask_evaluate htree]
      have hvalues := List.forall_mem_append.2 ⟨h.values, List.forall_mem_singleton.2 hv⟩
      exact ⟨⟨h.vocabulary, hs, h.trees, hvalues⟩, hgives.bind (gives_pure _)⟩

theorem Canonical.keepLast (h : Canonical o t) (e : Expr) : Canonical o (t.keepLast e) :=
  ⟨h.vocabulary, h.store, h.trees, h.values⟩

/-- One request keeps everything canonical, and there is nothing to report. -/
theorem Canonical.ask (h : Canonical o t) (ho : o.functions = true)
    (hbind : ∀ id v, request = .bind id v → v.Canonical ∧ v.isError = false) :
    Canonical o (t.ask request) ∧ Gives (t.askReporting request) (t.ask request) := by
  cases request with
  | parse text => exact ⟨h.parse text, gives_pure _⟩
  | eval text =>
      obtain ⟨hcanonical, hgives⟩ := (h.parse text).evaluate ho t.trees.length
      rw [ask_eval]
      exact ⟨hcanonical.keepLast _, hgives.bind (gives_pure _)⟩
  | evaluate index => exact h.evaluate ho index
  | number name => exact ⟨⟨h.vocabulary, h.store, h.trees, h.values⟩, gives_pure _⟩
  | bind id v =>
      obtain ⟨hv, herror⟩ := hbind id v rfl
      exact ⟨⟨h.vocabulary, h.store.set id hv herror, h.trees, h.values⟩, gives_pure _⟩
  | unbind id => exact ⟨⟨h.vocabulary, h.store.unset id, h.trees, h.values⟩, gives_pure _⟩
  | setMode mode => exact ⟨⟨h.vocabulary, h.store, h.trees, h.values⟩, gives_pure _⟩

/-- So do requests one after the other. -/
theorem Canonical.after (h : Canonical o t) (ho : o.functions = true)
    (hbind : Admissible requests) :
    Canonical o (t.after requests) ∧ Gives (t.afterReporting requests) (t.after requests) := by
  induction requests generalizing t with
  | nil => exact ⟨h, gives_pure _⟩
  | cons request rest ih =>
      obtain ⟨hnext, hgives⟩ := h.ask ho fun id v heq => hbind id v (heq ▸ List.mem_cons_self)
      obtain ⟨hafter, hrest⟩ := ih hnext fun id v hmem => hbind id v (List.mem_cons_of_mem _ hmem)
      exact ⟨hafter, hgives.bind hrest⟩

theorem Canonical.canonical_of_shows (h : Canonical o t) {v : Value} (hv : t.Shows v) :
    v.Canonical := by
  rcases hv with hv | ⟨id, hid⟩
  · exact h.values v hv
  · exact (h.store id v hid).1

/-- A calculator with the standard functions keeps and returns canonical values only. After any
requests, every value that was returned and every binding is in canonical form, no binding is an
error, and two exact values among them are equal exactly if they stand for the same number. All
arithmetic on the way, every division included, has gone right: the transcript that reports on it is
the same and reports nothing. -/
theorem canonical_of_requests (o : Options) (ho : o.functions = true)
    (requests : List (Request VariableId)) (hbind : Admissible requests) :
    let t := (new o).after requests
    (∀ v, t.Shows v → v.Canonical) ∧
      (∀ id v, t.calculator.value? id = some v → v.isError = false) ∧
      (∀ u v p q, t.Shows u → t.Shows v → u.rat? = some p → v.rat? = some q →
        ((u == v) = true ↔ p = q)) ∧
      ((new o).afterReporting requests).run {} = (t, {}) := by
  intro t
  obtain ⟨h, hgives⟩ := (canonical_new o).after ho hbind
  have hshows : ∀ v, t.Shows v → v.Canonical := fun v hv => h.canonical_of_shows hv
  exact ⟨hshows, fun id v hid => (h.store id v hid).2,
    fun u v p q hu hv hp hq => (hshows u hu).beq_iff (hshows v hv) hp hq, hgives⟩

/-- Two sums that are equal, the rounding of a half that is bound by the host, and a division by
zero, evaluated anew after the mode has been changed. -/
theorem canonical_of_half :
    let o : Options := { mode := .exact, constants := true, functions := true }
    let requests : List (Request VariableId) := [.number "x", .bind 1 (.fraction ⟨1, 2⟩),
      .eval "x + x/3", .eval "y = 1 - 2/6", .eval "round(-x)", .eval "1/(x - x)", .setMode .float,
      .evaluate 0]
    let t := (new o).after requests
    Admissible requests ∧ (∀ v, t.Shows v → v.Canonical) ∧
      t.values.map Value.rat? = [some (2 / 3), some (2 / 3), some (-1), none, none] ∧
      ((new o).afterReporting requests).run {} = (t, {}) := by
  intro o requests t
  have hbind : Admissible requests := by
    intro id v hmem
    obtain ⟨rfl, rfl⟩ : id = 1 ∧ v = .fraction ⟨1, 2⟩ := by simpa [requests] using hmem
    refine ⟨?_, rfl⟩
    rintro f ⟨⟩
    exact ⟨by decide, by decide⟩
  obtain ⟨hcanonical, -, -, hgives⟩ := canonical_of_requests o rfl requests hbind
  exact ⟨hbind, hcanonical, by decide +kernel, hgives⟩

end Transcript

end Reckoner
