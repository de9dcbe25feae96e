import Reckoner.Proofs.Expr.Reference
import Reckoner.Proofs.Parser.Leaves

/-!
What an evaluation does to the store.

The assignments that an evaluation carries out are listed in their order, each with its place in the
tree. The store afterwards is the store before with these bindings made one after the other, so what
is kept, and what two evaluations have in common, can be read off the list. An error ends an
evaluation at once: whatever has been assigned by then comes before the part that failed.
-/
namespace Reckoner

namespace Expr

/-! ## Places -/

/-- A place in a tree: which child to go to, from the root on. The target of an assignment is its
child zero and the assigned value its child one. -/
abbrev Place := List Nat

/-- The trees right below the root. -/
def children : Expr → List Expr
  | call _ arguments => arguments
  | assign target value => [target, value]
  | literal _ | constant _ _ | var _ _ => []

/-- The part of a tree at a place. -/
def part? (e : Expr) : Place → Option Expr
  | [] => some e
  | i :: p => e.children[i]?.bind fun child => child.part? p

/-- The first place comes before the second one in the order of evaluation: it lies below the second
one, or to its left. -/
inductive Place.Precedes : Place → Place → Prop
  | inside {i : Nat} {p : Place} : Precedes (i :: p) []
  | left {i j : Nat} {p q : Place} (h : i < j) : Precedes (i :: p) (j :: q)
  | within {i : Nat} {p q : Place} (h : Precedes p q) : Precedes (i :: p) (i :: q)

/-- The variable is the target of an assignment in the tree. -/
def Assigns (e : Expr) (id : VariableId) : Prop :=
  ∃ p name value, e.part? p = some (assign (var name id) value)

/-- The variable occurs in the tree. -/
def Mentions (e : Expr) (id : VariableId) : Prop :=
  ∃ name, var name id ∈ e.leaves

/-! ## Assignments that are carried out -/

/-- An assignment carried out: its place in the tree, the variable, and the new value. -/
structure Binding where
  place : Place
  id : VariableId
  value : Value

/-- The same seen from one level further up. -/
def Binding.below (i : Nat) (b : Binding) : Binding :=
  { b with place := i :: b.place }

mutual

/-- The assignments that the evaluation of a tree carries out, in their order. -/
def bindings (r : Registry) : Expr → Store → List Binding
  | literal _, _ | constant _ _, _ | var _ _, _ => []
  | call id arguments, s => if (r.get? id).isSome then bindingsAll r 0 arguments s else []
  | assign (var _ id) value, s =>
    (bindings r value s).map (.below 1) ++
      if (eval r value s).1.isError then [] else [⟨[], id, (eval r value s).1⟩]
  | assign _ _, _ => []

/-- Those of arguments up to the first error, where the first one is child number `i`. -/
def bindingsAll (r : Registry) (i : Nat) : List Expr → Store → List Binding
  | [], _ => []
  | e :: rest, s =>
    (bindings r e s).map (.below i) ++
      if (eval r e s).1.isError then [] else bindingsAll r (i + 1) rest (eval r e s).2

end

mutual

/-- The evaluation of the first tree from the first store evaluates its part at the place, which is
the second tree, from the second store. -/
inductive Visits (r : Registry) : Expr → Store → Place → Expr → Store → Prop
  | self (e : Expr) (s : Store) : Visits r e s [] e s
  | argument {id : FunctionId} {f : NamedFunction} {arguments : List Expr} {p : Place} {e : Expr}
      {s s' : Store} (hf : r.get? id = some f) (h : VisitsAll r 0 arguments s p e s') :
      Visits r (.call id arguments) s p e s'
  | assigned {name : String} {id : VariableId} {value e : Expr} {p : Place} {s s' : Store}
      (h : Visits r value s p e s') : Visits r (.assign (.var name id) value) s (1 :: p) e s'

/-- The same for arguments, where the first one is child number `i`. -/
inductive VisitsAll (r : Registry) : Nat → List Expr → Store → Place → Expr → Store → Prop
  | head {i : Nat} {first e : Expr} {rest : List Expr} {p : Place} {s s' : Store}
      (h : Visits r first s p e s') : VisitsAll r i (first :: rest) s (i :: p) e s'
  | tail {i : Nat} {first e : Expr} {rest : List Expr} {p : Place} {s s' : Store}
      (hfirst : (first.eval r s).1.isError = false)
      (h : VisitsAll r (i + 1) rest (first.eval r s).2 p e s') :
      VisitsAll r i (first :: rest) s p e s'

end

/-- The evaluation of the tree fails by itself: its value is an error, and that of nothing that is
evaluated within it is one. -/
structure Fails (r : Registry) (e : Expr) (s : Store) : Prop where
  error : (e.eval r s).1.isError = true
  within : ∀ p f s', Visits r e s p f s' → p ≠ [] → (f.eval r s').1.isError = false

end Expr

/-- The store after some assignments, one after the other. -/
def Store.setAll (s : Store) (bs : List Expr.Binding) : Store :=
  bs.foldl (fun s b => s.set b.id b.value) s

section SetAll

variable {s s' : Store} {bs : List Expr.Binding}

@[simp] theorem Store.setAll_nil (s : Store) : s.setAll [] = s :=
  rfl

theorem Store.setAll_append (s : Store) (bs bs' : List Expr.Binding) :
    s.setAll (bs ++ bs') = (s.setAll bs).setAll bs' :=
  List.foldl_append

/-- Where an assignment stands in the tree makes no difference to the store. -/
@[simp] theorem Store.setAll_below (s : Store) (i : Nat) (bs : List Expr.Binding) :
    s.setAll (bs.map (.below i)) = s.setAll bs := by
  rw [setAll, List.foldl_map]
  rfl

@[simp] theorem Store.mode_setAll (s : Store) (bs : List Expr.Binding) :
    (s.setAll bs).mode = s.mode := by
  induction bs generalizing s with
  | nil => rfl
  | cons b rest ih => exact ih (s.set b.id b.value)

/-- A variable that is not assigned keeps its value. -/
theorem Store.value?_setAll_of_ne {id : VariableId} (h : ∀ b ∈ bs, b.id ≠ id) :
    (s.setAll bs).value? id = s.value? id := by
  induction bs generalizing s with
  | nil => rfl
  | cons b rest ih =>
      have hrest : ((s.set b.id b.value).setAll rest).value? id = (s.set b.id b.value).value? id :=
        ih fun b' hb' => h b' (List.mem_cons_of_mem _ hb')
      have hne : id ≠ b.id := (h b List.mem_cons_self).symm
      exact hrest.trans (s.value?_set_of_ne b.value hne)

/-- A variable on which two stores agree has one value in both after the same assignments. -/
theorem Store.value?_setAll_congr {id : VariableId} (h : s'.value? id = s.value? id) :
    (s'.setAll bs).value? id = (s.setAll bs).value? id := by
  induction bs generalizing s s' with
  | nil => exact h
  | cons b rest ih =>
      have hset : (s'.set b.id b.value).value? id = (s.set b.id b.value).value? id := by
        by_cases hid : id = b.id
        · rw [hid, value?_set_self, value?_set_self]
        · rw [value?_set_of_ne s' b.value hid, value?_set_of_ne s b.value hid, h]
      exact ih hset

end SetAll

namespace Expr

variable {r : Registry} {e f : Expr} {es : List Expr} {s s' s₁ : Store} {p q : Place} {i : Nat}

/-! ## The store afterwards -/

theorem evalAll_cons (e : Expr) (rest : List Expr) (s : Store) :
    (∃ err, (e.eval r s).1 = .error err ∧
        evalAll r (e :: rest) s = (.error err, (e.eval r s).2)) ∨
      (e.eval r s).1.isError = false ∧
        evalAll r (e :: rest) s =
          ((evalAll r rest (e.eval r s).2).1.map ((e.eval r s).1 :: ·),
            (evalAll r rest (e.eval r s).2).2) := by
  rcases eval_cases r e s with ⟨err, s', heval⟩ | ⟨v, s', heval, hv⟩
  · rw [evalAll_cons_of_error heval, heval]
    exact .inl ⟨err, rfl, rfl⟩
  · rw [evalAll_cons_of_not_error heval hv, heval]
    refine .inr ⟨hv, ?_⟩
    rcases evalAll r rest s' with ⟨err | vs, s''⟩ <;> rfl

/-- The store after a call is that after its arguments. -/
theorem eval_call_store {id : FunctionId} {g : NamedFunction} (hg : r.get? id = some g)
    (arguments : List Expr) (s : Store) :
    ((call id arguments).eval r s).2 = (evalAll r arguments s).2 := by
  rw [eval_call hg]
  rcases evalAll r arguments s with ⟨err | vs, s'⟩ <;> rfl

mutual

/-- Evaluation makes the bindings of the assignments that it carries out, and changes nothing
else. -/
theorem store_eval : ∀ (e : Expr) (s : Store), (e.eval r s).2 = s.setAll (e.bindings r s)
  | .literal v, s => by simp [eval, bindings]
  | .constant name v, s => by simp [eval, bindings]
  | .var name id, s => by
      cases hvalue : s.value? id <;> simp [eval, bindings, hvalue]
  | .call id arguments, s => by
      cases hf : r.get? id with
      | none => simp [eval, bindings, hf]
      | some f =>
          rw [eval_call_store hf, store_evalAll 0 arguments s]
          simp [bindings, hf]
  | .assign target value, s => by
      cases target with
      | var name id =>
          rw [eval_assign name id rfl, bindings, Store.setAll_append, Store.setAll_below,
            ← store_eval value s]
          cases (value.eval r s).1.isError <;> rfl
      | _ => simp [eval, bindings]

theorem store_evalAll (i : Nat) : ∀ (es : List Expr) (s : Store),
    (evalAll r es s).2 = s.setAll (bindingsAll r i es s)
  | [], s => by simp [evalAll, bindingsAll]
  | e :: rest, s => by
      rw [bindingsAll, Store.setAll_append, Store.setAll_below, ← store_eval e s]
      rcases evalAll_cons (r := r) e rest s with ⟨err, herror, hall⟩ | ⟨hv, hall⟩
      · simp [hall, herror, Value.isError, Value.error?]
      · rw [hall, hv]
        exact store_evalAll (i + 1) rest (e.eval r s).2

end

/-- Evaluation does not change the mode. -/
@[simp] theorem mode_eval (e : Expr) (s : Store) : (e.eval r s).2.mode = s.mode := by
  rw [store_eval, Store.mode_setAll]

/-! ## Assignments and their places -/

/-- What is visited is the part at its place. -/
theorem part?_children {c : Expr} (hc : e.children[i]? = some c) :
    e.part? (i :: p) = c.part? p := by
  rw [part?, hc, Option.bind_some]

mutual

theorem Visits.part? : ∀ {e : Expr} {s : Store} {p : Place} {f : Expr} {s₁ : Store},
    Visits r e s p f s₁ → e.part? p = some f
  | _, _, _, _, _, .self _ _ => rfl
  | _, _, _, _, _, .argument _ h => by
      obtain ⟨i, q, c, rfl, hc, hpart⟩ := h.part?
      rw [Nat.zero_add, part?_children (e := .call _ _) hc, hpart]
  | _, _, _, _, _, .assigned h => by
      rw [part?_children (e := .assign _ _) rfl, h.part?]

theorem VisitsAll.part? : ∀ {k : Nat} {es : List Expr} {s : Store} {p : Place} {f : Expr}
    {s₁ : Store}, VisitsAll r k es s p f s₁ →
    ∃ i q c, p = (k + i) :: q ∧ es[i]? = some c ∧ c.part? q = some f
  | _, _, _, _, _, _, .head h => ⟨0, _, _, rfl, rfl, h.part?⟩
  | k, _, _, _, _, _, .tail _ h => by
      obtain ⟨i, q, c, rfl, hc, hpart⟩ := h.part?
      exact ⟨i + 1, q, c, by rw [Nat.add_assoc, Nat.add_comm 1 i], hc, hpart⟩

end

/-- The assignment of `value` to a variable makes the binding: the value is evaluated first and is
no error, and the variable is bound to it in the store that this evaluation has left. -/
structure Makes (r : Registry) (name : String) (value : Expr) (s : Store) (b : Binding) :
    Prop where
  evaluated : (value.eval r s).1 = b.value
  not_error : b.value.isError = false
  bound : (assign (var name b.id) value).eval r s = (b.value, (value.eval r s).2.set b.id b.value)

/-- The binding is made by a visited assignment. -/
def CarriesOut (r : Registry) (e : Expr) (s : Store) (b : Binding) : Prop :=
  ∃ name value s₁, Visits r e s b.place (.assign (.var name b.id) value) s₁ ∧
    Makes r name value s₁ b

theorem makes_of_not_isError {name : String} {id : VariableId} {value : Expr}
    (h : (value.eval r s).1.isError = false) :
    Makes r name value s ⟨[], id, (value.eval r s).1⟩ where
  evaluated := rfl
  not_error := h
  bound := by
    rw [eval_assign name id rfl, h]
    rfl

mutual

theorem carriesOut_of_mem : ∀ (e : Expr) (s : Store), ∀ b ∈ e.bindings r s, CarriesOut r e s b
  | .literal v, s, b, hb => by simp [bindings] at hb
  | .constant name v, s, b, hb => by simp [bindings] at hb
  | .var name id, s, b, hb => by simp [bindings] at hb
  | .call id arguments, s, b, hb => by
      rw [bindings] at hb
      split at hb
      · next hf =>
          obtain ⟨f, hf⟩ := Option.isSome_iff_exists.1 hf
          obtain ⟨name, value, s₁, hvisits, hmakes⟩ := carriesOut_of_mem_all 0 arguments s b hb
          exact ⟨name, value, s₁, .argument hf hvisits, hmakes⟩
      · cases hb
  | .assign target value, s, b, hb => by
      cases target with
      | var name id =>
          rw [bindings] at hb
          rcases List.mem_append.1 hb with hb | hb
          · obtain ⟨b', hb', rfl⟩ := List.mem_map.1 hb
            obtain ⟨name', value', s₁, hvisits, hmakes⟩ := carriesOut_of_mem value s b' hb'
            exact ⟨name', value', s₁, .assigned hvisits, hmakes.1, hmakes.2, hmakes.3⟩
          · split at hb
            · cases hb
            · next hv =>
                obtain rfl : b = ⟨[], id, (value.eval r s).1⟩ := by simpa using hb
                exact ⟨name, value, s, .self _ _, makes_of_not_isError (by simpa using hv)⟩
      | _ => simp [bindings] at hb

theorem carriesOut_of_mem_all (i : Nat) : ∀ (es : List Expr) (s : Store),
    ∀ b ∈ bindingsAll r i es s, ∃ name value s₁,
      VisitsAll r i es s b.place (.assign (.var name b.id) value) s₁ ∧ Makes r name value s₁ b
  | [], s, b, hb => by simp [bindingsAll] at hb
  | e :: rest, s, b, hb => by
      rw [bindingsAll] at hb
      rcases List.mem_append.1 hb with hb | hb
      · obtain ⟨b', hb', rfl⟩ := List.mem_map.1 hb
        obtain ⟨name, value, s₁, hvisits, hmakes⟩ := carriesOut_of_mem e s b' hb'
        exact ⟨name, value, s₁, .head hvisits, hmakes.1, hmakes.2, hmakes.3⟩
      · split at hb
        · cases hb
        · next hv =>
            obtain ⟨name, value, s₁, hvisits, hmakes⟩ :=
              carriesOut_of_mem_all (i + 1) rest (e.eval r s).2 b hb
            exact ⟨name, value, s₁, .tail (by simpa using hv) hvisits, hmakes⟩

end

theorem CarriesOut.assigns {b : Binding} (h : CarriesOut r e s b) : e.Assigns b.id := by
  obtain ⟨name, value, s₁, hvisits, -⟩ := h
  exact ⟨b.place, name, value, hvisits.part?⟩

/-- A variable that is no target of an assignment keeps its value. -/
theorem value?_eval_of_not_assigns {id : VariableId} (h : ¬ e.Assigns id) :
    (e.eval r s).2.value? id = s.value? id := by
  rw [store_eval]
  refine Store.value?_setAll_of_ne fun b hb hid => h ?_
  rw [← hid]
  exact (carriesOut_of_mem e s b hb).assigns

/-! ## What an evaluation depends on -/

theorem mentions_call {id : FunctionId} {arguments : List Expr} (he : e ∈ arguments)
    {x : VariableId} (h : e.Mentions x) : (call id arguments).Mentions x := by
  obtain ⟨name, hname⟩ := h
  refine ⟨name, ?_⟩
  rw [leaves_call]
  exact List.mem_flatMap.2 ⟨e, he, hname⟩

theorem mentions_assign {target value : Expr} {x : VariableId} (h : value.Mentions x) :
    (assign target value).Mentions x := by
  obtain ⟨name, hname⟩ := h
  exact ⟨name, List.mem_append_right _ hname⟩

variable {reads : VariableId → Prop}

mutual

/-- Two stores of one mode that agree on the variables of a tree, and on those that functions read
besides, give it one value, and the same assignments are carried out. -/
theorem eval_congr (hr : r.ReadsOnly reads) : ∀ (e : Expr) (s s' : Store), s'.mode = s.mode →
    (∀ x, e.Mentions x ∨ reads x → s'.value? x = s.value? x) →
    (e.eval r s').1 = (e.eval r s).1 ∧ e.bindings r s' = e.bindings r s
  | .literal v, s, s', _, _ => by simp [eval, bindings]
  | .constant name v, s, s', _, _ => by simp [eval, bindings]
  | .var name id, s, s', _, h => by
      have hid : s'.value? id = s.value? id := h id (.inl ⟨name, by simp [leaves]⟩)
      constructor
      · simp only [eval, hid]
        cases s.value? id <;> rfl
      · rfl
  | .call id arguments, s, s', hmode, h => by
      cases hf : r.get? id with
      | none => simp [eval, bindings, hf]
      | some f =>
          obtain ⟨hvalues, hbindings⟩ := evalAll_congr hr 0 arguments s s' hmode
            fun e he x hx => h x (hx.imp_left (mentions_call he))
          -- The same bindings have been made in both stores, so the function reads the same.
          have hmodes : (evalAll r arguments s').2.mode = (evalAll r arguments s).2.mode := by
            rw [store_evalAll 0, store_evalAll 0, Store.mode_setAll, Store.mode_setAll, hmode]
          have hreads : ∀ x, reads x →
              (evalAll r arguments s').2.value? x = (evalAll r arguments s).2.value? x := by
            intro x hx
            rw [store_evalAll 0, store_evalAll 0, hbindings]
            exact Store.value?_setAll_congr (h x (.inr hx))
          constructor
          · rw [eval_call hf, eval_call hf]
            rcases hall : evalAll r arguments s with ⟨result, s₁⟩
            rcases hall' : evalAll r arguments s' with ⟨result', s₁'⟩
            rw [hall, hall'] at hvalues hmodes hreads
            obtain rfl : result' = result := hvalues
            cases result' with
            | ok values => exact hr id f hf s₁ s₁' hmodes hreads values
            | error err => rfl
          · rw [bindings, bindings, hbindings]
  | .assign target value, s, s', hmode, h => by
      cases target with
      | var name id =>
          obtain ⟨hvalue, hbindings⟩ :=
            eval_congr hr value s s' hmode fun x hx => h x (hx.imp_left mentions_assign)
          constructor
          · rw [eval_assign name id rfl, eval_assign name id rfl, hvalue]
            split <;> rfl
          · rw [bindings, bindings, hbindings, hvalue]
      | _ => simp [eval, bindings]

theorem evalAll_congr (hr : r.ReadsOnly reads) (i : Nat) : ∀ (es : List Expr) (s s' : Store),
    s'.mode = s.mode → (∀ e ∈ es, ∀ x, e.Mentions x ∨ reads x → s'.value? x = s.value? x) →
    (evalAll r es s').1 = (evalAll r es s).1 ∧ bindingsAll r i es s' = bindingsAll r i es s
  | [], s, s', _, _ => by simp [evalAll, bindingsAll]
  | e :: rest, s, s', hmode, h => by
      obtain ⟨hvalue, hbindings⟩ := eval_congr hr e s s' hmode (h e List.mem_cons_self)
      -- The same bindings have been made in both stores, so they still agree.
      obtain ⟨hvalues, hothers⟩ := evalAll_congr hr (i + 1) rest (e.eval r s).2 (e.eval r s').2
        (by rw [mode_eval, mode_eval, hmode]) fun e' he' x hx => by
          rw [store_eval, store_eval, hbindings]
          exact Store.value?_setAll_congr (h e' (List.mem_cons_of_mem _ he') x hx)
      constructor
      · rcases evalAll_cons (r := r) e rest s with ⟨err, herror, hall⟩ | ⟨hv, hall⟩ <;>
          rcases evalAll_cons (r := r) e rest s' with ⟨err', herror', hall'⟩ | ⟨hv', hall'⟩
        · rw [herror, herror'] at hvalue
          rw [hall, hall', Value.error.inj hvalue]
        · rw [hvalue, herror] at hv'
          cases hv'
        · rw [hvalue] at herror'
          rw [herror'] at hv
          cases hv
        · rw [hall, hall', hvalue, hvalues]
      · rw [bindingsAll, bindingsAll, hbindings, hvalue, hothers]

end

/-! ## Errors -/

mutual

/-- An error of a part is the error of the whole, and nothing is evaluated after it. -/
theorem Visits.eval_eq : ∀ {e : Expr} {s : Store} {p : Place} {f : Expr} {s₁ s₂ : Store}
    {err : CalcError}, Visits r e s p f s₁ → f.eval r s₁ = (.error err, s₂) →
    e.eval r s = (.error err, s₂) ∧ ∀ b ∈ e.bindings r s, b.place.Precedes p
  | e, s, _, _, _, s₂, err, .self _ _, h => by
      refine ⟨h, fun b hb => ?_⟩
      obtain ⟨name, value, s₃, hvisits, hmakes⟩ := carriesOut_of_mem e s b hb
      cases hplace : b.place with
      | nil =>
          -- The root itself has carried out no assignment, since its value is an error.
          rw [hplace] at hvisits
          cases hvisits with
          | self =>
              have hvalue : b.value = .error err := congrArg Prod.fst (hmakes.bound.symm.trans h)
              have hnot := hmakes.not_error
              rw [hvalue] at hnot
              cases hnot
          | argument _ hall =>
              obtain ⟨_, _, _, hp, -⟩ := hall.part?
              cases hp
      | cons i p => exact .inside
  | _, s, p, _, _, s₂, err, .argument hf hvisits, h => by
      obtain ⟨hall, hbefore⟩ := hvisits.evalAll_eq h
      refine ⟨by rw [eval_call hf, hall], fun b hb => hbefore b ?_⟩
      simpa [bindings, hf] using hb
  | _, s, _, _, _, s₂, err, @Visits.assigned _ name id value _ _ _ _ hvisits, h => by
      obtain ⟨hvalue, hbefore⟩ := hvisits.eval_eq h
      refine ⟨by rw [eval_assign name id hvalue]; rfl, fun b hb => ?_⟩
      rw [bindings, hvalue] at hb
      obtain ⟨b', hb', rfl⟩ : ∃ b' ∈ bindings r value s, b'.below 1 = b := by
        simpa [Value.isError, Value.error?] using hb
      exact .within (hbefore b' hb')

theorem VisitsAll.evalAll_eq : ∀ {i : Nat} {es : List Expr} {s : Store} {p : Place} {f : Expr}
    {s₁ s₂ : Store} {err : CalcError}, VisitsAll r i es s p f s₁ → f.eval r s₁ = (.error err, s₂) →
    evalAll r es s = (.error err, s₂) ∧ ∀ b ∈ bindingsAll r i es s, b.place.Precedes p
  | i, _, s, _, _, _, s₂, err, @VisitsAll.head _ _ e _ rest _ _ _ hvisits, h => by
      obtain ⟨hvalue, hbefore⟩ := hvisits.eval_eq h
      refine ⟨evalAll_cons_of_error hvalue, fun b hb => ?_⟩
      rw [bindingsAll, hvalue] at hb
      obtain ⟨b', hb', rfl⟩ : ∃ b' ∈ bindings r e s, b'.below i = b := by
        simpa [Value.isError, Value.error?] using hb
      exact .within (hbefore b' hb')
  | i, _, s, p, _, _, s₂, err, @VisitsAll.tail _ _ e _ rest _ _ _ hfirst hvisits, h => by
      obtain ⟨hall, hbefore⟩ := hvisits.evalAll_eq h
      constructor
      · rw [evalAll_cons_of_not_error rfl hfirst, hall]
      · intro b hb
        rw [bindingsAll, hfirst] at hb
        rcases List.mem_append.1 hb with hb | hb
        · obtain ⟨b', hb', rfl⟩ := List.mem_map.1 hb
          obtain ⟨k, q, c, rfl, -, -⟩ := hvisits.part?
          exact .left (by omega)
        · exact hbefore b hb

end

/-- A tree of which nothing but the whole is evaluated. -/
theorem fails_of_isError (h : (e.eval r s).1.isError = true)
    (hself : ∀ p f s', Visits r e s p f s' → p = []) : Fails r e s where
  error := h
  within := fun p f s' hvisits hp => absurd (hself p f s' hvisits) hp

mutual

/-- Where the value is an error, some part has failed by itself. -/
theorem exists_fails : ∀ (e : Expr) (s : Store), (e.eval r s).1.isError = true →
    ∃ p f s₁, Visits r e s p f s₁ ∧ Fails r f s₁
  | .literal v, s, h => ⟨[], _, s, .self _ _, fails_of_isError h (by rintro _ _ _ ⟨⟩; rfl)⟩
  | .constant name v, s, h => ⟨[], _, s, .self _ _, fails_of_isError h (by rintro _ _ _ ⟨⟩; rfl)⟩
  | .var name id, s, h => ⟨[], _, s, .self _ _, fails_of_isError h (by rintro _ _ _ ⟨⟩; rfl)⟩
  | .call id arguments, s, h => by
      cases hf : r.get? id with
      | none =>
          refine ⟨[], _, s, .self _ _, fails_of_isError h ?_⟩
          rintro p f s' (_ | ⟨hf', _⟩)
          · rfl
          · rw [hf] at hf'
            cases hf'
      | some g =>
          cases hall : (evalAll r arguments s).1 with
          | error err =>
              obtain ⟨p, f, s₁, hvisits, hfails⟩ := exists_fails_all 0 arguments s hall
              exact ⟨p, f, s₁, .argument hf hvisits, hfails⟩
          | ok values =>
              -- The arguments have values, so the function itself gives the error.
              refine ⟨[], _, s, .self _ _, h, ?_⟩
              rintro p f s' (_ | ⟨_, hvisits⟩) hp
              · exact absurd rfl hp
              · rcases eval_cases r f s' with ⟨err, s₂, herror⟩ | ⟨v, s₂, heval, hv⟩
                · rw [(hvisits.evalAll_eq herror).1] at hall
                  cases hall
                · rw [heval]
                  exact hv
  | .assign target value, s, h => by
      cases target with
      | var name id =>
          have hvalue : (value.eval r s).1.isError = true := by
            rw [eval_assign name id rfl] at h
            split at h <;> exact h
          obtain ⟨p, f, s₁, hvisits, hfails⟩ := exists_fails value s hvalue
          exact ⟨1 :: p, f, s₁, .assigned hvisits, hfails⟩
      | _ => exact ⟨[], _, s, .self _ _, fails_of_isError h (by rintro _ _ _ ⟨⟩; rfl)⟩

theorem exists_fails_all (i : Nat) : ∀ (es : List Expr) (s : Store) {err : CalcError},
    (evalAll r es s).1 = .error err → ∃ p f s₁, VisitsAll r i es s p f s₁ ∧ Fails r f s₁
  | [], s, err, h => by cases h
  | e :: rest, s, err, h => by
      rcases evalAll_cons (r := r) e rest s with ⟨err', herror, -⟩ | ⟨hv, hall⟩
      · have hfirst : (e.eval r s).1.isError = true := by
          rw [herror]
          rfl
        obtain ⟨p, f, s₁, hvisits, hfails⟩ := exists_fails e s hfirst
        exact ⟨i :: p, f, s₁, .head hvisits, hfails⟩
      · rw [hall] at h
        have hrest : (evalAll r rest (e.eval r s).2).1 = .error err := by
          cases hothers : (evalAll r rest (e.eval r s).2).1 with
          | ok values =>
              rw [hothers] at h
              cases h
          | error err' =>
              rw [hothers] at h
              exact h
        obtain ⟨p, f, s₁, hvisits, hfails⟩ := exists_fails_all (i + 1) rest _ hrest
        exact ⟨p, f, s₁, .tail hv hvisits, hfails⟩

end

/-- What an evaluation does to the store. The mode stays. The store afterwards is the one before
with the bindings of the assignments that have been carried out; each is made after the assigned
value has been evaluated without error, and only targets of assignments are bound. The value and the
bindings depend only on the mode, on the variables that occur in the tree, and on those that the
functions of the registry read by themselves; the standard functions read none. An error is that of
a part which fails by itself, and what has been carried out comes before this part, so that a
failing assignment leaves its target as it was. -/
theorem effects_of_eval (r : Registry) (e : Expr) (s : Store) :
    (e.eval r s).2.mode = s.mode ∧
    (e.eval r s).2 = s.setAll (e.bindings r s) ∧
    (∀ b ∈ e.bindings r s, CarriesOut r e s b) ∧
    (∀ id, ¬ e.Assigns id → (e.eval r s).2.value? id = s.value? id) ∧
    (∀ reads, r.ReadsOnly reads → ∀ s', s'.mode = s.mode →
      (∀ id, e.Mentions id ∨ reads id → s'.value? id = s.value? id) →
      (e.eval r s').1 = (e.eval r s).1 ∧ e.bindings r s' = e.bindings r s) ∧
    ((∀ id f, r.get? id = some f → f ∈ Standard.fundamentals ++ Standard.functions) →
      ∀ s', s'.mode = s.mode → (∀ id, e.Mentions id → s'.value? id = s.value? id) →
      (e.eval r s').1 = (e.eval r s).1 ∧ e.bindings r s' = e.bindings r s) ∧
    ((e.eval r s).1.isError = true → ∃ p f s₁, Visits r e s p f s₁ ∧ Fails r f s₁ ∧
      e.eval r s = f.eval r s₁ ∧ ∀ b ∈ e.bindings r s, b.place.Precedes p) ∧
    (∀ name id value, e = .assign (.var name id) value → (e.eval r s).1.isError = true →
      ¬ value.Assigns id → (e.eval r s).2.value? id = s.value? id) := by
  refine ⟨mode_eval e s, store_eval e s, carriesOut_of_mem e s,
    fun id => value?_eval_of_not_assigns, fun reads hr => eval_congr hr e s,
    fun hstandard s' hmode h => ?_, fun herror => ?_, ?_⟩
  · have hr : r.ReadsOnly fun _ => False :=
      fun id f hf => Standard.readsOnly_of_mem (hstandard id f hf)
    exact eval_congr hr e s s' hmode fun id hid => h id (hid.resolve_right not_false)
  · obtain ⟨p, f, s₁, hvisits, hfails⟩ := exists_fails e s herror
    obtain ⟨err, herr⟩ := Value.exists_of_isError hfails.error
    have hf : f.eval r s₁ = (.error err, (f.eval r s₁).2) := Prod.ext herr rfl
    obtain ⟨heval, hbefore⟩ := hvisits.eval_eq hf
    exact ⟨p, f, s₁, hvisits, hfails, heval.trans hf.symm, hbefore⟩
  · rintro name id value rfl herror hassigns
    rw [eval_assign name id rfl] at herror ⊢
    split at herror
    · next hv =>
        rw [if_pos hv]
        exact value?_eval_of_not_assigns hassigns
    · next hv => exact absurd herror hv

/-- The failing assignment `x = 1/0` where `x`, the first variable, is seven. -/
theorem effects_of_failing_assignment :
    let quotient := call BinaryOperator.divide.place [literal (.int 1), literal (.int 0)]
    let e := assign (.var "x" 1) quotient
    let s := ({ mode := .exact } : Store).set 1 (.int 7)
    (e.eval Standard.registry s).1.isError = true ∧ ¬ quotient.Assigns 1 ∧
      (e.eval Standard.registry s).2.value? 1 = some (.int 7) := by
  intro quotient e s
  have herror : (e.eval Standard.registry s).1.isError = true := by decide +kernel
  have hassigns : ¬ quotient.Assigns 1 := by
    rintro ⟨p, name, value, hp⟩
    rcases p with _ | ⟨_ | _ | i, _ | ⟨j, p⟩⟩ <;> simp [quotient, part?, children] at hp
  obtain ⟨-, -, -, -, -, -, -, hkept⟩ := effects_of_eval Standard.registry e s
  exact ⟨herror, hassigns, hkept "x" 1 quotient rfl herror hassigns⟩

end Expr

end Reckoner
