import Reckoner.Proofs.Expr.Effects
import Reckoner.Proofs.Names.Coherent
import Reckoner.Proofs.Parser.Anonymous

/-!
Evaluation where variables go by their names.

A store that is keyed by names needs no numbers. Evaluation with it gives the same values and keeps
to the same bindings as long as every variable of the tree has the number of its name, which holds
of every tree that has been read and stays so while names are added.
-/
namespace Reckoner

/-- The mode and the values of variables by their names. -/
structure NamedStore where
  mode : Mode
  value? : String → Option Value := fun _ => none

namespace NamedStore

/-- Bind a variable. -/
def set (s : NamedStore) (name : String) (v : Value) : NamedStore :=
  { s with value? := fun other => if other = name then some v else s.value? other }

/-- Forget the value of a variable. -/
def unset (s : NamedStore) (name : String) : NamedStore :=
  { s with value? := fun other => if other = name then none else s.value? other }

/-- Change the mode. -/
def setMode (s : NamedStore) (mode : Mode) : NamedStore :=
  { s with mode }

end NamedStore

namespace Expr

mutual

/-- The value of an expression and the store afterwards, by the names of variables. Functions are
called without bindings, since there are no numbers by which they could read them. -/
def evalByName (r : Registry) : Expr → NamedStore → Value × NamedStore
  | literal v, s => (v, s)
  | constant _ v, s => (v, s)
  | var name _, s =>
    match s.value? name with
    | some v => (v, s)
    | none => (.fail .unboundVariable ("Variable " ++ name ++ " is not bound"), s)
  | call id arguments, s =>
    match r.get? id with
    | none => (.fail .invalidOperation "Unknown function handle", s)
    | some f =>
      match evalAllByName r arguments s with
      | (.ok values, s) => (f.call { mode := s.mode } values, s)
      | (.error e, s) => (.error e, s)
  | assign (var name _) value, s =>
    match evalByName r value s with
    | (.error e, s) => (.error e, s)
    | (v, s) => (v, s.set name v)
  | assign _ _, s => (.fail .badType "Variable expected on left side", s)

/-- The values of arguments up to the first error, and the store afterwards. -/
def evalAllByName (r : Registry) :
    List Expr → NamedStore → Except CalcError (List Value) × NamedStore
  | [], s => (.ok [], s)
  | e :: rest, s =>
    match evalByName r e s with
    | (.error err, s) => (.error err, s)
    | (v, s) =>
      match evalAllByName r rest s with
      | (.ok vs, s) => (.ok (v :: vs), s)
      | (.error err, s) => (.error err, s)

end

variable {r : Registry}

mutual

/-- By name, the numbers of variables do not matter. -/
@[simp]
theorem evalByName_anonymous : ∀ (e : Expr) (s : NamedStore),
    e.anonymous.evalByName r s = e.evalByName r s
  | .literal _, s | .constant _ _, s | .var _ _, s => by simp only [anonymous, evalByName]
  | .call id arguments, s => by
      simp only [anonymous, evalByName, evalAllByName_anonymousAll arguments s]
  | .assign target value, s => by
      cases target <;> simp only [anonymous, evalByName, evalByName_anonymous value s]

theorem evalAllByName_anonymousAll : ∀ (es : List Expr) (s : NamedStore),
    evalAllByName r (anonymousAll es) s = evalAllByName r es s
  | [], s => rfl
  | e :: rest, s => by
      simp only [anonymousAll, evalAllByName, evalByName_anonymous e s,
        evalAllByName_anonymousAll rest]

end

/-! ## Variables with the numbers of their names -/

/-- Every variable of the tree has the number that the index has for its name. -/
def Numbered (n : Names) (e : Expr) : Prop :=
  ∀ name id, .var name id ∈ e.leaves → n.find? name = some id

variable {n m : Names} {s : Store} {s' : NamedStore} {e : Expr}

theorem Numbered.mono (h : n.Extends m) (he : Numbered n e) : Numbered m e :=
  fun name id hmem => h.find?_eq_some (he name id hmem)

theorem numbered_ofError (err : CalcError) : Numbered n (ofError err) := by
  intro name id hmem
  simp [ofError, leaves] at hmem

theorem numbered_of_flatMap {es : List Expr} (he : e.leaves = es.flatMap leaves)
    (h : ∀ e ∈ es, Numbered n e) : Numbered n e := by
  intro name id hmem
  rw [he] at hmem
  obtain ⟨e, he, hmem⟩ := List.mem_flatMap.1 hmem
  exact h e he name id hmem

theorem Numbered.argument {id : FunctionId} {arguments : List Expr}
    (h : Numbered n (call id arguments)) : ∀ e ∈ arguments, Numbered n e := by
  intro e he name id' hmem
  refine h name id' ?_
  rw [leaves_call]
  exact List.mem_flatMap.2 ⟨e, he, hmem⟩

theorem Numbered.target {name : String} {id : VariableId} {value : Expr}
    (h : Numbered n (assign (var name id) value)) : n.find? name = some id :=
  h name id (by simp [leaves])

theorem Numbered.value {target value : Expr} (h : Numbered n (assign target value)) :
    Numbered n value := by
  intro name id hmem
  refine h name id ?_
  rw [leaves]
  exact List.mem_append_right _ hmem

/-- Reading gives the variables the numbers of their names. -/
theorem treeProperty_numbered (v : Vocabulary) :
    Grammar.TreeProperty v (fun t => ∀ e, t.kind ≠ .tree e) (fun _ => True) Numbered where
  mono := Numbered.mono
  operand := by
    intro t n n' e ht h name id hmem
    cases Parser.stands_of_yields h with
    | tree hk => exact absurd hk (ht _)
    | var hk hconstant =>
        obtain ⟨rfl, rfl⟩ : name = _ ∧ id = _ := by simpa [leaves] using hmem
        exact n.find?_idOf _
    | _ => simp [leaves] at hmem
  binary := by
    intro n o left right hleft hright
    have hleaves : (o.combine left right).leaves = [left, right].flatMap leaves := by
      simp [leaves_combine]
    exact numbered_of_flatMap hleaves (by simp [hleft, hright])
  negate := by
    intro n e h
    exact numbered_of_flatMap (leaves_call _ _) (by simpa using h)
  call := fun _ _ _ h => numbered_of_flatMap (leaves_callTree _ _) h

/-- Every variable of what has been read has the number of its name. -/
theorem numbered_read {v : Vocabulary} (hv : v.functions.HasOperators) (n : Names) (text : String) :
    Numbered (Parser.read v n (Token.scan text)).2 (Parser.read v n (Token.scan text)).1 := by
  unfold Parser.read
  rcases hparse : Parser.parse v n (Token.scan text) with ⟨⟨err⟩ | ⟨e⟩, n'⟩
  · exact numbered_ofError _
  · exact (treeProperty_numbered v).of_parse hv
      (fun t ht => Token.spelled_of_mem_scan ht)
      (fun t rest hsuffix _ _ =>
        (Token.spelled_of_mem_scan (hsuffix.subset List.mem_cons_self)).kind_ne_tree)
      (fun _ _ _ _ => trivial) hparse

/-! ## The same bindings -/

/-- The two stores bind the same variables to the same values, and only variables that have a
number. The one that goes by numbers has slots for numbers in use only. -/
structure Tracks (n : Names) (s : Store) (s' : NamedStore) : Prop where
  mode : s.mode = s'.mode
  value : ∀ {id : VariableId} {name : String}, n.nameOf? id = some name →
    s.value? id = s'.value? name
  unnamed : ∀ {name : String}, n.find? name = none → s'.value? name = none
  unnumbered : ∀ {id : VariableId}, n.nameOf? id = none → s.value? id = none
  slots : s.slots.length ≤ n.size + 1

/-- One variable is bound or unbound in both stores, by its number and by its name. -/
theorem Tracks.update (h : Tracks n s s') (hn : n.Coherent) {id : VariableId} {name : String}
    (hid : n.nameOf? id = some name) {s₁ : Store} {s₁' : NamedStore} (hmode : s₁.mode = s.mode)
    (hmode' : s₁'.mode = s'.mode) (hself : s₁.value? id = s₁'.value? name)
    (hothers : ∀ i, i ≠ id → s₁.value? i = s.value? i)
    (hothers' : ∀ x, x ≠ name → s₁'.value? x = s'.value? x)
    (hslots : s₁.slots.length ≤ max s.slots.length (id + 1)) : Tracks n s₁ s₁' where
  mode := by rw [hmode, hmode', h.mode]
  value := by
    intro i x hi
    by_cases heq : i = id
    · subst heq
      obtain rfl : x = name := Option.some.inj (hi.symm.trans hid)
      exact hself
    · have hne : x ≠ name := by
        rintro rfl
        exact heq (hn.eq_of_eq_some hi hid)
      rw [hothers i heq, hothers' x hne, h.value hi]
  unnamed := by
    intro x hx
    have hne : x ≠ name := by
      rintro rfl
      rw [hn.find?_eq_some_iff.2 hid] at hx
      cases hx
    rw [hothers' x hne, h.unnamed hx]
  unnumbered := by
    intro i hi
    have hne : i ≠ id := by
      rintro rfl
      rw [hid] at hi
      cases hi
    rw [hothers i hne, h.unnumbered hi]
  slots := hslots.trans (max_le h.slots (Nat.succ_le_succ (Names.le_size_of_nameOf? hid)))

theorem Tracks.set (h : Tracks n s s') (hn : n.Coherent) {id : VariableId} {name : String}
    (hid : n.nameOf? id = some name) (v : Value) : Tracks n (s.set id v) (s'.set name v) :=
  h.update hn hid rfl rfl (by simp [NamedStore.set]) (fun _ hi => s.value?_set_of_ne v hi)
    (fun _ hx => by simp [NamedStore.set, hx]) (s.length_slots_set id v).le

theorem Tracks.unset (h : Tracks n s s') (hn : n.Coherent) {id : VariableId} {name : String}
    (hid : n.nameOf? id = some name) : Tracks n (s.unset id) (s'.unset name) :=
  h.update hn hid rfl rfl (by simp [NamedStore.unset]) (fun _ hi => s.value?_unset_of_ne hi)
    (fun _ hx => by simp [NamedStore.unset, hx])
    ((s.length_slots_unset id).le.trans (le_max_left _ _))

theorem Tracks.setMode (h : Tracks n s s') (mode : Mode) :
    Tracks n (s.setMode mode) (s'.setMode mode) :=
  ⟨rfl, h.value, h.unnamed, h.unnumbered, h.slots⟩

/-- A name that is added is bound by neither store. -/
theorem Tracks.mono (h : Tracks n s s') (hnm : n.Extends m) (hn : n.Coherent) (hm : m.Coherent) :
    Tracks m s s' where
  mode := h.mode
  value := by
    intro id name hid
    cases hold : n.nameOf? id with
    | some name' =>
        obtain rfl : name' = name :=
          Option.some.inj ((hnm.nameOf?_eq_some hold).symm.trans hid)
        exact h.value hold
    | none =>
        have hnew : n.find? name = none := by
          cases hfind : n.find? name with
          | none => rfl
          | some id' =>
              have hname := hn.find?_eq_some_iff.1 hfind
              rw [hm.eq_of_eq_some hid (hnm.nameOf?_eq_some hname), hname] at hold
              cases hold
        rw [h.unnumbered hold, h.unnamed hnew]
  unnamed := by
    intro name hname
    cases hfind : n.find? name with
    | none => exact h.unnamed hfind
    | some id =>
        rw [hnm.find?_eq_some hfind] at hname
        cases hname
  unnumbered := by
    intro id hid
    cases hold : n.nameOf? id with
    | none => exact h.unnumbered hold
    | some name =>
        rw [hnm.nameOf?_eq_some hold] at hid
        cases hid
  slots := h.slots.trans (Nat.succ_le_succ hnm.toList.length_le)

/-! ## The same values -/

mutual

/-- Evaluation by number and evaluation by name give the same value, and bind the same variables, if
functions read no variables by themselves. -/
theorem eval_tracks (hr : r.ReadsOnly fun _ => False) (hn : n.Coherent) :
    ∀ (e : Expr) (s : Store) (s' : NamedStore), Numbered n e → Tracks n s s' →
      (e.eval r s).1 = (e.evalByName r s').1 ∧ Tracks n (e.eval r s).2 (e.evalByName r s').2
  | .literal v, s, s', _, h => by
      rw [eval, evalByName]
      exact ⟨rfl, h⟩
  | .constant name v, s, s', _, h => by
      rw [eval, evalByName]
      exact ⟨rfl, h⟩
  | .var name id, s, s', he, h => by
      have hid : n.nameOf? id = some name :=
        hn.find?_eq_some_iff.1 (he name id (by simp [leaves]))
      rw [eval, evalByName, h.value hid]
      cases s'.value? name <;> exact ⟨rfl, h⟩
  | .call id arguments, s, s', he, h => by
      cases hf : r.get? id with
      | none =>
          simp only [eval, evalByName, hf]
          exact ⟨trivial, h⟩
      | some f =>
          obtain ⟨hvalues, hstore⟩ := evalAll_tracks hr hn arguments s s' he.argument h
          simp only [eval, evalByName, hf]
          generalize evalAll r arguments s = left at hvalues hstore ⊢
          generalize evalAllByName r arguments s' = right at hvalues hstore ⊢
          obtain ⟨result, s₁⟩ := left
          obtain ⟨result', s₁'⟩ := right
          obtain rfl : result = result' := hvalues
          cases result with
          | error err => exact ⟨rfl, hstore⟩
          | ok values => exact ⟨hr id f hf { mode := s₁'.mode } s₁ hstore.mode nofun values, hstore⟩
  | .assign target value, s, s', he, h => by
      cases target with
      | var name id =>
          obtain ⟨hvalue, hstore⟩ := eval_tracks hr hn value s s' he.value h
          rw [eval, evalByName]
          generalize value.eval r s = left at hvalue hstore ⊢
          generalize value.evalByName r s' = right at hvalue hstore ⊢
          obtain ⟨v, s₁⟩ := left
          obtain ⟨v', s₁'⟩ := right
          obtain rfl : v = v' := hvalue
          cases v with
          | error err => exact ⟨rfl, hstore⟩
          | _ => exact ⟨rfl, hstore.set hn (hn.find?_eq_some_iff.1 he.target) _⟩
      | _ =>
          simp only [eval, evalByName]
          exact ⟨trivial, h⟩

theorem evalAll_tracks (hr : r.ReadsOnly fun _ => False) (hn : n.Coherent) :
    ∀ (es : List Expr) (s : Store) (s' : NamedStore), (∀ e ∈ es, Numbered n e) → Tracks n s s' →
      (evalAll r es s).1 = (evalAllByName r es s').1 ∧
        Tracks n (evalAll r es s).2 (evalAllByName r es s').2
  | [], s, s', _, h => by
      rw [evalAll, evalAllByName]
      exact ⟨rfl, h⟩
  | e :: rest, s, s', hes, h => by
      obtain ⟨hvalue, hstore⟩ := eval_tracks hr hn e s s' (hes e List.mem_cons_self) h
      rw [evalAll, evalAllByName]
      generalize e.eval r s = left at hvalue hstore ⊢
      generalize e.evalByName r s' = right at hvalue hstore ⊢
      obtain ⟨v, s₁⟩ := left
      obtain ⟨v', s₁'⟩ := right
      obtain rfl : v = v' := hvalue
      cases v with
      | error err => exact ⟨rfl, hstore⟩
      | _ =>
          obtain ⟨hvalues, hstores⟩ := evalAll_tracks hr hn rest s₁ s₁'
            (fun e he => hes e (List.mem_cons_of_mem _ he)) hstore
          dsimp only
          generalize evalAll r rest s₁ = left at hvalues hstores ⊢
          generalize evalAllByName r rest s₁' = right at hvalues hstores ⊢
          obtain ⟨result, s₂⟩ := left
          obtain ⟨result', s₂'⟩ := right
          obtain rfl : result = result' := hvalues
          cases result <;> exact ⟨rfl, hstores⟩

end

end Expr

end Reckoner
