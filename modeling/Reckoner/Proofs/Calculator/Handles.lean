import Reckoner.Proofs.Calculator.Dialogue
import Reckoner.Proofs.Expr.Effects
import Reckoner.Proofs.Parser.Inheritance
import Reckoner.Proofs.Vocabulary

/-!
Functions by their handles.

A tree calls a function by the place that the registry has given it. Functions may be added and
replaced between the requests to a calculator, but a place is never given to another name, so that
the calls of a tree that has been returned once mean functions of the same names ever after.
-/
namespace Reckoner

/-! ## The calls of a tree -/

namespace Expr

variable {e : Expr} {id j : FunctionId} {args : List Expr}

/-- The function with this handle is called somewhere in the tree. -/
def Calls (e : Expr) (id : FunctionId) : Prop :=
  ∃ p args, e.part? p = some (call id args)

theorem calls_iff :
    e.Calls id ↔ (∃ args, e = call id args) ∨ ∃ c ∈ e.children, c.Calls id := by
  constructor
  · rintro ⟨_ | ⟨i, p⟩, args, h⟩
    · exact .inl ⟨args, Option.some.inj h⟩
    · obtain ⟨c, hc, hpart⟩ := Option.bind_eq_some_iff.1 h
      exact .inr ⟨c, List.mem_of_getElem? hc, p, args, hpart⟩
  · rintro (⟨args, rfl⟩ | ⟨c, hc, p, args, hpart⟩)
    · exact ⟨[], args, rfl⟩
    · obtain ⟨i, hi⟩ := List.mem_iff_getElem?.1 hc
      exact ⟨i :: p, args, (part?_children hi).trans hpart⟩

@[simp] theorem calls_call : (call id args).Calls j ↔ id = j ∨ ∃ a ∈ args, a.Calls j := by
  rw [calls_iff]
  simp [children]

@[simp] theorem calls_assign {target value : Expr} :
    (assign target value).Calls j ↔ target.Calls j ∨ value.Calls j := by
  rw [calls_iff]
  simp [children]

@[simp] theorem not_calls_literal (value : Value) : ¬ (literal value).Calls j := by
  rw [calls_iff]
  simp [children]

@[simp] theorem not_calls_var (name : String) (x : VariableId) : ¬ (var name x).Calls j := by
  rw [calls_iff]
  simp [children]

@[simp] theorem not_calls_constant (name : String) (value : Value) :
    ¬ (constant name value).Calls j := by
  rw [calls_iff]
  simp [children]

/-- Everything that the tree calls stands in the registry. -/
def Designates (e : Expr) (r : Registry) : Prop :=
  ∀ id, e.Calls id → (r.get? id).isSome = true

end Expr

/-- The trees that the function builds call itself and what the arguments call, nothing else. -/
def NamedFunction.Confined (f : NamedFunction) : Prop :=
  ∀ id args e, f.build id args = .ok e → ∀ j, e.Calls j → j = id ∨ ∃ a ∈ args, a.Calls j

theorem NamedFunction.confined_of_builder_eq_none {f : NamedFunction} (h : f.builder = none) :
    f.Confined := by
  intro id args e hbuild j hcalls
  simp only [build, h] at hbuild
  cases hbuild
  rcases Expr.calls_call.1 hcalls with rfl | hargs
  · exact .inl rfl
  · exact .inr hargs

/-- The functions that a calculator may start with are confined: only the assignment builds trees of
its own. -/
theorem Standard.confined {f : NamedFunction} (h : f ∈ fundamentals ++ functions) :
    f.Confined := by
  have hbuilder : f.builder = none ∨ f.builder = some buildAssignment := by
    revert f
    simp [fundamentals, functions, infixOperator, usual]
  rcases hbuilder with hnone | hassignment
  · exact NamedFunction.confined_of_builder_eq_none hnone
  · intro id args e hbuild j hcalls
    simp only [NamedFunction.build, hassignment, buildAssignment] at hbuild
    split at hbuild
    · cases hbuild
      simpa using Or.inr (Expr.calls_assign.1 hcalls)
    · cases hbuild

/-- What the trees of a vocabulary of confined functions call stands in its registry. -/
theorem Parser.inherited_designates {v : Vocabulary}
    (hv : ∀ id f, v.functions.get? id = some f → f.Confined) :
    Inherited v fun e => e.Designates v.functions where
  literal := by simp [Expr.Designates]
  var := by simp [Expr.Designates]
  constant := by simp [Expr.Designates]
  extend := by
    intro id args e hcall he j hj
    rcases Expr.calls_call.1 hj with rfl | ⟨a, ha, haj⟩
    · exact hcall id (Expr.calls_call.2 (.inl rfl))
    · rcases List.mem_append.1 ha with ha | ha
      · exact hcall j (Expr.calls_call.2 (.inr ⟨a, ha, haj⟩))
      · obtain rfl : a = e := by simpa using ha
        exact he j haj
  build := by
    intro id f args e hget hargs hbuild j hj
    rcases hv id f hget id args e hbuild j hj with rfl | ⟨a, ha, haj⟩
    · rw [hget]
      rfl
    · exact hargs a ha j haj

/-! ## Requests and additions -/

/-- The calculator with an addition to its vocabulary. -/
def Calculator.extend (c : Calculator) : Addition → Calculator
  | .function f => c.addFunction f
  | .constant name value aliases => c.addConstant name value aliases

theorem Calculator.vocabulary_extend (c : Calculator) (a : Addition) :
    (c.extend a).vocabulary = c.vocabulary.extend a := by
  cases a <;> rfl

/-- What a host does with a calculator at a time: it makes a request, or it adds a function or a
constant. -/
inductive Deed where
  | ask (request : Request VariableId)
  | add (addition : Addition)

/-- The addition that is made, if it is one. -/
def Deed.addition? : Deed → Option Addition
  | ask _ => none
  | add addition => some addition

/-- The functions that are added, in order. -/
def functionsOf (deeds : List Deed) : List NamedFunction :=
  (deeds.filterMap Deed.addition?).filterMap Addition.function?

namespace Transcript

variable {t : Transcript} {e : Expr}

/-- The transcript after one more deed. -/
def perform (t : Transcript) : Deed → Transcript
  | .ask request => t.ask request
  | .add addition => { t with calculator := t.calculator.extend addition }

/-- The transcript after deeds. -/
def performAll (t : Transcript) (deeds : List Deed) : Transcript :=
  deeds.foldl perform t

/-- The functions that the calculator knows. -/
abbrev registry (t : Transcript) : Registry :=
  t.calculator.registry

theorem performAll_append (t : Transcript) (deeds more : List Deed) :
    t.performAll (deeds ++ more) = (t.performAll deeds).performAll more :=
  List.foldl_append

/-- Requests register nothing. -/
theorem registry_performAll (t : Transcript) (deeds : List Deed) :
    (t.performAll deeds).registry = t.registry.registerAll (functionsOf deeds) := by
  induction deeds generalizing t with
  | nil => rfl
  | cons deed rest ih =>
      have hrest : t.performAll (deed :: rest) = (t.perform deed).performAll rest := rfl
      rw [hrest, ih]
      cases deed with
      | ask request =>
          have hask : (t.perform (.ask request)).registry = t.registry := by
            simp only [registry, Calculator.registry, perform, vocabulary_ask]
          rw [hask]
          rfl
      | add addition =>
          have hadd : (t.perform (.add addition)).registry =
              t.registry.registerAll addition.function?.toList := by
            simp only [registry, Calculator.registry, perform, Calculator.vocabulary_extend,
              Vocabulary.functions_extend]
          rw [hadd, ← Registry.registerAll_append]
          cases addition <;> rfl

/-- A request returns no tree, or that of a text. -/
theorem trees_ask (t : Transcript) (request : Request VariableId) :
    (t.ask request).trees = t.trees ∨
      ∃ text, (t.ask request).trees = t.trees ++ [(t.calculator.parse text).1] := by
  cases request with
  | parse text => exact .inr ⟨text, rfl⟩
  | eval text => exact .inr ⟨text, rfl⟩
  | evaluate index =>
      left
      cases htree : t.trees[index]? with
      | none => rw [ask_evaluate_of_eq_none htree]
      | some e => rw [ask_evaluate htree]
  | _ => exact .inl rfl

end Transcript

/-- The functions that a new calculator knows. -/
def Options.functionsAtFirst (o : Options) : List NamedFunction :=
  Standard.fundamentals ++ if o.functions then Standard.functions else []

theorem Calculator.registry_new_eq (o : Options) :
    (new o).registry = Registry.registerAll {} o.functionsAtFirst := by
  rw [registry_new, Options.functionsAtFirst]
  split <;> rfl

/-- The tree of a text calls nothing that does not stand in the registry. -/
theorem Calculator.designates_parse {c : Calculator}
    (hc : ∀ id f, c.registry.get? id = some f → f.Confined) (text : String) :
    (c.parse text).1.Designates c.registry := by
  cases herror : (c.parse text).1.error? with
  | none =>
      exact (Parser.inherited_designates hc).of_parse (fun t ht => Token.spelled_of_mem_scan ht)
        (parse_eq_ok herror)
  | some err =>
      intro id hcalls
      cases hroot : (c.parse text).1 with
      | literal value =>
          rw [hroot] at hcalls
          exact absurd hcalls (Expr.not_calls_literal value)
      | _ =>
          rw [hroot] at herror
          cases herror

namespace Transcript

variable {t : Transcript}

theorem registry_performAll_new (o : Options) (deeds : List Deed) :
    ((new o).performAll deeds).registry =
      Registry.registerAll {} (o.functionsAtFirst ++ functionsOf deeds) := by
  rw [registry_performAll, Registry.registerAll_append, ← Calculator.registry_new_eq]
  rfl

/-- All functions are confined, and whatever the trees call stands in the registry. -/
structure Linked (t : Transcript) : Prop where
  coherent : t.registry.Coherent
  confined : ∀ id f, t.registry.get? id = some f → f.Confined
  trees : ∀ e ∈ t.trees, e.Designates t.registry

theorem linked_new (o : Options) : (new o).Linked where
  coherent := by
    have hnew : (new o).registry = Registry.registerAll {} o.functionsAtFirst :=
      Calculator.registry_new_eq o
    rw [hnew]
    exact Registry.coherent_empty.registerAll o.functionsAtFirst
  confined := by
    intro id f hget
    have hnew : (new o).registry = Registry.registerAll {} o.functionsAtFirst :=
      Calculator.registry_new_eq o
    rw [hnew] at hget
    have hmem := Registry.mem_of_latest? ((Registry.follows_registerAll _).latest hget)
    rcases List.mem_append.1 hmem with hfundamental | husual
    · exact Standard.confined (List.mem_append_left _ hfundamental)
    · split at husual
      · exact Standard.confined (List.mem_append_right _ husual)
      · cases husual
  trees := by simp [new]

/-- Nothing has been registered. -/
theorem Linked.of_registry_eq {t' : Transcript} (h : t.Linked) (hregistry : t'.registry = t.registry)
    (htrees : ∀ e ∈ t'.trees, e.Designates t.registry) : t'.Linked := by
  constructor
  · rw [hregistry]
    exact h.coherent
  · rw [hregistry]
    exact h.confined
  · rw [hregistry]
    exact htrees

theorem Linked.ask (h : t.Linked) (request : Request VariableId) : (t.ask request).Linked := by
  refine h.of_registry_eq ?_ ?_
  · simp only [registry, Calculator.registry, vocabulary_ask]
  · rcases t.trees_ask request with htrees | ⟨text, htrees⟩
    · rw [htrees]
      exact h.trees
    · rw [htrees]
      refine List.forall_mem_append.2 ⟨h.trees, ?_⟩
      simpa using Calculator.designates_parse h.confined text

theorem Linked.addConstant (h : t.Linked) (name : String) (value : Value) (aliases : List String) :
    (t.perform (.add (.constant name value aliases))).Linked :=
  h.of_registry_eq (t.calculator.vocabulary.functions_addConstant name value aliases) h.trees

theorem Linked.addFunction (h : t.Linked) {f : NamedFunction} (hf : f.Confined) :
    (t.perform (.add (.function f))).Linked := by
  have hregistry : (t.perform (.add (.function f))).registry = t.registry.register f := rfl
  constructor
  · rw [hregistry]
    exact h.coherent.register f
  · intro id g hget
    rw [hregistry] at hget
    by_cases hid : id = t.registry.placeOf f
    · rw [hid, h.coherent.get?_register] at hget
      obtain rfl : f = g := Option.some.inj hget
      exact hf
    · rw [Registry.get?_register_of_ne _ f hid] at hget
      exact h.confined id g hget
  · intro e he id hcalls
    rw [hregistry]
    exact h.coherent.isSome_get?_register (h.trees e he id hcalls) f

/-- As long as confined functions are added, trees call nothing that does not stand in the
registry. -/
theorem Linked.performAll (h : t.Linked) {deeds : List Deed}
    (hdeeds : ∀ f ∈ functionsOf deeds, f.Confined) : (t.performAll deeds).Linked := by
  induction deeds generalizing t with
  | nil => exact h
  | cons deed rest ih =>
      rcases deed with request | ⟨f⟩ | ⟨name, value, aliases⟩
      · exact ih (h.ask request) hdeeds
      · obtain ⟨hf, hrest⟩ := List.forall_mem_cons.1 hdeeds
        exact ih (h.addFunction hf) hrest
      · exact ih (h.addConstant name value aliases) hdeeds

end Transcript

/-! ## Stability -/

/-- What a name has been given it keeps. A handle that a search or a registration has returned for a
name is returned for it by all later ones, and what stands there is what was registered last under
the name. After any registrations the index finds a name exactly at the place of the function that
has it, and there are as many functions as names, in the order of the first registrations. What a
tree of a calculator calls stands in the registry, unless a function that was added builds trees of
others, and it has the same name after whatever else has been added. -/
theorem handles_stable :
    (∀ fs name id, Registry.Returned fs name id → ∀ gs,
      let r := Registry.registerAll {} (fs ++ gs)
      r.findByName? name = some id ∧ (∀ g, g.name = name → r.placeOf g = id) ∧
        ∃ f, r.get? id = some f ∧ f.name = name ∧ Registry.latest? (fs ++ gs) name = some f) ∧
    (∀ fs,
      let r := Registry.registerAll {} fs
      (∀ name id, r.byName.lookup name = some id ↔
        ∃ f, r.functions[id]? = some f ∧ f.name = name) ∧
        r.functions.map some = (fs.map NamedFunction.name).eraseDups.map (Registry.latest? fs) ∧
        r.size = (fs.map NamedFunction.name).toFinset.card) ∧
    ∀ o deeds, ∀ e ∈ ((Transcript.new o).performAll deeds).trees, ∀ id, e.Calls id →
      let r := ((Transcript.new o).performAll deeds).registry
      ((∀ f ∈ functionsOf deeds, f.Confined) → ∃ f, r.get? id = some f) ∧
        ∀ f, r.get? id = some f → ∀ more,
          let later := ((Transcript.new o).performAll (deeds ++ more)).registry
          later.findByName? f.name = some id ∧ ∃ g, later.get? id = some g ∧ g.name = f.name := by
  have hstable : ∀ fs name id, Registry.Returned fs name id → ∀ gs,
      (Registry.registerAll {} (fs ++ gs)).findByName? name = some id ∧
        (∀ g, g.name = name → (Registry.registerAll {} (fs ++ gs)).placeOf g = id) ∧
        ∃ f, (Registry.registerAll {} (fs ++ gs)).get? id = some f ∧ f.name = name ∧
          Registry.latest? (fs ++ gs) name = some f := by
    intro fs name id hreturned gs
    obtain ⟨hfind, hplace⟩ := hreturned.stable gs
    exact ⟨hfind, hplace, (Registry.follows_registerAll _).latest_of_findByName? hfind⟩
  refine ⟨hstable, fun fs => ?_, fun o deeds e he id hcalls => ⟨fun hdeeds => ?_, ?_⟩⟩
  · have hfollows := Registry.follows_registerAll fs
    exact ⟨fun name id => hfollows.coherent.findByName?_eq_some_iff, hfollows.map_functions,
      hfollows.size_eq⟩
  · have hlinked := (Transcript.linked_new o).performAll hdeeds
    exact Option.isSome_iff_exists.1 (hlinked.trees e he id hcalls)
  · intro f hget more
    rw [Transcript.registry_performAll_new] at hget
    have hfollows := Registry.follows_registerAll (o.functionsAtFirst ++ functionsOf deeds)
    have hreturned : Registry.Returned (o.functionsAtFirst ++ functionsOf deeds) f.name id :=
      .found (hfollows.coherent.findByName?_eq_some_iff.2 ⟨f, hget, rfl⟩)
    obtain ⟨hfind, -, g, hlater, hname, -⟩ := hstable _ _ _ hreturned (functionsOf more)
    rw [Transcript.performAll_append, Transcript.registry_performAll,
      Transcript.registry_performAll_new, ← Registry.registerAll_append]
    exact ⟨hfind, g, hlater, hname⟩

end Reckoner
