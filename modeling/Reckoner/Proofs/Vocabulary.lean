import Reckoner.Proofs.Standard.Registry

/-!
What a host can make of the vocabulary of the fundamental operators.

Functions and constants are added in any order, and functions are replaced by others of the same
name. An operator may change its meaning thereby, its precedence and the function it stands for, but
a symbol once brought never ceases to denote something, and neither does the name of the negation.
-/
namespace Reckoner

/-- What is added to a vocabulary at a time: a function, which replaces the one of the same name, or
a constant with its further names. -/
inductive Addition where
  | function (f : NamedFunction)
  | constant (name : String) (value : Value) (aliases : List String)

/-- The function that is added, if it is one. -/
def Addition.function? : Addition → Option NamedFunction
  | function f => some f
  | constant _ _ _ => none

namespace Vocabulary

/-- The vocabulary with an addition. -/
def extend (v : Vocabulary) : Addition → Vocabulary
  | .function f => v.addFunction f
  | .constant name value aliases => v.addConstant name value aliases

/-- The vocabulary with several additions, made in order. -/
def extendAll (v : Vocabulary) (additions : List Addition) : Vocabulary :=
  additions.foldl extend v

theorem functions_addConstant (v : Vocabulary) (name : String) (value : Value)
    (aliases : List String) : (v.addConstant name value aliases).functions = v.functions := by
  have hfold : ∀ (keys : List String) (v : Vocabulary),
      (keys.foldl (fun v key => { v with constants := (key, ⟨name, value⟩) :: v.constants })
        v).functions = v.functions := by
    intro keys
    induction keys with
    | nil => exact fun _ => rfl
    | cons key keys ih => exact fun v => ih _
  exact hfold _ v

theorem functions_extend (v : Vocabulary) (a : Addition) :
    (v.extend a).functions = v.functions.registerAll a.function?.toList := by
  cases a with
  | function f => rfl
  | constant name value aliases => exact v.functions_addConstant name value aliases

/-- Additions to a vocabulary are registrations of functions. -/
theorem functions_extendAll (v : Vocabulary) (additions : List Addition) :
    (v.extendAll additions).functions =
      v.functions.registerAll (additions.filterMap Addition.function?) := by
  induction additions generalizing v with
  | nil => rfl
  | cons a rest ih =>
      have hrest : v.extendAll (a :: rest) = (v.extend a).extendAll rest := rfl
      rw [hrest, ih, functions_extend]
      cases a <;> rfl

end Vocabulary

/-! ## Operators -/

namespace Registry

variable {r : Registry} {name symbol text : String} {id : FunctionId}

/-- Every operator denotes something, and whatever is found stands in the registry. -/
structure KnowsOperators (r : Registry) : Prop where
  coherent : r.Coherent
  symbol : ∀ o : BinaryOperator, (r.findBySymbol? o.symbol).isSome = true
  negate : (r.findByName? "negate").isSome = true
  present : ∀ {symbol id}, r.findBySymbol? symbol = some id → (r.get? id).isSome = true

theorem KnowsOperators.register (h : r.KnowsOperators) (f : NamedFunction) :
    (r.register f).KnowsOperators where
  coherent := h.coherent.register f
  symbol := by
    intro o
    rw [findBySymbol?_register]
    split
    · rfl
    · exact h.symbol o
  negate := by
    obtain ⟨id, hid⟩ := Option.isSome_iff_exists.1 h.negate
    rw [findByName?_register_of_eq_some hid]
    rfl
  present := by
    intro symbol id hfind
    rw [findBySymbol?_register] at hfind
    split at hfind
    · rw [← Option.some.inj hfind, h.coherent.get?_register]
      rfl
    · exact h.coherent.isSome_get?_register (h.present hfind) f

theorem KnowsOperators.registerAll (h : r.KnowsOperators) (fs : List NamedFunction) :
    (r.registerAll fs).KnowsOperators := by
  induction fs generalizing r with
  | nil => exact h
  | cons f fs ih => exact ih (h.register f)

/-- What a text denotes as a name or a symbol stands in the registry. -/
theorem KnowsOperators.isSome_get? (h : r.KnowsOperators) (hfind : r.findRegular? text = some id) :
    (r.get? id).isSome = true := by
  rcases Option.or_eq_some_iff.1 hfind with hname | ⟨-, hsymbol⟩
  · obtain ⟨f, hget, -⟩ := h.coherent.exists_get? hname
    rw [hget]
    rfl
  · exact h.present hsymbol

end Registry

/-- However the fundamental operators are redefined, they denote something. -/
theorem Vocabulary.knowsOperators_extendAll (additions : List Addition) :
    (Standard.vocabulary.extendAll additions).functions.KnowsOperators := by
  have hstart : Standard.vocabulary.functions.KnowsOperators := by
    refine ⟨Standard.coherent_vocabulary, fun o => ?_, rfl, fun {symbol id} hfind => ?_⟩
    · rw [Standard.hasOperators_vocabulary.symbol o]
      rfl
    · have hfollows := Registry.follows_registerAll Standard.fundamentals
      rw [show Standard.vocabulary.functions = Registry.registerAll {} Standard.fundamentals
        from rfl, hfollows.symbol] at hfind
      obtain ⟨f, -, hname⟩ := Option.bind_eq_some_iff.1 hfind
      obtain ⟨g, hget, -⟩ := Standard.coherent_vocabulary.exists_get? hname
      exact Option.isSome_iff_exists.2 ⟨g, hget⟩
  rw [functions_extendAll]
  exact hstart.registerAll _

end Reckoner
