import Reckoner.Calculator
import Reckoner.Proofs.Parser.Steps
import Reckoner.Proofs.Standard.Reading

/-!
What a calculator reads a text with, and when it reads it without error.
-/
namespace Reckoner

namespace Calculator

theorem registry_new (o : Options) :
    (new o).registry = if o.functions then Standard.registry else Standard.vocabulary.functions := by
  rcases o with ⟨mode, constants, functions, digits⟩
  cases constants <;> cases functions <;> rfl

/-- A new calculator has the fundamental operators, with the usual functions or without. -/
theorem hasOperators_new (o : Options) : (new o).registry.HasOperators := by
  rw [registry_new]
  split
  · exact Standard.hasOperators_registry
  · exact Standard.hasOperators_vocabulary

/-- The functions of a new calculator read the mode only. -/
theorem readsOnly_new (o : Options) : (new o).registry.ReadsOnly fun _ => False := by
  rw [registry_new]
  split
  · exact Standard.readsOnly_registry
  · exact fun _ _ hf =>
      Standard.readsOnly_of_mem (List.mem_append_left _ (List.mem_of_getElem? hf))

/-- A tree that is no error has been parsed. -/
theorem parse_eq_ok {c : Calculator} {text : String} (h : (c.parse text).1.error? = none) :
    Parser.parse c.vocabulary c.names (Token.scan text) =
      (.ok (c.parse text).1, (c.parse text).2.names) := by
  have hread : c.parse text = ((Parser.read c.vocabulary c.names (Token.scan text)).1,
      { c with names := (Parser.read c.vocabulary c.names (Token.scan text)).2 }) := rfl
  rw [hread] at h ⊢
  unfold Parser.read at h ⊢
  generalize Parser.parse c.vocabulary c.names (Token.scan text) = result at h ⊢
  rcases result with ⟨⟨e⟩ | ⟨e⟩, names⟩
  · cases h
  · rfl

theorem parse_of_eq_ok {c : Calculator} {text : String} {e : Expr} {n : Names}
    (h : Parser.parse c.vocabulary c.names (Token.scan text) = (.ok e, n)) :
    (c.parse text).1 = e := by
  simp only [parse, Parser.read, h]

end Calculator

end Reckoner
