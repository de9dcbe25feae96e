import Reckoner.Function

/-!
Why a list of tokens cannot be parsed.
-/
namespace Reckoner

/-- The causes of a parse error, with the byte offset that it is reported at. -/
inductive ParseError where
  | noTokens
  /-- A token stands where the arguments of a function have to begin. -/
  | awaitedArguments (function : String) (position : Nat)
  | unknownFunction (name : String) (position : Nat)
  /-- A token is neither an operand nor an operator. -/
  | unsupported (text : String) (position : Nat)
  /-- The parenthesis at the position is never closed. -/
  | missingClose (position : Nat)
  | extraClose (position : Nat)
  | unexpectedComma (position : Nat)
  | missingArgument (position : Nat)
  | missingOperator (position : Nat)
  | missingOperand (operator : String) (position : Nat)
  /-- A token stands where only an operand can. -/
  | strayToken (text : String) (position : Nat)
  | missingFunction (position : Nat)
  | wrongCount (function : String) (arity : Arity) (count position : Nat)
  /-- The function refuses to build a tree of these arguments. -/
  | refused (e : CalcError)
deriving DecidableEq, Repr

/-- The error value of a cause. -/
def ParseError.toCalcError : ParseError → CalcError
  | noTokens => ⟨.noTokens, "No input", some 0⟩
  | awaitedArguments f p => ⟨.noValidToken, "Awaited function arguments for " ++ f, some p⟩
  | unknownFunction name p => ⟨.unknownFunction, "Unknown function " ++ name, some p⟩
  | unsupported text p => ⟨.notSupported, "Unsupported Token: " ++ text, some p⟩
  | missingClose p => ⟨.parenthesisMismatch, "Missing closing parenthesis", some p⟩
  | extraClose p => ⟨.parenthesisMismatch, "Too much closing parenthesis", some p⟩
  | unexpectedComma p => ⟨.noValidToken, "Unexpected comma", some p⟩
  | missingArgument p => ⟨.noValidToken, "Expected an argument", some p⟩
  | missingOperator p => ⟨.noValidToken, "Expected Operation", some p⟩
  | missingOperand text p => ⟨.noValidToken, "Could not handle command: " ++ text, some p⟩
  | strayToken text p => ⟨.noValidToken, "Token too much: " ++ text, some p⟩
  | missingFunction p => ⟨.noValidToken, "Expected a function", some p⟩
  | wrongCount f arity n p =>
    ⟨.wrongArgumentCount, f ++ "/" ++ arity.text ++ " called with " ++ toString n ++ " arguments",
      some p⟩
  | refused e => e

end Reckoner
