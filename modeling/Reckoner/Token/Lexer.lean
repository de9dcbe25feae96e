import Reckoner.Token

/-!
Cutting text into tokens.

The text is cut into pieces first: every symbol is a piece, and so is every run of other characters
without blanks. A blank after a run leaves a gap. The pieces are then entered one by one into a
draft of the token list, where a whole number may close an exponential numeral that its sign had
cut in three, and a numeral with a name glued to it is cut in two. In the end the minus signs
without a left operand are told apart, and those in front of a numeral become part of it.

Every text has tokens: what is neither a symbol nor a number is an identifier.
-/
namespace Reckoner

namespace Token

/-- The characters that only separate. -/
def isBlank (c : Char) : Bool :=
  c == ' ' || c == '\n' || c == '\t' || c == '\r'

/-- The characters that are pieces by themselves. -/
def isSymbol (c : Char) : Bool :=
  c == '(' || c == ')' || c == '+' || c == '-' || c == '*' || c == '/' || c == '^' || c == ','
    || c == '='

/-! ## Pieces -/

/-- A piece of the text with the byte offset of its first character, or the gap that a blank leaves
after a run of characters. -/
inductive Piece where
  | text (chars : List Char) (position : Nat)
  | gap
deriving DecidableEq, Repr

/-- The run read so far as a piece, if there is one. -/
def Piece.ofRun (run : List Char) (start : Nat) : List Piece :=
  if run = [] then [] else [text run start]

/--
The pieces of the characters from byte `position` on, after the characters `run` from byte `start`
on, which no blank or symbol has ended yet.
-/
def pieces (run : List Char) (start position : Nat) : List Char → List Piece
  | [] => Piece.ofRun run start
  | c :: rest =>
    let next := position + c.utf8Size
    if isBlank c then
      Piece.ofRun run start ++ (if run = [] then [] else [.gap]) ++ pieces [] next next rest
    else if isSymbol c then
      Piece.ofRun run start ++ .text [c] position :: pieces [] next next rest
    else
      pieces (run ++ [c]) start next rest

/-! ## Numerals with a name glued to them -/

/-- What has been read of a numeral at the beginning of a run, and what follows it. `hasDigit` is
about the exponent if there is one, and about the part before it otherwise. -/
structure NumeralScan where
  numeral : List Char
  rest : List Char
  hasDigit : Bool
  hasExponent : Bool
deriving DecidableEq, Repr

/--
Read on in a numeral: digits, one point before the exponent, and one letter `e` after a digit. A
digit must follow the letter.
-/
def scanNumeral (numeral : List Char) (digit point exponent : Bool) : List Char → NumeralScan
  | [] => ⟨numeral, [], digit, exponent⟩
  | c :: rest =>
    if c.isDigit then
      scanNumeral (numeral ++ [c]) true point exponent rest
    else if c == 'e' && digit && !exponent then
      scanNumeral (numeral ++ [c]) false point true rest
    else if c == '.' && !point && !exponent then
      scanNumeral (numeral ++ [c]) digit true exponent rest
    else
      ⟨numeral, c :: rest, digit, exponent⟩

/--
A run that begins with a numeral, cut into numeral and name. An `e` at the very end without digits
after it is a name.
-/
def splitNumeral? (run : List Char) : Option (List Char × List Char) :=
  let s := scanNumeral [] false false false run
  if s.rest = [] then
    if s.hasExponent && !s.hasDigit then some (s.numeral.dropLast, ['e']) else none
  else if s.hasDigit then
    some (s.numeral, s.rest)
  else
    none

/-! ## The draft -/

/-- The tokens so far, the latest first; `none` is a gap. -/
abbrev Draft := List (Option Token)

/-- The double that the last `n` tokens of the draft and `text` write together, if no gap parts
them. -/
def fuse? (draft : Draft) (n : Nat) (text : List Char) : Option Token :=
  match (draft.take n).reverse.mapM id with
  | some (first :: others) =>
    if others.length + 1 = n then
      let whole := (first :: others).flatMap fun t => t.text.toList
      let t := classify (whole ++ text) first.position
      if t.kind.isDouble then some t else none
    else
      none
  | _ => none

/--
Enter a piece. A whole number is tried as the end of a numeral with a signed exponent, then of one
whose other half is two tokens.
-/
def enter (draft : Draft) : Piece → Draft
  | .gap => none :: draft
  | .text chars position =>
    let t := classify chars position
    if t.kind.isInt then
      match fuse? draft 3 chars with
      | some whole => some whole :: draft.drop 3
      | none =>
        match fuse? draft 2 chars with
        | some whole => some whole :: draft.drop 2
        | none => some t :: draft
    else if t.kind.isIdent then
      match splitNumeral? chars with
      | some (numeral, name) =>
        some (classify name (position + (String.ofList numeral).utf8ByteSize))
          :: some (classify numeral position) :: draft
      | none => some t :: draft
    else
      some t :: draft

/-! ## Minus signs -/

/--
Tell the minus signs without a left operand from the others: they come first, or after a token that
leaves room for an operand. `free` says whether the place before the list is such.
-/
def markNegations (free : Bool) : List (Option Token) → List (Option Token)
  | [] => []
  | none :: rest => none :: markNegations false rest
  | some t :: rest =>
    let t := if t.kind.isMinus && free then { t with kind := .negate } else t
    some t :: markNegations t.kind.opensNegation rest

/-- The numeral `t` with the minus sign at `position` in front. -/
def withMinus (t : Token) (position : Nat) : Token :=
  classify ('-' :: t.text.toList) position

/-- Merge every minus sign without a left operand into the numeral that follows it. -/
def foldSigns : List (Option Token) → List (Option Token)
  | some n :: some t :: rest =>
    if n.kind.isNegate && t.isNumber then
      none :: some (withMinus t n.position) :: foldSigns rest
    else
      some n :: foldSigns (some t :: rest)
  | x :: rest => x :: foldSigns rest
  | [] => []

/-- Settle the minus signs; a lone token is left as it is. -/
def settleSigns (tokens : List (Option Token)) : List (Option Token) :=
  if tokens.length < 2 then tokens else foldSigns (markNegations true tokens)

/-- The tokens of a text. -/
def scan (text : String) : List Token :=
  let draft := (pieces [] 0 0 text.toList).foldl enter []
  (settleSigns draft.reverse).filterMap id

example : (scan "2e-3 cos").map display = ["2e-3", "cos"] := by decide +kernel

example : (scan "2e -3").map display = ["2", "e", "-", "3"] := by decide +kernel

example : (scan "x - -2y").map display = ["x", "-", "-2", "y"] := by decide +kernel

example : (scan "√(-x)").map position = [0, 3, 4, 5, 6] := by decide +kernel

end Token

end Reckoner
