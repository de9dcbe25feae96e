import Reckoner.Expr
import Reckoner.Decimal.Numeral

/-!
Tokens: a kind, the text that was read, and the byte offset of its first character in the source.
-/
namespace Reckoner

/-- What a token stands for. Whether an identifier is a function, a constant or a variable shows
only in parsing. -/
inductive TokenKind where
  | lparen
  | rparen
  | int (n : BitVec 64)
  | double (x : Float)
  | plus
  | minus
  /-- A minus sign with an operand on its right only. -/
  | negate
  | asterisk
  | slash
  | circumflex
  | comma
  | equals
  /-- A part of the input that has been read already. -/
  | tree (e : Expr)
  | ident (name : String)

/-- A token: what it stands for, its text, and where it begins, in bytes. -/
structure Token where
  kind : TokenKind
  text : String
  position : Nat

namespace TokenKind

/-- A literal number. -/
def isNumber : TokenKind → Bool
  | int _ | double _ => true
  | _ => false

/-- A whole number. -/
def isInt : TokenKind → Bool
  | int _ => true
  | _ => false

/-- A floating-point number. -/
def isDouble : TokenKind → Bool
  | double _ => true
  | _ => false

/-- An identifier. -/
def isIdent : TokenKind → Bool
  | ident _ => true
  | _ => false

/-- An opening parenthesis. -/
def isOpen : TokenKind → Bool
  | lparen => true
  | _ => false

/-- A minus sign between operands. -/
def isMinus : TokenKind → Bool
  | minus => true
  | _ => false

/-- A minus sign before its operand. -/
def isNegate : TokenKind → Bool
  | negate => true
  | _ => false

/-- A minus sign that follows has no operand on its left. -/
def opensNegation : TokenKind → Bool
  | lparen | plus | minus | negate | asterisk | slash | circumflex | comma | equals => true
  | _ => false

end TokenKind

namespace Token

/-- The token is a literal number. -/
def isNumber (t : Token) : Bool :=
  t.kind.isNumber

/--
The double that a numeral denotes. Only digits, points, signs and the exponent letter count here,
so the words for infinity and for no number are not numerals.
-/
def readDouble? (text : List Char) : Option Float :=
  let opening := fun c : Char => c.isDigit || c == '.' || c == '+' || c == '-'
  if text.head?.any opening && text.all fun c => opening c || c == 'e' || c == 'E' then
    Decimal.readFloat? text
  else
    none

/-- What a piece of text stands for on its own: a symbol, a number, or else an identifier. -/
def kindOf (text : List Char) : TokenKind :=
  match text with
  | ['('] => .lparen
  | [')'] => .rparen
  | ['+'] => .plus
  | ['-'] => .minus
  | ['*'] => .asterisk
  | ['/'] => .slash
  | ['^'] => .circumflex
  | [','] => .comma
  | ['='] => .equals
  | _ =>
    match Decimal.readWord? 64 text with
    | some n => .int n
    | none =>
      match readDouble? text with
      | some x => .double x
      | none => .ident (String.ofList text)

/-- The token that a piece of text is. -/
def classify (text : List Char) (position : Nat) : Token :=
  ⟨kindOf text, String.ofList text, position⟩

/-- The token that stands for a part of the input that has been read. -/
def ofExpr (e : Expr) (position : Nat) : Token :=
  ⟨.tree e, "", position⟩

/-- How a token is written in a list of tokens. -/
def display (t : Token) : String :=
  match t.kind with
  | .negate => "neg"
  | .tree _ => "…"
  | _ => t.text

/-- The tokens of a list, a space between any two. -/
def displayAll (tokens : List Token) : String :=
  " ".intercalate (tokens.map display)

end Token

end Reckoner
