import Reckoner.Text.Hidden

/-!
Quoted text: the text between double quotes, with a backslash before what would end it or could
not be seen.
-/
namespace Reckoner

namespace Text

/-- The number in lower-case hexadecimal digits. -/
def hexadecimal (n : Nat) : String :=
  String.ofList (Nat.toDigits 16 n)

/-- How a character is written in a quoted text. -/
def escape (c : Char) : String :=
  if c = '"' then "\\\""
  else if c = '\\' then "\\\\"
  else if c = '\n' then "\\n"
  else if c = '\r' then "\\r"
  else if c = '\t' then "\\t"
  else if c = '\x00' then "\\0"
  else if isHidden c then "\\u\x7b" ++ hexadecimal c.toNat ++ "\x7d"
  else c.toString

/-- The text in quotes. -/
def quote (s : String) : String :=
  "\"" ++ String.join (s.toList.map escape) ++ "\""

/-- Quoted texts in brackets. -/
def quoteAll (texts : List String) : String :=
  "[" ++ ", ".intercalate (texts.map quote) ++ "]"

example : quote "a\\b\"\n\x07" = "\"a\\\\b\\\"\\n\\u\x7b7\x7d\"" := by decide +kernel

example : quoteAll ["PI", "pi"] = "[\"PI\", \"pi\"]" := by decide +kernel

end Text

end Reckoner
