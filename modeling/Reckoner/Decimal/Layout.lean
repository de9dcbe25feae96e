import Reckoner.Decimal.Shortest

/-!
The two written forms of a double.

The positional form has the fewest digits that stand for the double, never an exponent, and no
point after a whole number. The scientific form has ten digits, correctly rounded from the exact
value with ties to the even digit, and a plain exponent.
-/
namespace Reckoner

namespace Decimal

/-- The text `s` with a minus sign ahead of it if `negative`. -/
def signed (negative : Bool) (s : String) : String :=
  if negative then "-" ++ s else s

/-- `n` zeros. -/
def zeros (n : Nat) : String :=
  String.ofList (List.replicate n '0')

/-- `digits · 10^exponent` without an exponent. -/
def Scaled.positional (d : Scaled) : String :=
  let digits := (toString d.digits).toList
  let places := (-d.exponent).toNat
  if d.digits = 0 then
    "0"
  else if places = 0 then
    String.ofList digits ++ zeros d.exponent.toNat
  else if places < digits.length then
    let whole := digits.length - places
    String.ofList (digits.take whole) ++ "." ++ String.ofList (digits.drop whole)
  else
    "0." ++ zeros (places - digits.length) ++ String.ofList digits

/-- `a / b` to the nearest whole number, ties to the even one. -/
def divNearestEven (a b : Nat) : Nat :=
  let q := a / b
  let twice := 2 * (a % b)
  if twice < b ∨ twice = b ∧ q % 2 = 0 then q else q + 1

/-- The greatest `k` with `10^k ≤ a / b`, found from `k` downward in at most `tries` steps. -/
def leadingPower (a b : Nat) (k : Int) : (tries : Nat) → Int
  | 0 => k
  | tries + 1 =>
    if b * tenTo k.toNat ≤ a * tenTo (-k).toNat then k else leadingPower a b (k - 1) tries

/-- `m · 2^q` to `places + 1` significant digits. -/
def rounded (places m : Nat) (q : Int) : Scaled :=
  let a := m * twoTo q.toNat
  let b := twoTo (-q).toNat
  let k := leadingPower a b (powerAbove m q) 4 - places
  let n := divNearestEven (a * tenTo (-k).toNat) (b * tenTo k.toNat)
  if n = tenTo (places + 1) then ⟨tenTo places, k + 1⟩ else ⟨n, k⟩

/-- One digit, a point, the other digits, `e` and the exponent of the first digit. -/
def Scaled.scientific (d : Scaled) : String :=
  let digits := (toString d.digits).toList
  String.ofList (digits.take 1) ++ "." ++ String.ofList (digits.drop 1) ++ "e"
    ++ toString (d.exponent + (digits.length - 1 : Nat))

/-- The positional form of a double. -/
def text (x : Float) : String :=
  match Shape.ofFloat x with
  | .nan => "NaN"
  | .infinite negative => signed negative "inf"
  | .finite negative m q narrow =>
    signed negative (if m = 0 then "0" else (shortest m q narrow).positional)

/-- The scientific form of a double, with ten digits. -/
def scientificText (x : Float) : String :=
  match Shape.ofFloat x with
  | .nan => "NaN"
  | .infinite negative => signed negative "inf"
  | .finite negative m q _ =>
    signed negative (if m = 0 then "0." ++ zeros 9 ++ "e0" else (rounded 9 m q).scientific)

example : text 0.1 = "0.1" := by decide +kernel

example : text 1e21 = "1000000000000000000000" := by decide +kernel

example : text 1e-7 = "0.0000001" := by decide +kernel

example : text (-0.0) = "-0" := by decide +kernel

example : scientificText (-0.25) = "-2.500000000e-1" := by decide +kernel

end Decimal

end Reckoner
