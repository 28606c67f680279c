import Lox.Number.Magnitude

/-!
# Reading decimals

A number is written as digits, optionally followed by a point and more digits, and stands for
the nearest double.
-/

set_option autoImplicit false

namespace Lox.Number

def digitValue (c : Char) : Nat :=
  c.toNat - '0'.toNat

/-- The number that a row of digits denotes. -/
def ofDigits (digits : List Char) : Nat :=
  digits.foldl (fun n c => 10 * n + digitValue c) 0

/-- The double nearest to a decimal with the given digits before and after its point. -/
def ofDecimal (whole fraction : List Char) : Float :=
  ofMagnitude (nearest (ofDigits (whole ++ fraction)) (Nat.pow 10 fraction.length))

/-- Reads `digits` or `digits.digits`. -/
def read (text : List Char) : Float :=
  let whole := text.takeWhile Char.isDigit
  let fraction := (text.dropWhile Char.isDigit).drop 1
  ofDecimal whole fraction

end Lox.Number
