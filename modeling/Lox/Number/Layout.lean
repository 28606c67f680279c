import Lox.Number.Shortest

/-!
# Layouts of decimals

How the digits of a number become text. A `Layout` holds the decisions of one output format;
the formats themselves stand with the outputs that use them.
-/

set_option autoImplicit false

namespace Lox.Number

/-- The decisions of one number format. -/
structure Layout where
  /-- Numbers from `10 ^ first` up to but not including `10 ^ second` are written positionally;
  all of them if absent. -/
  positional : Option (Int × Int)
  /-- A positional number without a fraction ends in `.0`. -/
  pointZero : Bool
  /-- A positive exponent carries its sign. -/
  plusSign : Bool
  tie : Tie
  infinity : String
  nan : String
  deriving DecidableEq, Repr

def zeros (n : Nat) : String :=
  String.ofList (List.replicate n '0')

namespace Decimal

/-- The place of the first digit: `10 ^ (place - 1) ≤ d < 10 ^ place`. -/
def place (d : Decimal) : Int :=
  digitCount d.digits + d.exponent

def positionalText (d : Decimal) (pointZero : Bool) : String :=
  let digits := Nat.repr d.digits
  let below := (-d.exponent).toNat
  if below = 0 then
    digits ++ zeros d.exponent.toNat ++ (if pointZero then ".0" else "")
  else if below < digits.length then
    let split := digits.length - below
    String.ofList (digits.toList.take split) ++ "." ++ String.ofList (digits.toList.drop split)
  else
    "0." ++ zeros (below - digits.length) ++ digits

def scientificText (d : Decimal) (plusSign : Bool) : String :=
  let digits := (Nat.repr d.digits).toList
  let power := d.place - 1
  let fraction := match digits.drop 1 with
    | [] => ""
    | rest => "." ++ String.ofList rest
  let sign := if power < 0 then "-" else if plusSign then "+" else ""
  String.ofList (digits.take 1) ++ fraction ++ "e" ++ sign ++ Nat.repr power.natAbs

end Decimal

def Layout.magnitudeText (l : Layout) (m : Magnitude) : String :=
  if m.mantissa = 0 then
    if l.pointZero then "0.0" else "0"
  else
    let d := shortest l.tie m
    let plain := match l.positional with
      | none => true
      | some (low, high) => decide (low < d.place) && decide (d.place ≤ high)
    if plain then d.positionalText l.pointZero else d.scientificText l.plusSign

def Layout.text (l : Layout) (x : Float) : String :=
  match classify x with
  | .nan => l.nan
  | .infinite negative => (if negative then "-" else "") ++ l.infinity
  | .finite negative size => (if negative then "-" else "") ++ l.magnitudeText size

/-- The whole number that a magnitude is, if it is one. -/
def Magnitude.whole? (m : Magnitude) : Option Nat :=
  if m.isIntegral then some (m.num / m.den) else none

/-- The format of number literals in dumps and printed trees: a whole number in full with `.0`,
any other by its shortest decimal. -/
def literalText (x : Float) : String :=
  match classify x with
  | .nan => "NaN"
  | .infinite negative => if negative then "-inf" else "inf"
  | .finite negative size =>
    (if negative then "-" else "") ++
      match size.whole? with
      | some n => Nat.repr n ++ ".0"
      | none => (shortest .up size).positionalText false

/-- The 16 hexadecimal digits of the bit pattern. -/
def bitsText (x : Float) : String :=
  let digits := String.ofList (Nat.toDigits 16 x.toBits.toNat)
  zeros (16 - digits.length) ++ digits

end Lox.Number
