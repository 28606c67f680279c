import Lox.Number.Magnitude

/-!
# Shortest decimals

The decimal with the fewest digits that lies closer to a magnitude than to any other, and among
those of that length the nearest one. All arithmetic is exact.
-/

set_option autoImplicit false

namespace Lox.Number

structure Decimal where
  digits : Nat
  exponent : Int
  deriving DecidableEq, Repr

/-- Which neighbour a value exactly halfway between two decimals takes. -/
inductive Tie where
  | up
  | even
  deriving DecidableEq, Repr

def digitCount (n : Nat) : Nat :=
  if n = 0 then 0 else (Nat.toDigits 10 n).length

/-- The place `p` with `10 ^ (p - 1) ≤ num / den < 10 ^ p`. -/
def leadingPlace (num den : Nat) : Int :=
  if den ≤ num then digitCount (num / den)
  else 1 - (digitCount ((den - 1) / num) : Int)

def scale (num den : Nat) (places : Int) : Nat × Nat :=
  (num * Nat.pow 10 places.toNat, den * Nat.pow 10 (-places).toNat)

/-- Whether `candidate * 10 ^ (-places)` reads back as `m`: it lies between the halfway points
to the two neighbouring doubles, which themselves belong to an even mantissa. -/
def readsBack (m : Magnitude) (places : Int) (candidate : Nat) : Bool :=
  let (num, den) := scale m.num m.den places
  -- Four quarter steps of the double are `num / m.mantissa`.
  let low := num * (4 * m.mantissa - (if m.isNarrowBelow then 1 else 2))
  let high := num * (4 * m.mantissa + 2)
  let here := candidate * den * (4 * m.mantissa)
  if m.mantissa % 2 = 0 then decide (low ≤ here) && decide (here ≤ high)
  else decide (low < here) && decide (here < high)

def withDigits? (tie : Tie) (m : Magnitude) (count : Nat) : Option Decimal :=
  let places : Int := count - leadingPlace m.num m.den
  let (num, den) := scale m.num m.den places
  let below := num / den
  let rest := num % den
  let above := below + 1
  let nearerAbove := match tie with
    | .up => decide (den ≤ 2 * rest)
    | .even => decide (den < 2 * rest) || (decide (den = 2 * rest) && decide (below % 2 = 1))
  let pick? := match readsBack m places below, readsBack m places above with
    | true, true => some (if nearerAbove then above else below)
    | true, false => some below
    | false, true => some above
    | false, false => none
  pick?.map fun digits => ⟨digits, -places⟩

def Decimal.dropZeros : Nat → Decimal → Decimal
  | 0, d => d
  | fuel + 1, d =>
    if d.digits % 10 = 0 then Decimal.dropZeros fuel ⟨d.digits / 10, d.exponent + 1⟩ else d

def shortest (tie : Tie) (m : Magnitude) : Decimal :=
  -- Seventeen digits always suffice.
  let found := (List.range 17).findSome? fun i => withDigits? tie m (i + 1)
  (found.getD ⟨0, 0⟩).dropZeros 17

end Lox.Number
