/-!
# Magnitudes of doubles

A finite double without its sign is a whole number of steps of `2 ^ -1074`. This module holds
that view, its bit pattern, and the double nearest to a fraction. It writes and reads no text.
-/

set_option autoImplicit false

namespace Lox.Number

/-- The size of a finite double: `mantissa * 2 ^ shift` steps of `2 ^ -1074`. -/
structure Magnitude where
  mantissa : Nat
  shift : Nat
  deriving DecidableEq, Repr

def infinityBits : Nat := 2047 * Nat.pow 2 52

namespace Magnitude

def ofBits (bits : Nat) : Magnitude :=
  if bits / Nat.pow 2 52 = 0 then ⟨bits % Nat.pow 2 52, 0⟩
  else ⟨bits % Nat.pow 2 52 + Nat.pow 2 52, bits / Nat.pow 2 52 - 1⟩

def toBits (m : Magnitude) : Nat :=
  -- A mantissa of `2 ^ 52` or more spills one into the exponent field, which is the field's own
  -- offset by one, so subnormal and normal doubles share this sum.
  m.shift * Nat.pow 2 52 + m.mantissa

def num (m : Magnitude) : Nat :=
  m.mantissa * Nat.pow 2 (m.shift - 1074)

def den (m : Magnitude) : Nat :=
  Nat.pow 2 (1074 - m.shift)

def isIntegral (m : Magnitude) : Bool :=
  m.num % m.den == 0

/-- The gap to the next smaller double is half the gap to the next larger one. -/
def isNarrowBelow (m : Magnitude) : Bool :=
  m.mantissa == Nat.pow 2 52 && m.shift != 0

end Magnitude

def roundHalfEven (num den : Nat) : Nat :=
  let q := num / den
  let r := num % den
  if 2 * r > den ∨ (2 * r = den ∧ q % 2 = 1) then q + 1 else q

/-- The magnitude nearest to `num / den`, a half going to the even mantissa. Its bit pattern
reaches `infinityBits` when the fraction is too large for a double. -/
def nearest (num den : Nat) : Magnitude :=
  let steps := num * Nat.pow 2 1074
  let shift := Nat.log2 (steps / den) - 52
  ⟨roundHalfEven steps (den * Nat.pow 2 shift), shift⟩

def ofMagnitude (m : Magnitude) : Float :=
  Float.ofBits (UInt64.ofNat (min m.toBits infinityBits))

inductive Class where
  | nan
  | infinite (negative : Bool)
  | finite (negative : Bool) (size : Magnitude)
  deriving DecidableEq, Repr

def classify (x : Float) : Class :=
  let bits := x.toBits.toNat
  let negative := bits / Nat.pow 2 63 == 1
  let size := bits % Nat.pow 2 63
  if size > infinityBits then .nan
  else if size = infinityBits then .infinite negative
  else .finite negative (.ofBits size)

end Lox.Number
