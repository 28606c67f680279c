import Lox.Number.Shortest
import Lox.Proofs.Number.Rounding

/-!
# Shortest decimals read back

A decimal that is tried for a magnitude is accepted if it lies between the magnitude's halfway
points. With seventeen digits one is always accepted: the unit of the last digit is smaller than
the gap between doubles, so the decimal nearest to a double is nearer to it than its halfway
points. Hence the search for a shortest decimal ends with one that reads back.
-/

set_option autoImplicit false

namespace Lox.Number

namespace Magnitude

theorem den_pos (m : Magnitude) : 0 < m.den := Nat.two_pow_pos _

theorem num_div_den (m : Magnitude) : (m.num / m.den : ℚ) = m.value := by
  simp only [num, den, value, gap, natPow_eq]
  generalize 1074 = bias
  push_cast
  rw [mul_div_assoc]
  congr 1
  rw [div_eq_div_iff (by positivity) (by positivity), ← pow_add, ← pow_add]
  congr 1
  omega

theorem num_pos {m : Magnitude} (hpos : 0 < m.mantissa) : 0 < m.num :=
  Nat.mul_pos hpos (Nat.two_pow_pos _)

end Magnitude

open Magnitude

/-! ## Candidates -/

/-- The value of a decimal. -/
def Decimal.value (d : Decimal) : ℚ := d.digits * 10 ^ d.exponent

theorem pow_div_pow (p : Int) : (10 ^ p.toNat / 10 ^ (-p).toNat : ℚ) = 10 ^ p := by
  rcases Int.le_total 0 p with h | h
  · lift p to ℕ using h
    simp
  · obtain ⟨n, rfl⟩ := Int.exists_eq_neg_ofNat h
    simp

theorem scale_div (num den : Nat) (places : Int) :
    ((scale num den places).1 / (scale num den places).2 : ℚ) = num / den * 10 ^ places := by
  simp only [scale, natPow_eq]
  push_cast
  rw [mul_div_mul_comm, pow_div_pow]

theorem scale_pos {den : Nat} (hden : 0 < den) (num : Nat) (places : Int) :
    0 < (scale num den places).2 :=
  Nat.mul_pos hden (Nat.pow_pos (by decide))

theorem readsBack_iff {m : Magnitude} (hpos : 0 < m.mantissa) (places : Int) (candidate : Nat) :
    readsBack m places candidate = true ↔ m.Holds (candidate * 10 ^ (-places)) := by
  have hscale := scale_div m.num m.den places
  have hden := scale_pos m.den_pos m.num places
  unfold readsBack
  generalize scale m.num m.den places = scaled at hscale hden ⊢
  obtain ⟨num, den⟩ := scaled
  dsimp only at hscale hden ⊢
  have hden' : (0 : ℚ) < den := Nat.cast_pos.2 hden
  have hpos' : (0 : ℚ) < m.mantissa := Nat.cast_pos.2 hpos
  rw [m.num_div_den, value, div_eq_iff hden'.ne'] at hscale
  -- Both sides times this are whole numbers.
  have hfactor : (0 : ℚ) < 4 * m.mantissa * (10 ^ places * den) := by positivity
  have hhere : (candidate * 10 ^ (-places) * (4 * m.mantissa * (10 ^ places * den)) : ℚ) =
      (candidate * den * (4 * m.mantissa) : Nat) := by
    rw [zpow_neg]
    push_cast
    field_simp
  have hquarters (n : Nat) : (n / 4 * m.gap * (4 * m.mantissa * (10 ^ places * den)) : ℚ) =
      (num * n : Nat) := by
    push_cast
    rw [hscale]
    ring
  have hle (n : Nat) : (n / 4 * m.gap : ℚ) ≤ candidate * 10 ^ (-places) ↔
      num * n ≤ candidate * den * (4 * m.mantissa) := by
    rw [← mul_le_mul_iff_left₀ hfactor, hquarters, hhere, Nat.cast_le]
  have hge (n : Nat) : (candidate * 10 ^ (-places) : ℚ) ≤ n / 4 * m.gap ↔
      candidate * den * (4 * m.mantissa) ≤ num * n := by
    rw [← mul_le_mul_iff_left₀ hfactor, hquarters, hhere, Nat.cast_le]
  have hholds : m.Holds (candidate * 10 ^ (-places)) ↔
      (num * m.lowest ≤ candidate * den * (4 * m.mantissa) ∧
        candidate * den * (4 * m.mantissa) ≤ num * m.highest) ∧
      (m.mantissa % 2 = 1 → num * m.lowest < candidate * den * (4 * m.mantissa) ∧
        candidate * den * (4 * m.mantissa) < num * m.highest) := by
    rw [← hle, ← hge, ← not_le, ← not_le, ← hge, ← hle, not_le, not_le]
    exact ⟨fun ⟨hlow, hhigh, hodd⟩ => ⟨⟨hlow, hhigh⟩, hodd⟩,
      fun ⟨⟨hlow, hhigh⟩, hodd⟩ => ⟨hlow, hhigh, hodd⟩⟩
  rw [hholds]
  unfold lowest highest
  split
  · rename_i heven
    simp [heven]
  · rename_i hodd
    have hone : m.mantissa % 2 = 1 := by omega
    simp only [Bool.and_eq_true, decide_eq_true_eq, hone, forall_const]
    omega

/-! ## Seventeen digits -/

theorem digitCount_bounds {n : Nat} (h : 0 < n) :
    10 ^ (digitCount n - 1) ≤ n ∧ n < 10 ^ digitCount n ∧ 0 < digitCount n := by
  unfold digitCount
  rw [if_neg (by omega)]
  have hlength := @Nat.length_toDigits_pos 10 n
  refine ⟨?_, (Nat.length_toDigits_le_iff (by decide) hlength).1 le_rfl, hlength⟩
  by_contra hlt
  rw [not_le] at hlt
  rcases Nat.eq_zero_or_pos ((Nat.toDigits 10 n).length - 1) with hzero | hone
  · rw [hzero] at hlt
    omega
  · have := (Nat.length_toDigits_le_iff (by decide) hone).2 hlt
    omega

theorem pow_leadingPlace_le {num den : Nat} (hnum : 0 < num) (hden : 0 < den) :
    (10 ^ (leadingPlace num den - 1) : ℚ) ≤ num / den := by
  have hden' : (0 : ℚ) < den := Nat.cast_pos.2 hden
  unfold leadingPlace
  rw [le_div_iff₀ hden']
  split
  · rename_i hle
    obtain ⟨hlow, -, hcount⟩ := digitCount_bounds (Nat.div_pos hle hden)
    have hplace : (digitCount (num / den) : Int) - 1 = (digitCount (num / den) - 1 : Nat) := by
      omega
    rw [hplace, zpow_natCast]
    exact_mod_cast (Nat.le_div_iff_mul_le hden).1 hlow
  · rename_i hlt
    obtain ⟨-, hhigh, -⟩ := digitCount_bounds (Nat.div_pos (show num ≤ den - 1 by omega) hnum)
    generalize digitCount ((den - 1) / num) = count at *
    have hmul := (Nat.div_lt_iff_lt_mul hnum).1 hhigh
    have hplace : (1 - count - 1 : Int) = -count := by omega
    rw [hplace, zpow_neg, zpow_natCast, inv_mul_le_iff₀ (by positivity)]
    exact_mod_cast (by omega : den ≤ 10 ^ count * num)

/-- With seventeen digits, a decimal within half a unit of a magnitude reads back. -/
theorem holds_of_close {m : Magnitude} (hm : m.Canonical) (hpos : 0 < m.mantissa) {places : Int}
    {candidate : Nat} (hlarge : 10 ^ 16 ≤ m.value * 10 ^ places)
    (hclose : |(candidate : ℚ) - m.value * 10 ^ places| ≤ 1 / 2) :
    m.Holds (candidate * 10 ^ (-places)) := by
  have hlt : (m.mantissa : ℚ) < 2 ^ 53 := by exact_mod_cast hm.lt
  have hten : (0 : ℚ) < 10 ^ places := by positivity
  obtain ⟨hbelow, habove⟩ := abs_le.1 hclose
  rw [value] at hlarge hbelow habove
  rw [zpow_neg, ← div_eq_mul_inv]
  -- A unit of the decimal is smaller than the gap.
  have hgap : 1 < m.gap * 10 ^ places := by
    by_contra hle
    rw [not_lt] at hle
    nlinarith [mul_le_mul_of_nonneg_left hle (@Nat.cast_nonneg ℚ _ _ _ m.mantissa)]
  have hhigh : candidate / 10 ^ places < m.highest / 4 * m.gap := by
    rw [div_lt_iff₀ hten, highest]
    push_cast
    linarith
  have hlow : m.lowest / 4 * m.gap < candidate / 10 ^ places := by
    rw [lt_div_iff₀ hten, lowest]
    split
    · rename_i hnarrow
      have hmantissa : m.mantissa = 2 ^ 52 := by
        rw [isNarrowBelow, Bool.and_eq_true, beq_iff_eq] at hnarrow
        exact hnarrow.1
      rw [hmantissa] at hlarge hbelow ⊢
      push_cast at hlarge hbelow ⊢
      linarith
    · rw [Nat.cast_sub (by omega)]
      push_cast
      linarith
  exact ⟨hlow.le, hhigh.le, fun _ => ⟨hlow, hhigh⟩⟩

theorem holds_of_withDigits? {tie : Tie} {m : Magnitude} {count : Nat} {d : Decimal}
    (hpos : 0 < m.mantissa) (h : withDigits? tie m count = some d) : m.Holds d.value := by
  unfold withDigits? at h
  dsimp only at h
  obtain ⟨digits, hdigits, rfl⟩ := Option.map_eq_some_iff.1 h
  rw [Decimal.value, ← readsBack_iff hpos]
  split at hdigits
  · rename_i hbelow habove
    rw [← Option.some.inj hdigits]
    split_ifs
    · exact habove
    · exact hbelow
  · rename_i hbelow habove
    obtain rfl := Option.some.inj hdigits
    exact hbelow
  · rename_i hbelow habove
    obtain rfl := Option.some.inj hdigits
    exact habove
  · cases hdigits

/-- Of the two decimals next to a double, the nearer one is accepted. -/
theorem withDigits?_seventeen (tie : Tie) {m : Magnitude} (hm : m.Canonical)
    (hpos : 0 < m.mantissa) : (withDigits? tie m 17).isSome = true := by
  have hplace := pow_leadingPlace_le (num_pos hpos) m.den_pos
  unfold withDigits?
  generalize leadingPlace m.num m.den = place at hplace ⊢
  dsimp only
  have hden := scale_pos m.den_pos m.num ((17 : Nat) - place)
  have hscale := scale_div m.num m.den ((17 : Nat) - place)
  rw [m.num_div_den] at hscale hplace
  have hlarge : 10 ^ 16 ≤ m.value * 10 ^ ((17 : Nat) - place : Int) := by
    calc (10 ^ 16 : ℚ) = 10 ^ (place - 1) * 10 ^ ((17 : Nat) - place : Int) := by
          rw [← zpow_add₀ (by norm_num)]
          norm_num
      _ ≤ m.value * 10 ^ ((17 : Nat) - place : Int) :=
          mul_le_mul_of_nonneg_right hplace (by positivity)
  generalize ((17 : Nat) - place : Int) = places at *
  generalize hscaled : scale m.num m.den places = scaled at *
  obtain ⟨num, den⟩ := scaled
  dsimp only at hden hscale ⊢
  have hden' : (0 : ℚ) < den := Nat.cast_pos.2 hden
  have hrest := Nat.mod_lt num hden
  have hsplit : m.value * 10 ^ places = (num / den : Nat) + (num % den : Nat) / den := by
    rw [← hscale, eq_comm, ← (@Nat.cast_inj ℚ _ _ _ _).2 (Nat.div_add_mod' num den)]
    push_cast
    field_simp
  generalize num / den = below at *
  generalize num % den = rest at *
  have hreads : readsBack m places below = true ∨ readsBack m places (below + 1) = true := by
    rw [readsBack_iff hpos, readsBack_iff hpos]
    rcases Nat.le_total (2 * rest) den with hle | hle
    · have hhalf : (rest / den : ℚ) ≤ 1 / 2 := by
        rw [div_le_div_iff₀ hden' (by norm_num)]
        exact_mod_cast (by omega : rest * 2 ≤ 1 * den)
      have hnonneg : (0 : ℚ) ≤ rest / den := by positivity
      exact .inl (holds_of_close hm hpos hlarge (abs_le.2 ⟨by linarith, by linarith⟩))
    · have hhalf : (1 / 2 : ℚ) ≤ rest / den := by
        rw [div_le_div_iff₀ (by norm_num) hden']
        exact_mod_cast (by omega : 1 * den ≤ rest * 2)
      have hone : (rest / den : ℚ) < 1 := by
        rw [div_lt_one hden']
        exact_mod_cast hrest
      refine .inr (holds_of_close hm hpos hlarge (abs_le.2 ?_))
      push_cast
      exact ⟨by linarith, by linarith⟩
  rcases hreads with h | h
  · rw [h]
    cases readsBack m places (below + 1) <;> rfl
  · rw [h]
    cases readsBack m places below <;> rfl

theorem value_dropZeros (fuel : Nat) (d : Decimal) : (d.dropZeros fuel).value = d.value := by
  induction fuel generalizing d with
  | zero => rfl
  | succ fuel ih =>
    rw [Decimal.dropZeros]
    split
    · rename_i hzero
      rw [ih, Decimal.value, Decimal.value]
      have hdigits : (d.digits : ℚ) = (d.digits / 10 : Nat) * 10 := by
        exact_mod_cast (Nat.div_mul_cancel (Nat.dvd_of_mod_eq_zero hzero)).symm
      rw [zpow_add_one₀ (by norm_num), hdigits]
      ring
    · rfl

/-- The shortest decimal of a double lies between its halfway points. -/
theorem holds_shortest (tie : Tie) {m : Magnitude} (hm : m.Canonical) (hpos : 0 < m.mantissa) :
    m.Holds (shortest tie m).value := by
  unfold shortest
  dsimp only
  rw [value_dropZeros]
  cases hfound : (List.range 17).findSome? fun i => withDigits? tie m (i + 1) with
  | none =>
    have hnone := List.findSome?_eq_none_iff.1 hfound 16 (by simp)
    have hsome := withDigits?_seventeen tie hm hpos
    rw [hnone] at hsome
    cases hsome
  | some d =>
    obtain ⟨i, -, hi⟩ := List.exists_of_findSome?_eq_some hfound
    exact holds_of_withDigits? hpos hi

end Lox.Number
