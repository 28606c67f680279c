import Lox.Proofs.Number.Bits

/-!
# The nearest double

The numbers that are read as a double lie between the halfway points to its neighbours. The gap
below a power of two is half the gap above it, so halfway points are counted in quarters of the
larger gap. A halfway point itself is read as the neighbour with an even mantissa.
-/

set_option autoImplicit false

namespace Lox.Number

/-- A whole number within half of the quotient is what it is rounded to; one exactly half away has
to be even. -/
theorem roundHalfEven_eq {num den r : Nat} (hden : 0 < den) (hlow : 2 * (r * den) ≤ 2 * num + den)
    (hhigh : 2 * num ≤ 2 * (r * den) + den)
    (hodd : r % 2 = 1 → 2 * (r * den) < 2 * num + den ∧ 2 * num < 2 * (r * den) + den) :
    roundHalfEven num den = r := by
  have hsplit := Nat.div_add_mod' num den
  have hrest := Nat.mod_lt num hden
  unfold roundHalfEven
  dsimp only
  generalize num / den = q at *
  generalize num % den = rest at *
  -- The whole number is the quotient or the one above it.
  have hq : q < r + 1 := by
    by_contra hlt
    have hmul : (r + 1) * den ≤ q * den := Nat.mul_le_mul_right den (by omega)
    rw [Nat.add_mul] at hmul
    omega
  have hr : r < q + 2 := by
    by_contra hlt
    have hmul : (q + 2) * den ≤ r * den := Nat.mul_le_mul_right den (by omega)
    rw [Nat.add_mul] at hmul
    omega
  obtain rfl | rfl : r = q ∨ r = q + 1 := by omega
  · rw [if_neg (by omega)]
  · rw [Nat.add_mul] at hlow hhigh hodd
    rw [if_pos (by omega)]

/-- The shift that brings the leading bit of a quotient to the top of a mantissa. -/
theorem shift_eq {steps den k : Nat} (hden : 0 < den)
    (hlow : k = 0 ∨ 2 ^ 52 * (den * 2 ^ k) ≤ steps) (hhigh : steps < 2 ^ 53 * (den * 2 ^ k)) :
    Nat.log2 (steps / den) - 52 = k := by
  have hlt : steps / den < 2 ^ (53 + k) := by
    rw [Nat.div_lt_iff_lt_mul hden, Nat.pow_add]
    linarith
  have hlog : Nat.log2 (steps / den) < 53 + k := by
    by_cases hzero : steps / den = 0
    · simp [hzero]
    · exact (Nat.log2_lt hzero).2 hlt
  rcases hlow with rfl | hlow
  · omega
  · have hle : 2 ^ (52 + k) ≤ steps / den := by
      rw [Nat.le_div_iff_mul_le hden, Nat.pow_add]
      linarith
    have hpos : 0 < 2 ^ (52 + k) := Nat.two_pow_pos (52 + k)
    have hlog' := (Nat.le_log2 (by omega)).2 hle
    omega

namespace Magnitude

/-- The distance to the next larger double. -/
def gap (m : Magnitude) : ℚ := 2 ^ m.shift / 2 ^ 1074

def value (m : Magnitude) : ℚ := m.mantissa * m.gap

/-- The quarters of the gap from zero to the halfway point below a magnitude. -/
def lowest (m : Magnitude) : Nat :=
  4 * m.mantissa - (if m.isNarrowBelow then 1 else 2)

/-- The quarters of the gap from zero to the halfway point above a magnitude. -/
def highest (m : Magnitude) : Nat :=
  4 * m.mantissa + 2

/-- A number lies between the halfway points, which themselves belong to an even mantissa. -/
structure Holds (m : Magnitude) (q : ℚ) : Prop where
  low : m.lowest / 4 * m.gap ≤ q
  high : q ≤ m.highest / 4 * m.gap
  odd : m.mantissa % 2 = 1 → m.lowest / 4 * m.gap < q ∧ q < m.highest / 4 * m.gap

theorem gap_pos (m : Magnitude) : 0 < m.gap := by
  unfold gap
  generalize 1074 = bias
  positivity

/-- A double lies between its own halfway points. -/
theorem holds_value (m : Magnitude) : m.Holds m.value := by
  have hgap := m.gap_pos
  have hlow : (m.lowest : ℚ) ≤ 4 * m.mantissa := by
    exact_mod_cast Nat.sub_le (4 * m.mantissa) (if m.isNarrowBelow then 1 else 2)
  have hhigh : (m.highest : ℚ) = 4 * m.mantissa + 2 := by
    rw [highest]
    push_cast
    rfl
  refine ⟨?_, ?_, fun hodd => ⟨?_, ?_⟩⟩
  · exact mul_le_mul_of_nonneg_right (by linarith) hgap.le
  · exact mul_le_mul_of_nonneg_right (by linarith) hgap.le
  · have hlow' : (m.lowest : ℚ) < 4 * m.mantissa := by
      have hlt : m.lowest < 4 * m.mantissa := by
        rw [lowest]
        split <;> omega
      exact_mod_cast hlt
    exact mul_lt_mul_of_pos_right (by linarith) hgap
  · exact mul_lt_mul_of_pos_right (by linarith) hgap

section Fractions
variable {m : Magnitude} {num den : Nat}

theorem quarters_le_iff (quarters : Nat) (hden : 0 < den) :
    quarters / 4 * m.gap ≤ (num / den : ℚ) ↔
      quarters * (den * 2 ^ m.shift) ≤ 4 * (num * 2 ^ 1074) := by
  have hden' : (0 : ℚ) < den := Nat.cast_pos.2 hden
  rw [gap]
  generalize 1074 = bias
  rw [← mul_div_assoc, div_le_div_iff₀ (by positivity) hden', ← @Nat.cast_le ℚ]
  push_cast
  constructor <;> intro h <;> linarith

theorem le_quarters_iff (quarters : Nat) (hden : 0 < den) :
    (num / den : ℚ) ≤ quarters / 4 * m.gap ↔
      4 * (num * 2 ^ 1074) ≤ quarters * (den * 2 ^ m.shift) := by
  have hden' : (0 : ℚ) < den := Nat.cast_pos.2 hden
  rw [gap]
  generalize 1074 = bias
  rw [← mul_div_assoc, div_le_div_iff₀ hden' (by positivity), ← @Nat.cast_le ℚ]
  push_cast
  constructor <;> intro h <;> linarith

/-- The halfway points on a common denominator. -/
theorem holds_iff (hden : 0 < den) : m.Holds (num / den) ↔
    (m.lowest * (den * 2 ^ m.shift) ≤ 4 * (num * 2 ^ 1074) ∧
      4 * (num * 2 ^ 1074) ≤ m.highest * (den * 2 ^ m.shift)) ∧
    (m.mantissa % 2 = 1 → m.lowest * (den * 2 ^ m.shift) < 4 * (num * 2 ^ 1074) ∧
      4 * (num * 2 ^ 1074) < m.highest * (den * 2 ^ m.shift)) := by
  rw [← quarters_le_iff _ hden, ← le_quarters_iff _ hden, ← not_le, ← not_le,
    ← quarters_le_iff _ hden, ← le_quarters_iff _ hden, not_le, not_le]
  exact ⟨fun ⟨hlow, hhigh, hodd⟩ => ⟨⟨hlow, hhigh⟩, hodd⟩,
    fun ⟨⟨hlow, hhigh⟩, hodd⟩ => ⟨hlow, hhigh, hodd⟩⟩

/-- The double nearest to a fraction between the halfway points of a magnitude is that magnitude. -/
theorem toBits_nearest (hm : m.Canonical) (hden : 0 < den) (h : m.Holds (num / den)) :
    (nearest num den).toBits = m.toBits := by
  obtain ⟨⟨hlow, hhigh⟩, hodd⟩ := (holds_iff hden).1 h
  unfold nearest
  simp only [natPow_eq]
  generalize num * 2 ^ 1074 = steps at *
  obtain ⟨a, s⟩ := m
  obtain ⟨hlt, hle, -⟩ := hm
  simp only [lowest, highest, Nat.sub_mul, Nat.add_mul, Nat.mul_assoc 4] at hlow hhigh hodd
  dsimp only at hlt hle hlow hhigh hodd ⊢
  have hunit : 0 < den * 2 ^ s := Nat.mul_pos hden (Nat.two_pow_pos s)
  have hbound : a * (den * 2 ^ s) ≤ (2 ^ 53 - 1) * (den * 2 ^ s) :=
    Nat.mul_le_mul_right _ (by omega)
  have hquarters : (if isNarrowBelow ⟨a, s⟩ then 1 else 2) * (den * 2 ^ s) ≤
      2 * (den * 2 ^ s) :=
    Nat.mul_le_mul_right _ (by split <;> omega)
  by_cases hplace : s = 0 ∨ 2 ^ 52 * (den * 2 ^ s) ≤ steps
  · -- The fraction has its leading bit where the magnitude has it.
    have hshift : Nat.log2 (steps / den) - 52 = s := shift_eq hden hplace (by omega)
    have hround : roundHalfEven steps (den * 2 ^ s) = a :=
      roundHalfEven_eq hunit (by omega) (by omega) (by omega)
    rw [hshift, hround]
  · -- The magnitude is a power of two, and the fraction is just below it.
    obtain ⟨hs, hbelow⟩ := not_or.1 hplace
    obtain rfl : a = 2 ^ 52 := by
      have hnormal := hle.resolve_left hs
      by_contra hne
      have hmore : (2 ^ 52 + 1) * (den * 2 ^ s) ≤ a * (den * 2 ^ s) :=
        Nat.mul_le_mul_right _ (by omega)
      omega
    obtain ⟨k, rfl⟩ := Nat.exists_eq_add_one_of_ne_zero hs
    rw [if_pos (by rfl)] at hlow
    have hdouble : den * 2 ^ (k + 1) = 2 * (den * 2 ^ k) := by ring
    rw [hdouble] at hlow hhigh hbelow hunit
    have hshift : Nat.log2 (steps / den) - 52 = k := shift_eq hden (by omega) (by omega)
    have hround : roundHalfEven steps (den * 2 ^ k) = 2 ^ 53 :=
      roundHalfEven_eq (by omega) (by omega) (by omega) (by omega)
    rw [hshift, hround]
    simp only [toBits, natPow_eq]
    omega

end Fractions

end Magnitude

end Lox.Number
