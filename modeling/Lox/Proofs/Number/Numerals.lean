import Lox.Number.Reader
import Lox.Proofs.Number.Shortest
import Lox.Value.Display

/-!
# Written numbers

A numeral is a row of digits, or two rows with a point in between, and stands for a number. The
text that is written for a finite double is a numeral with a minus sign before it if the double
is negative, and the numeral reads back as the double's magnitude. This holds of the text of values
and of the text of literals.
-/

set_option autoImplicit false

namespace Lox.Number

open Magnitude

/-! ## Digits -/

theorem foldl_digits (n : Nat) (cs : List Char) :
    cs.foldl (fun n c => 10 * n + digitValue c) n = n * 10 ^ cs.length + ofDigits cs := by
  unfold ofDigits
  induction cs generalizing n with
  | nil => simp
  | cons c cs ih =>
    rw [List.foldl_cons, ih, List.foldl_cons, ih (10 * 0 + digitValue c), List.length_cons]
    ring

theorem ofDigits_append (xs ys : List Char) :
    ofDigits (xs ++ ys) = ofDigits xs * 10 ^ ys.length + ofDigits ys := by
  rw [ofDigits, List.foldl_append, foldl_digits]
  rfl

theorem ofDigits_zeros (n : Nat) : ofDigits (List.replicate n '0') = 0 := by
  induction n with
  | zero => rfl
  | succ n ih =>
    rw [List.replicate_succ', ofDigits_append, ih]
    rfl

theorem ofDigits_toDigits (n : Nat) : ofDigits (Nat.toDigits 10 n) = n := by
  induction n using Nat.strongRecOn with
  | ind n ih =>
    rcases Nat.lt_or_ge n 10 with hlt | hge
    · rw [Nat.toDigits_of_lt_base hlt]
      simpa [ofDigits, digitValue] using Nat.toNat_digitChar_sub_48_of_lt_ten hlt
    · rw [Nat.toDigits_of_base_le (by decide) hge, ofDigits_append, ih (n / 10) (by omega)]
      have hlast := Nat.toNat_digitChar_sub_48_of_lt_ten (Nat.mod_lt n (by decide : 10 > 0))
      simp only [ofDigits, digitValue, List.foldl_cons, List.foldl_nil, List.length_singleton,
        Char.reduceToNat, hlast]
      omega

/-! ## Numerals -/

/-- A row of digits, or two with a point in between, and the number that it stands for. -/
inductive Numeral : List Char → ℚ → Prop where
  | whole {digits : List Char} (hne : digits ≠ []) (hdigits : ∀ d ∈ digits, d.isDigit = true) :
      Numeral digits (ofDigits digits)
  | fraction {digits more : List Char} (hne : digits ≠ []) (hmore : more ≠ [])
      (hdigits : ∀ d ∈ digits ++ more, d.isDigit = true) :
      Numeral (digits ++ '.' :: more) (ofDigits (digits ++ more) / 10 ^ more.length)

theorem takeWhile_digits {digits rest : List Char} (h : ∀ d ∈ digits, d.isDigit = true)
    (hrest : ∀ d ∈ rest.head?, d.isDigit = false) :
    (digits ++ rest).takeWhile Char.isDigit = digits ∧
      (digits ++ rest).dropWhile Char.isDigit = rest := by
  rw [List.takeWhile_append_of_pos h, List.dropWhile_append_of_pos h]
  cases rest with
  | nil => simp
  | cons c rest =>
    have hc := hrest c rfl
    simp [hc]

theorem isDigit_repr (n : Nat) : ∀ d ∈ n.repr.toList, d.isDigit = true := by
  intro d hd
  rw [Nat.toList_repr] at hd
  exact Nat.isDigit_of_mem_toDigits (by decide) (by decide) hd

theorem repr_ne_nil (n : Nat) : n.repr.toList ≠ [] := by
  rw [Nat.toList_repr]
  exact Nat.toDigits_ne_nil

theorem ofDigits_repr (n : Nat) : ofDigits n.repr.toList = n := by
  rw [Nat.toList_repr, ofDigits_toDigits]

theorem toList_zeros (n : Nat) : (zeros n).toList = List.replicate n '0' := by
  simp [zeros]

theorem isDigit_zeros (n : Nat) : ∀ d ∈ List.replicate n '0', d.isDigit = true := by
  intro d hd
  rw [List.eq_of_mem_replicate hd]
  rfl

theorem numeral_repr (n : Nat) : Numeral n.repr.toList n := by
  have h := Numeral.whole (repr_ne_nil n) (isDigit_repr n)
  rwa [ofDigits_repr] at h

theorem numeral_positionalText (d : Decimal) :
    Numeral (d.positionalText false).toList d.value := by
  obtain ⟨n, e⟩ := d
  unfold Decimal.positionalText Decimal.value
  dsimp only
  rcases Int.le_total 0 e with he | he
  · obtain ⟨k, rfl⟩ := Int.eq_ofNat_of_zero_le he
    have h := @Numeral.whole (n.repr.toList ++ List.replicate k '0') (by simp) fun c hc =>
      (List.mem_append.1 hc).elim (isDigit_repr n c) (isDigit_zeros k c)
    rw [ofDigits_append, ofDigits_repr, ofDigits_zeros] at h
    simpa [toList_zeros] using h
  · obtain ⟨k, rfl⟩ := Int.exists_eq_neg_ofNat he
    have hvalue : (n * 10 ^ (-(k : Int)) : ℚ) = n / 10 ^ k := by
      rw [zpow_neg, zpow_natCast, div_eq_mul_inv]
    have hlength : n.repr.toList.length = n.repr.length := n.repr.length_toList
    rw [hvalue, Int.neg_neg, Int.toNat_natCast]
    split
    · rename_i hzero
      subst hzero
      simpa [zeros] using numeral_repr n
    split
    · rename_i hzero hlt
      have h := @Numeral.fraction (n.repr.toList.take (n.repr.length - k))
        (n.repr.toList.drop (n.repr.length - k)) ?_ ?_ ?_
      · rw [List.take_append_drop, ofDigits_repr, List.length_drop, hlength,
          Nat.sub_sub_self hlt.le] at h
        simpa using h
      · exact List.ne_nil_of_length_pos (by rw [List.length_take]; omega)
      · exact List.ne_nil_of_length_pos (by rw [List.length_drop]; omega)
      · rw [List.take_append_drop]
        exact isDigit_repr n
    · rename_i hzero hle
      have hzeros : ['0'] ++ (List.replicate (k - n.repr.length) '0' ++ n.repr.toList) =
          List.replicate (k - n.repr.length + 1) '0' ++ n.repr.toList := rfl
      have h := @Numeral.fraction ['0'] (List.replicate (k - n.repr.length) '0' ++ n.repr.toList)
        (by simp) (List.append_ne_nil_of_right_ne_nil _ (repr_ne_nil n)) ?_
      · have hmore : (List.replicate (k - n.repr.length) '0' ++ n.repr.toList).length = k := by
          rw [List.length_append, List.length_replicate]
          omega
        rw [hzeros, ofDigits_append, ofDigits_zeros, Nat.zero_mul, Nat.zero_add, ofDigits_repr,
          hmore] at h
        simpa [toList_zeros] using h
      · rw [hzeros]
        exact fun c hc => (List.mem_append.1 hc).elim (isDigit_zeros _ c) (isDigit_repr n c)

namespace Numeral
variable {cs : List Char} {q : ℚ}

theorem head_isDigit (h : Numeral cs q) : ∃ c rest, cs = c :: rest ∧ c.isDigit = true := by
  cases h with
  | whole hne hdigits =>
    obtain ⟨c, rest, rfl⟩ := List.exists_cons_of_ne_nil hne
    exact ⟨c, rest, rfl, hdigits c (by simp)⟩
  | fraction hne hmore hdigits =>
    obtain ⟨c, rest, rfl⟩ := List.exists_cons_of_ne_nil hne
    exact ⟨c, _, rfl, hdigits c (by simp)⟩

theorem isDigit_or_point (h : Numeral cs q) : ∀ c ∈ cs, c.isDigit = true ∨ c = '.' := by
  intro c hc
  cases h with
  | whole hne hdigits => exact Or.inl (hdigits c hc)
  | fraction hne hmore hdigits =>
    rcases List.mem_append.1 hc with hc | hc
    · exact Or.inl (hdigits c (List.mem_append_left _ hc))
    rcases List.mem_cons.1 hc with rfl | hc
    · exact Or.inr rfl
    · exact Or.inl (hdigits c (List.mem_append_right _ hc))

end Numeral

/-- A numeral between the halfway points of a double is read as that double. -/
theorem Numeral.read_eq {cs : List Char} {q : ℚ} {m : Magnitude} (h : Numeral cs q)
    (hm : m.Canonical) (hq : m.Holds q) : read cs = ofMagnitude m := by
  cases h with
  | whole hne hdigits =>
    obtain ⟨htake, hdrop⟩ := @takeWhile_digits cs [] hdigits (by simp)
    rw [List.append_nil] at htake hdrop
    have hone : (ofDigits cs : ℚ) = ofDigits (cs ++ []) / (Nat.pow 10 0 : Nat) := by
      simp
    rw [hone] at hq
    rw [read, htake, hdrop]
    exact ofMagnitude_congr (toBits_nearest hm (by decide) hq)
  | @fraction digits more hne hmore hdigits =>
    obtain ⟨htake, hdrop⟩ := @takeWhile_digits digits ('.' :: more)
      (fun d hd => hdigits d (List.mem_append_left _ hd)) (by simp)
    have hden : (10 ^ more.length : ℚ) = (Nat.pow 10 more.length : Nat) := by
      rw [natPow_eq]
      push_cast
      rfl
    rw [hden] at hq
    rw [read, htake, hdrop]
    exact ofMagnitude_congr (toBits_nearest hm (Nat.pow_pos (by decide)) hq)

/-! ## Texts of doubles -/

/-- The text of a magnitude: a numeral between its halfway points. -/
def Spells (text : String) (m : Magnitude) : Prop :=
  ∃ q, Numeral text.toList q ∧ m.Holds q

theorem spells_shortest (tie : Tie) {m : Magnitude} (hm : m.Canonical) (hpos : 0 < m.mantissa) :
    Spells ((shortest tie m).positionalText false) m :=
  ⟨_, numeral_positionalText _, holds_shortest tie hm hpos⟩

theorem value_of_whole? {m : Magnitude} {n : Nat} (h : m.whole? = some n) : m.value = n := by
  rw [whole?, isIntegral] at h
  split at h
  · rename_i hwhole
    rw [beq_iff_eq] at hwhole
    have hden : (m.den : ℚ) ≠ 0 := Nat.cast_ne_zero.2 m.den_pos.ne'
    rw [← m.num_div_den, ← Option.some.inj h, div_eq_iff hden]
    exact_mod_cast (Nat.div_mul_cancel (Nat.dvd_of_mod_eq_zero hwhole)).symm
  · cases h

theorem mantissa_pos_of_whole? {m : Magnitude} (h : m.whole? = none) : 0 < m.mantissa := by
  rw [Nat.pos_iff_ne_zero]
  intro hzero
  simp [whole?, isIntegral, num, hzero] at h

/-- The text of a finite value. -/
theorem numberText_spells {x : Float} {negative : Bool} {size : Magnitude}
    (h : classify x = .finite negative size) :
    ∃ body, numberText x = (if negative then "-" else "") ++ body ∧ Spells body size := by
  have hm := (eq_of_classify h).1
  have hprinted (hpos : 0 < size.mantissa) : printedNumber.text x =
      (if negative then "-" else "") ++ (shortest .up size).positionalText false := by
    rw [Layout.text, h]
    dsimp only
    rw [Layout.magnitudeText, if_neg hpos.ne']
    rfl
  unfold numberText
  rw [h]
  dsimp only
  split
  · rename_i n hwhole
    split
    · refine ⟨n.repr, rfl, n, numeral_repr n, ?_⟩
      rw [← value_of_whole? hwhole]
      exact size.holds_value
    · rename_i hbound
      have hpos : 0 < size.mantissa := by
        rw [Nat.pos_iff_ne_zero]
        intro hzero
        have hvalue := value_of_whole? hwhole
        rw [value, hzero, Nat.cast_zero, zero_mul, eq_comm, Nat.cast_eq_zero] at hvalue
        exact hbound (hvalue ▸ Nat.pow_pos (by decide))
      exact ⟨_, hprinted hpos, spells_shortest .up hm hpos⟩
  · rename_i hwhole
    have hpos := mantissa_pos_of_whole? hwhole
    exact ⟨_, hprinted hpos, spells_shortest .up hm hpos⟩

/-- The text of a finite literal. -/
theorem literalText_spells {x : Float} {negative : Bool} {size : Magnitude}
    (h : classify x = .finite negative size) :
    ∃ body, literalText x = (if negative then "-" else "") ++ body ∧ Spells body size := by
  have hm := (eq_of_classify h).1
  unfold literalText
  rw [h]
  dsimp only
  cases hwhole : size.whole? with
  | some n =>
    have hnumeral := @Numeral.fraction n.repr.toList ['0'] (repr_ne_nil n) (by simp) fun d hd =>
      (List.mem_append.1 hd).elim (isDigit_repr n d) (isDigit_zeros 1 d)
    have hvalue : (ofDigits (n.repr.toList ++ ['0']) / 10 ^ ['0'].length : ℚ) = size.value := by
      rw [value_of_whole? hwhole, ofDigits_append, ofDigits_repr]
      simp [ofDigits, digitValue]
    rw [hvalue] at hnumeral
    refine ⟨n.repr ++ ".0", rfl, size.value, ?_, size.holds_value⟩
    rwa [String.toList_append]
  | none => exact ⟨_, rfl, spells_shortest .up hm (mantissa_pos_of_whole? hwhole)⟩

end Lox.Number
