import Lox.Proofs.Number.Numerals
import Lox.Proofs.Token.LongestMatch
import Lox.Session

/-!
# Displayed numbers as source texts

The text that a finite number is displayed as is a numeral, with a minus sign in front of it if the
number is negative. So as a source text it is a single expression, and its value is the number that
was displayed, down to the sign of a zero.
-/

set_option autoImplicit false

namespace Lox

open Piece

/-! ## Numerals as tokens -/

namespace Number.Numeral

variable {cs : List Char} {q : ℚ}

theorem splitNumber_eq (h : Numeral cs q) : splitNumber cs = (cs, []) := by
  cases h with
  | whole hne hdigits =>
    obtain ⟨htake, hdrop⟩ := @takeWhile_digits cs [] hdigits (by simp)
    rw [List.append_nil] at htake hdrop
    rw [splitNumber, htake, hdrop]
  | @fraction digits more hne hmore hdigits =>
    obtain ⟨htake, hdrop⟩ := @takeWhile_digits digits ('.' :: more)
      (fun d hd => hdigits d (List.mem_append_left _ hd)) (by simp)
    obtain ⟨hmoreTake, hmoreDrop⟩ := @takeWhile_digits more []
      (fun d hd => hdigits d (List.mem_append_right _ hd)) (by simp)
    rw [List.append_nil] at hmoreTake hmoreDrop
    obtain ⟨d, more, rfl⟩ := List.exists_cons_of_ne_nil hmore
    have hd : d.isDigit = true := hdigits d (by simp)
    rw [splitNumber, htake, hdrop]
    simp only [hd, hmoreTake, hmoreDrop, if_true]

theorem split_eq (h : Numeral cs q) : split cs = [.token (.number (read cs)) cs] := by
  obtain ⟨c, rest, rfl, hc⟩ := h.head_isDigit
  have hnext : next c rest = (.token (.number (read (c :: rest))) (c :: rest), []) := by
    rw [next_eq, opening_digit hc]
    dsimp only
    rw [h.splitNumber_eq]
  rw [split_cons, hnext, split_nil]

theorem newline_not_mem (h : Numeral cs q) : '\n' ∉ cs := by
  intro hmem
  rcases h.isDigit_or_point '\n' hmem with hdigit | hpoint
  · exact absurd hdigit (by decide)
  · exact absurd hpoint (by decide)

end Number.Numeral

theorem split_minus (cs : List Char) :
    split ('-' :: cs) = .token (.symbol .minus) ['-'] :: split cs :=
  split_cons '-' cs

section
variable {text : String} {q : ℚ} (h : Number.Numeral text.toList q)
include h

theorem scan_numeral : scan text =
    [.token ⟨.number (Number.read text.toList), text, 1⟩, .token ⟨.eof, "", 1⟩] := by
  have hcount := List.count_eq_zero.2 h.newline_not_mem
  rw [scan_eq, h.split_eq, hcount]
  simp [items, item?, hcount]

theorem scan_negative : scan ("-" ++ text) =
    [.token ⟨.symbol .minus, "-", 1⟩, .token ⟨.number (Number.read text.toList), text, 1⟩,
      .token ⟨.eof, "", 1⟩] := by
  have htext : ("-" ++ text).toList = '-' :: text.toList := by simp
  have hcount := List.count_eq_zero.2 h.newline_not_mem
  have hsigned : ('-' :: text.toList).count '\n' = 0 := by
    rw [List.count_cons_of_ne (by decide), hcount]
  rw [scan_eq, htext, hsigned, split_minus, h.split_eq]
  simp [items, item?, newlines, chars, hcount]

end

theorem evaluate_numeral {text : String} {q : ℚ} (h : Number.Numeral text.toList q) (fuel : Nat)
    (s : Session) : Session.evaluate (fuel + 1) text s =
      some (.ok (.number (Number.read text.toList)), s) := by
  have hscan := scan_numeral h
  have htokens : tokens text = [⟨.number (Number.read text.toList), text, 1⟩, ⟨.eof, "", 1⟩] := by
    rw [tokens, hscan]
    rfl
  have hquiet : lexErrors text = [] := by
    rw [lexErrors, hscan]
    rfl
  have hparse : parseExpression text = .ok (.literal (.number (Number.read text.toList)) 1) := by
    rw [parseExpression, htokens, hquiet]
    rfl
  rw [Session.evaluate, hparse]
  cases fuel <;> rfl

theorem evaluate_negative {text : String} {q : ℚ} (h : Number.Numeral text.toList q) (fuel : Nat)
    (s : Session) : Session.evaluate (fuel + 3) ("-" ++ text) s =
      some (.ok (.number (-Number.read text.toList)), s) := by
  have hscan := scan_negative h
  have htokens : tokens ("-" ++ text) = [⟨.symbol .minus, "-", 1⟩,
      ⟨.number (Number.read text.toList), text, 1⟩, ⟨.eof, "", 1⟩] := by
    rw [tokens, hscan]
    rfl
  have hquiet : lexErrors ("-" ++ text) = [] := by
    rw [lexErrors, hscan]
    rfl
  have hparse : parseExpression ("-" ++ text) =
      .ok (.unary .negate (.literal (.number (Number.read text.toList)) 1) 1) := by
    rw [parseExpression, htokens, hquiet]
    rfl
  rw [Session.evaluate, hparse]
  cases fuel <;> rfl

/-! ## Displayed numbers -/

theorem classify_ofBits {bits : UInt64} (hfinite : bits.toNat / 2 ^ 52 % 2 ^ 11 ≠ 2047) :
    (Float.ofBits bits).toBits = bits ∧ ∃ negative size,
      Number.classify (Float.ofBits bits) = .finite negative size := by
  have hinfinity := Number.infinityBits_eq
  have hsize : bits.toNat % 2 ^ 63 < Number.infinityBits := by omega
  have hbits := Number.toBits_ofBits hsize.le
  refine ⟨hbits, ?_⟩
  rw [Number.classify, hbits]
  simp only [Number.natPow_eq, if_neg (Nat.not_lt.2 hsize.le), if_neg hsize.ne]
  exact ⟨_, _, rfl⟩

/-- The text of every finite double, as a source text in any session, has that double as its
value. -/
theorem evaluate_display_number {bits : UInt64} (hfinite : bits.toNat / 2 ^ 52 % 2 ^ 11 ≠ 2047)
    (fuel : Nat) (s : Session) : ∃ y : Float, y.toBits = bits ∧
      Session.evaluate (fuel + 3) (Value.number (Float.ofBits bits)).display s =
        some (.ok (.number y), s) := by
  obtain ⟨hbits, negative, size, hclass⟩ := classify_ofBits hfinite
  obtain ⟨hsize, hvalue⟩ := Number.eq_of_classify hclass
  obtain ⟨body, htext, q, hnumeral, hq⟩ := Number.numberText_spells hclass
  have hread := hnumeral.read_eq hsize hq
  refine ⟨Float.ofBits bits, hbits, ?_⟩
  rw [Value.display, htext, hvalue, ← hread]
  cases negative with
  | false => simpa using evaluate_numeral hnumeral (fuel + 2) s
  | true => exact evaluate_negative hnumeral fuel s

/-- The double next above `0.3`, with a minus sign. -/
theorem evaluate_display_next_above :
    let bits : UInt64 := 0xBFD3333333333334
    let s := Session.new .unlimited fun _ => 0
    bits.toNat / 2 ^ 52 % 2 ^ 11 ≠ 2047 ∧
      (Value.number (Float.ofBits bits)).display = "-0.30000000000000004" ∧
      ∃ y : Float, y.toBits = bits ∧
        Session.evaluate 3 (Value.number (Float.ofBits bits)).display s =
          some (.ok (.number y), s) :=
  ⟨by decide, by decide +kernel, evaluate_display_number (by decide) 0 _⟩

end Lox
