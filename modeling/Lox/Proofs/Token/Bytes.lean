import Mathlib.Data.String.Basic
import Lox.Proofs.Token.LongestMatch

/-!
# The bytes of a text

A character of ASCII is one byte, and every byte of any other character is past ASCII. So whether a
character is of a class that ASCII decides shows in each of its bytes, and a run of bytes of such a
class is the bytes of a run of characters.
-/

set_option autoImplicit false

namespace Lox

/-- The bytes of a text. -/
def bytesOf (text : String) : List UInt8 :=
  text.toByteArray.data.toList

/-- The bytes of characters. -/
def utf8 (cs : List Char) : List UInt8 :=
  cs.flatMap String.utf8EncodeChar

theorem bytesOf_eq (text : String) : bytesOf text = utf8 text.toList := by
  have h : (String.ofList text.toList).toByteArray.data.toList = utf8 text.toList := by
    rw [String.toByteArray_ofList]
    exact List.toList_data_toByteArray
  rwa [String.ofList_toList] at h

theorem bytesOf_inj {a b : String} : bytesOf a = bytesOf b ↔ a = b := by
  constructor
  · intro h
    apply String.toByteArray_inj.1
    apply ByteArray.ext
    exact Array.toList_inj.1 h
  · intro h
    rw [h]

theorem utf8_cons (c : Char) (cs : List Char) :
    utf8 (c :: cs) = String.utf8EncodeChar c ++ utf8 cs := rfl

theorem utf8_append (cs cs' : List Char) : utf8 (cs ++ cs') = utf8 cs ++ utf8 cs' :=
  List.flatMap_append

theorem length_utf8_cons (c : Char) (cs : List Char) :
    (utf8 (c :: cs)).length = (String.utf8EncodeChar c).length + (utf8 cs).length :=
  List.length_append

theorem length_utf8 (cs : List Char) : (utf8 cs).length = String.utf8Len cs := by
  induction cs with
  | nil => rfl
  | cons c cs ih =>
    rw [length_utf8_cons, ih, String.length_utf8EncodeChar, String.utf8Len_cons, Nat.add_comm]

/-! ## Bytes and characters -/

theorem utf8EncodeChar_ascii {c : Char} (h : c.toNat ≤ 127) :
    String.utf8EncodeChar c = [c.toUInt8] :=
  String.utf8EncodeChar_eq_singleton (Char.utf8Size_eq_one_iff.2 h)

theorem utf8EncodeChar_eq_cons (c : Char) : ∃ b bs, String.utf8EncodeChar c = b :: bs := by
  apply List.exists_cons_of_length_pos
  rw [String.length_utf8EncodeChar]
  exact c.utf8Size_pos

/-- A byte within ASCII is the character. -/
theorem mem_utf8EncodeChar {c : Char} {b : UInt8} (h : b ∈ String.utf8EncodeChar c) :
    (c.toNat ≤ 127 ∧ b = c.toUInt8) ∨ (127 < c.toNat ∧ 127 < b.toNat) := by
  by_cases hc : c.toNat ≤ 127
  · rw [utf8EncodeChar_ascii hc] at h
    exact Or.inl ⟨hc, List.mem_singleton.1 h⟩
  · refine Or.inr ⟨Nat.lt_of_not_le hc, ?_⟩
    have hv : ¬ c.val.toNat ≤ 127 := hc
    simp only [String.utf8EncodeChar, hv, if_false] at h
    -- A byte of such a character is 128 at least, as a sum with a remainder that does not overflow.
    have hbyte {n : Nat} (hn : 128 ≤ n) (hn' : n < 256) (hb : b = UInt8.ofNat n) :
        127 < b.toNat := by
      rw [hb, UInt8.toNat_ofNat']
      omega
    split at h
    · simp only [List.mem_cons, List.not_mem_nil, or_false] at h
      rcases h with h | h
      · exact hbyte (by omega) (by omega) h
      · exact hbyte (by omega) (by omega) h
    split at h
    · simp only [List.mem_cons, List.not_mem_nil, or_false] at h
      rcases h with h | h | h
      · exact hbyte (by omega) (by omega) h
      · exact hbyte (by omega) (by omega) h
      · exact hbyte (by omega) (by omega) h
    · simp only [List.mem_cons, List.not_mem_nil, or_false] at h
      rcases h with h | h | h | h
      · exact hbyte (by omega) (by omega) h
      · exact hbyte (by omega) (by omega) h
      · exact hbyte (by omega) (by omega) h
      · exact hbyte (by omega) (by omega) h

theorem toNat_toUInt8 {c : Char} (h : c.toNat ≤ 127) : c.toUInt8.toNat = c.toNat := by
  have hmod : c.toUInt8.toNat = c.toNat % 256 := rfl
  omega

/-- A character of ASCII shows in each of its bytes. -/
theorem byte_eq_iff {c d : Char} {b : UInt8} (hd : d.toNat ≤ 127)
    (hb : b ∈ String.utf8EncodeChar c) : b = d.toUInt8 ↔ c = d := by
  rw [← UInt8.toNat_inj, ← Char.toNat_inj, toNat_toUInt8 hd]
  rcases mem_utf8EncodeChar hb with ⟨hc, rfl⟩ | ⟨hc, hb⟩
  · rw [toNat_toUInt8 hc]
  · omega

/-- Whether a character is of the class shows in each of its bytes. -/
def SameClass (p : UInt8 → Bool) (q : Char → Bool) : Prop :=
  ∀ c, ∀ b ∈ String.utf8EncodeChar c, p b = q c

theorem SameClass.eq {d : Char} (hd : d.toNat ≤ 127) :
    SameClass (fun b => b == d.toUInt8) (fun c => c == d) := by
  intro c b hb
  rw [Bool.eq_iff_iff, beq_iff_eq, beq_iff_eq]
  exact byte_eq_iff hd hb

theorem SameClass.between {lo hi : Char} (hlo : lo.toNat ≤ 127) (hhi : hi.toNat ≤ 127) :
    SameClass (fun b => lo.toUInt8 ≤ b && b ≤ hi.toUInt8) (fun c => lo ≤ c && c ≤ hi) := by
  intro c b hb
  rw [Bool.eq_iff_iff]
  simp only [Bool.and_eq_true, decide_eq_true_iff]
  rw [UInt8.le_iff_toNat_le, UInt8.le_iff_toNat_le, toNat_toUInt8 hlo, toNat_toUInt8 hhi]
  change _ ↔ lo.toNat ≤ c.toNat ∧ c.toNat ≤ hi.toNat
  rcases mem_utf8EncodeChar hb with ⟨hc, rfl⟩ | ⟨hc, hb⟩
  · rw [toNat_toUInt8 hc]
  · omega

section Runs
variable {p p' : UInt8 → Bool} {q q' : Char → Bool} (h : SameClass p q)
include h

theorem SameClass.not : SameClass (fun b => !p b) (fun c => !q c) := by
  intro c b hb
  simp only [h c b hb]

theorem SameClass.or (h' : SameClass p' q') :
    SameClass (fun b => p b || p' b) (fun c => q c || q' c) := by
  intro c b hb
  simp only [h c b hb, h' c b hb]

/-- A run of bytes is the bytes of a run of characters. -/
theorem SameClass.takeWhile_utf8 (cs : List Char) :
    (utf8 cs).takeWhile p = utf8 (cs.takeWhile q) := by
  induction cs with
  | nil => rfl
  | cons c cs ih =>
    have hbytes := h c
    rw [utf8_cons, List.takeWhile_cons]
    cases hc : q c with
    | true =>
      rw [hc] at hbytes
      rw [List.takeWhile_append_of_pos hbytes, ih]
      rfl
    | false =>
      rw [hc] at hbytes
      obtain ⟨b, bs, hb⟩ := utf8EncodeChar_eq_cons c
      rw [hb] at hbytes ⊢
      rw [List.cons_append, List.takeWhile_cons, hbytes b List.mem_cons_self]
      rfl

end Runs

theorem count_utf8 {d : Char} (hd : d.toNat ≤ 127) (cs : List Char) :
    (utf8 cs).count d.toUInt8 = cs.count d := by
  induction cs with
  | nil => rfl
  | cons c cs ih =>
    have hfirst : (String.utf8EncodeChar c).count d.toUInt8 = if c == d then 1 else 0 := by
      split
      · rename_i hc
        rw [eq_of_beq hc, utf8EncodeChar_ascii hd, List.count_singleton_self]
      · rename_i hc
        rw [List.count_eq_zero]
        intro hmem
        exact hc (beq_iff_eq.2 ((byte_eq_iff hd hmem).1 rfl))
    rw [utf8_cons, List.count_append, ih, List.count_cons, hfirst, Nat.add_comm]

/-! ## Slices -/

section Slices
variable {text : String}

theorem length_bytesOf {before rest : List Char} (h : text.toList = before ++ rest) :
    (bytesOf text).length = (utf8 before).length + (utf8 rest).length := by
  rw [bytesOf_eq, h, utf8_append, List.length_append]

/-- A cut between characters is a position in the text. -/
theorem isValid_utf8 {before rest : List Char} (h : text.toList = before ++ rest) :
    String.Pos.Raw.IsValid text ⟨(utf8 before).length⟩ := by
  rw [String.Pos.Raw.isValid_iff_exists_append]
  refine ⟨String.ofList before, String.ofList rest, ?_, ?_⟩
  · rw [← String.ofList_append, ← h, String.ofList_toList]
  · rw [String.rawEndPos_ofList, length_utf8]

/-- The text between two cuts. -/
theorem extract_utf8 {before middle rest : List Char} (h : text.toList = before ++ middle ++ rest) :
    String.Pos.Raw.extract text ⟨(utf8 before).length⟩ ⟨(utf8 (before ++ middle)).length⟩ =
      String.ofList middle := by
  have htext : text = String.ofList (before ++ middle ++ rest) := by
    rw [← h, String.ofList_toList]
  rw [htext, utf8_append, List.length_append, length_utf8, length_utf8]
  exact String.extract_of_valid before middle rest

end Slices

/-! ## Searching -/

/-- Where a word first stands in a list. -/
def findWord? (word : List UInt8) : List UInt8 → Option Nat
  | [] => none
  | b :: bs => if word.isPrefixOf (b :: bs) then some 0 else (findWord? word bs).map (· + 1)

theorem findWord?_skip {w : UInt8} (word : List UInt8) {bs : List UInt8} (h : w ∉ bs)
    (rest : List UInt8) :
    findWord? (w :: word) (bs ++ rest) = (findWord? (w :: word) rest).map (· + bs.length) := by
  induction bs with
  | nil => simp
  | cons b bs ih =>
    have hb : (w == b) = false := by
      rw [beq_eq_false_iff_ne]
      rintro rfl
      exact h List.mem_cons_self
    rw [List.cons_append, findWord?, List.isPrefixOf, hb,
      ih fun hmem => h (List.mem_cons_of_mem b hmem)]
    simp [Function.comp_def, Nat.add_assoc]

theorem findWord?_star_slash {c : Char} {rest : List Char}
    (h : ∀ more, c = '*' → rest ≠ '/' :: more) :
    findWord? (utf8 ['*', '/']) (utf8 (c :: rest)) =
      (findWord? (utf8 ['*', '/']) (utf8 rest)).map (· + (String.utf8EncodeChar c).length) := by
  have hword : utf8 ['*', '/'] = ['*'.toUInt8, '/'.toUInt8] := rfl
  rw [hword, utf8_cons]
  by_cases hc : c = '*'
  · subst hc
    have hslash : ['/'.toUInt8].isPrefixOf (utf8 rest) = false := by
      cases rest with
      | nil => rfl
      | cons d rest =>
        obtain ⟨b, bs, hb⟩ := utf8EncodeChar_eq_cons d
        have hne : b ≠ '/'.toUInt8 := by
          intro hslash
          have hd : d = '/' := (byte_eq_iff (by decide) (by simp [hb])).1 hslash
          exact h rest rfl (congrArg (· :: rest) hd)
        rw [utf8_cons, hb]
        simpa [List.isPrefixOf] using hne.symm
    rw [utf8EncodeChar_ascii (by decide), List.singleton_append, findWord?, List.isPrefixOf, hslash,
      Bool.and_false]
    rfl
  · apply findWord?_skip
    intro hmem
    exact hc ((byte_eq_iff (by decide) hmem).1 rfl)

/-- What is split off as a comment ends where the bytes of an end first stand. -/
theorem length_splitComment (passed cs : List Char) :
    (utf8 (Piece.splitComment passed cs).1).length =
      (utf8 passed).length +
        (findWord? (utf8 ['*', '/']) (utf8 cs)).elim (utf8 cs).length (· + 2) := by
  have hreverse (cs : List Char) : (utf8 cs.reverse).length = (utf8 cs).length := by
    simp [utf8, List.length_flatMap]
  fun_induction Piece.splitComment passed cs with
  | case1 passed => exact hreverse passed
  | case2 passed rest =>
    have hfind : findWord? (utf8 ['*', '/']) (utf8 ('*' :: '/' :: rest)) = some 0 := rfl
    rw [hfind, hreverse, length_utf8_cons, length_utf8_cons, Option.elim_some]
    have hone : (String.utf8EncodeChar '/').length + (String.utf8EncodeChar '*').length = 2 := rfl
    omega
  | case3 passed c rest hnot ih =>
    rw [ih, findWord?_star_slash fun more hc hrest => hnot more hc hrest, length_utf8_cons,
      length_utf8_cons]
    cases findWord? (utf8 ['*', '/']) (utf8 rest) with
    | none =>
      simp only [Option.map_none, Option.elim_none]
      omega
    | some n =>
      simp only [Option.map_some, Option.elim_some]
      omega

/-- A search ends where a run ends. -/
theorem findIdx?_elim {α : Type} (p : α → Bool) (xs : List α) :
    (xs.findIdx? p).elim xs.length id = (xs.takeWhile fun x => !p x).length := by
  induction xs with
  | nil => rfl
  | cons x xs ih =>
    rw [List.findIdx?_cons, List.takeWhile_cons]
    cases p x with
    | true => rfl
    | false =>
      cases hfind : xs.findIdx? p with
      | none => simp [← ih, hfind]
      | some n => simp [← ih, hfind]

end Lox
