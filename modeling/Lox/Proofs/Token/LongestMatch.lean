import Lox.Proofs.Lines.Tokens

/-!
# The longest match

Each kind of token has its texts: the symbols, digits with or without a fraction, anything between
two quotes, the reserved words, and the other names. Where a token stands, it is the longest text
of any kind that the rest of the source starts with, and no comment starts there. Together with
blanks, comments, refused characters and an open string, the tokens take up the whole source.
-/

set_option autoImplicit false

namespace Lox

/-- The texts of a kind of token. -/
inductive Lexeme : Kind → List Char → Prop where
  | symbol (s : Symbol) : Lexeme (.symbol s) s.chars
  | whole {digits : List Char} (hne : digits ≠ []) (hdigits : ∀ d ∈ digits, d.isDigit = true) :
      Lexeme (.number (Number.read digits)) digits
  | fraction {digits more : List Char} (hne : digits ≠ []) (hmore : more ≠ [])
      (hdigits : ∀ d ∈ digits ++ more, d.isDigit = true) :
      Lexeme (.number (Number.read (digits ++ '.' :: more))) (digits ++ '.' :: more)
  | string {contents : List Char} (h : '"' ∉ contents) :
      Lexeme (.string (String.ofList contents)) ('"' :: contents ++ ['"'])
  | keyword (k : Keyword) : Lexeme (.keyword k) k.text.toList
  | identifier {c : Char} {cs : List Char} (hstart : Piece.isNameStart c = true)
      (hchars : ∀ d ∈ cs, Piece.isNameChar d = true)
      (hkeyword : ∀ k : Keyword, k.text.toList ≠ c :: cs) : Lexeme .identifier (c :: cs)

/-- A comment starts at the front of the text. -/
def StartsComment (cs : List Char) : Prop :=
  ['/', '/'] <+: cs ∨ ['/', '*'] <+: cs

namespace Piece

/-- The piece is what a source has to be cut into if the rest follows the piece. -/
inductive WellCut : Piece → List Char → Prop where
  | blank {c : Char} {rest : List Char} (h : c ∈ [' ', '\r', '\t', '\n']) : WellCut (.blank c) rest
  | lineComment {text rest : List Char} (htext : '\n' ∉ text)
      (hrest : ∀ c ∈ rest.head?, c = '\n') : WellCut (.comment ('/' :: '/' :: text)) rest
  /-- The end of the comment is the first one after its start. -/
  | blockComment {text rest : List Char} (htext : ¬ ['*', '/'] <:+: text ++ ['*']) :
      WellCut (.comment ('/' :: '*' :: text ++ ['*', '/'])) rest
  | openComment {text : List Char} (htext : ¬ ['*', '/'] <:+: text) :
      WellCut (.comment ('/' :: '*' :: text)) []
  | token {kind : Kind} {text rest : List Char} (hlexeme : Lexeme kind text)
      (hcomment : ¬ StartsComment (text ++ rest))
      (hlongest : ∀ kind' text', Lexeme kind' text' → text' <+: text ++ rest →
        text'.length ≤ text.length) : WellCut (.token kind text) rest
  | refused {c : Char} {rest : List Char} (hblank : c ∉ [' ', '\r', '\t', '\n']) (hquote : c ≠ '"')
      (hnone : ∀ kind text, Lexeme kind text → ¬ text <+: c :: rest) : WellCut (.refused c) rest
  | openString {text : List Char} (htext : '"' ∉ text) : WellCut (.openString ('"' :: text)) []

/-- Every piece is well cut. -/
inductive AllWellCut : List Piece → Prop where
  | nil : AllWellCut []
  | cons {p : Piece} {ps : List Piece} (h : WellCut p (ps.flatMap chars)) (hps : AllWellCut ps) :
      AllWellCut (p :: ps)

/-! ## What a character opens -/

/-- What a character opens where a piece starts. -/
inductive Opening where
  | blank
  | string
  | number
  | name
  | mark
  deriving DecidableEq

def opening (c : Char) : Opening :=
  if isBlankChar c then .blank
  else if c == '"' then .string
  else if c.isDigit then .number
  else if isNameStart c then .name
  else .mark

theorem isBlankChar_iff {c : Char} : isBlankChar c = true ↔ c ∈ [' ', '\r', '\t', '\n'] := by
  simp [isBlankChar, or_assoc]

/-- A character is of the class that it opens. -/
theorem opening_class (c : Char) :
    match opening c with
    | .blank => isBlankChar c = true
    | .string => c = '"'
    | .number => c.isDigit = true
    | .name => isNameStart c = true
    | .mark => isBlankChar c = false ∧ c ≠ '"' := by
  unfold opening
  by_cases hblank : isBlankChar c = true
  · simp [hblank]
  by_cases hquote : c = '"'
  · simp [hquote, isBlankChar]
  by_cases hdigit : c.isDigit = true
  · simp [hblank, hquote, hdigit]
  by_cases hname : isNameStart c = true
  · simp [hblank, hquote, hdigit, hname]
  · simp [hblank, hquote, hdigit, hname]

theorem opening_quote : opening '"' = .string := rfl

/-- A character of a class without blanks and quotes is neither. -/
theorem not_blank_nor_quote {q : Char → Bool} (hq : [' ', '\r', '\t', '\n', '"'].any q = false)
    {c : Char} (h : q c = true) : isBlankChar c = false ∧ (c == '"') = false := by
  have hne (d : Char) (hd : d ∈ [' ', '\r', '\t', '\n', '"']) : (c == d) = false := by
    rw [beq_eq_false_iff_ne]
    rintro rfl
    exact List.any_eq_false.1 hq c hd h
  constructor
  · rw [isBlankChar, hne ' ' (by simp), hne '\r' (by simp), hne '\t' (by simp), hne '\n' (by simp)]
    rfl
  · exact hne '"' (by simp)

theorem opening_digit {c : Char} (h : c.isDigit = true) : opening c = .number := by
  obtain ⟨hblank, hquote⟩ := not_blank_nor_quote (q := Char.isDigit) rfl h
  simp [opening, hblank, hquote, h]

theorem isDigit_iff {c : Char} : c.isDigit = true ↔ 48 ≤ c.toNat ∧ c.toNat ≤ 57 := by
  have h : c.isDigit = (decide (48 ≤ c.val) && decide (c.val ≤ 57)) := rfl
  simp only [h, Bool.and_eq_true, decide_eq_true_iff]
  rfl

theorem isNameStart_iff {c : Char} : isNameStart c = true ↔
    (65 ≤ c.toNat ∧ c.toNat ≤ 90) ∨ (97 ≤ c.toNat ∧ c.toNat ≤ 122) ∨ c = '_' := by
  have h : c.isAlpha = (decide (65 ≤ c.val ∧ c.val ≤ 90) ||
      decide (97 ≤ c.val) && decide (c.val ≤ 122)) := rfl
  simp only [isNameStart, h, Bool.or_eq_true, Bool.and_eq_true, decide_eq_true_iff, beq_iff_eq,
    or_assoc]
  rfl

theorem isDigit_of_isNameStart {c : Char} (h : isNameStart c = true) : c.isDigit = false := by
  apply eq_false_of_ne_true
  intro hdigit
  rw [isDigit_iff] at hdigit
  rcases isNameStart_iff.1 h with h | h | rfl
  · omega
  · omega
  · exact absurd hdigit.2 (by decide)

theorem opening_nameStart {c : Char} (h : isNameStart c = true) : opening c = .name := by
  obtain ⟨hblank, hquote⟩ := not_blank_nor_quote (q := isNameStart) rfl h
  simp [opening, hblank, hquote, isDigit_of_isNameStart h, h]

theorem opening_symbol (s : Symbol) {c : Char} {cs : List Char} (h : s.chars = c :: cs) :
    opening c = .mark := by
  cases s <;> cases h <;> rfl

/-- The first piece of a text that opens neither a blank nor a literal nor a name. -/
def markPiece (c : Char) (rest : List Char) : Piece × List Char :=
  match c, rest with
  | '/', '/' :: rest => (.comment ('/' :: '/' :: rest.takeWhile (· != '\n')),
      rest.dropWhile (· != '\n'))
  | '/', '*' :: rest => (.comment (splitComment ['*', '/'] rest).1,
      (splitComment ['*', '/'] rest).2)
  | c, rest => symbolPiece c rest

/-- The first piece of a text is what its first character opens. -/
theorem next_eq (c : Char) (rest : List Char) :
    next c rest = match opening c with
      | .blank => (.blank c, rest)
      | .string => string rest
      | .number => (.token (.number (Number.read (splitNumber (c :: rest)).1))
          (splitNumber (c :: rest)).1, (splitNumber (c :: rest)).2)
      | .name => (.token (nameKind (c :: rest.takeWhile isNameChar))
          (c :: rest.takeWhile isNameChar), rest.dropWhile isNameChar)
      | .mark => markPiece c rest := by
  unfold next opening
  split
  · rfl
  split
  · rfl
  split
  · rfl
  split
  · rfl
  · rfl

end Piece

open Piece

/-! ## The texts of tokens -/

/-- What the first character of a token opens. -/
def Kind.opening : Kind → Option Opening
  | .symbol _ => some .mark
  | .keyword _ => some .name
  | .identifier => some .name
  | .string _ => some .string
  | .number _ => some .number
  | .eof => none

theorem Kind.opening_ne_blank (kind : Kind) : kind.opening ≠ some .blank := by
  intro h
  cases kind <;> cases h

theorem Symbol.mem_all (s : Symbol) : s ∈ Symbol.all := by
  cases s <;> decide

theorem Keyword.mem_all (k : Keyword) : k ∈ Keyword.all := by
  cases k <;> decide

theorem Symbol.chars_injective {s t : Symbol} (h : s.chars = t.chars) : s = t := by
  have hall : ∀ s ∈ Symbol.all, ∀ t ∈ Symbol.all, s.chars = t.chars → s = t := by decide
  exact hall s s.mem_all t t.mem_all h

theorem Keyword.text_injective {k l : Keyword} (h : k.text = l.text) : k = l := by
  have hall : ∀ k ∈ Keyword.all, ∀ l ∈ Keyword.all, k.text = l.text → k = l := by decide
  exact hall k k.mem_all l l.mem_all h

/-- Reserved words are names. -/
theorem Keyword.text_name (k : Keyword) :
    ∃ c cs, k.text.toList = c :: cs ∧ isNameStart c = true ∧ ∀ d ∈ cs, isNameChar d = true := by
  cases k <;> exact ⟨_, _, rfl, rfl, List.all_eq_true.1 rfl⟩

namespace Lexeme
variable {kind : Kind} {text : List Char}

theorem opens (h : Lexeme kind text) :
    ∃ c cs, text = c :: cs ∧ kind.opening = some (Piece.opening c) := by
  cases h with
  | symbol s =>
    obtain ⟨c, cs, hs⟩ := List.exists_cons_of_ne_nil (symbol_chars_ne_nil s)
    exact ⟨c, cs, hs, congrArg some (opening_symbol s hs).symm⟩
  | whole hne hdigits =>
    obtain ⟨d, digits, rfl⟩ := List.exists_cons_of_ne_nil hne
    exact ⟨d, digits, rfl, congrArg some (opening_digit (hdigits d (by simp))).symm⟩
  | fraction hne hmore hdigits =>
    obtain ⟨d, digits, rfl⟩ := List.exists_cons_of_ne_nil hne
    exact ⟨d, _, rfl, congrArg some (opening_digit (hdigits d (by simp))).symm⟩
  | string h => exact ⟨'"', _, rfl, rfl⟩
  | keyword k =>
    obtain ⟨c, cs, hk, hstart, -⟩ := k.text_name
    exact ⟨c, cs, hk, congrArg some (opening_nameStart hstart).symm⟩
  | identifier hstart => exact ⟨_, _, rfl, congrArg some (opening_nameStart hstart).symm⟩

theorem symbol_of_opening (h : Lexeme kind text) (hopening : kind.opening = some .mark) :
    ∃ s, kind = .symbol s ∧ text = s.chars := by
  cases h with
  | symbol s => exact ⟨s, rfl, rfl⟩
  | _ => cases hopening

theorem string_of_opening (h : Lexeme kind text) (hopening : kind.opening = some .string) :
    ∃ contents, '"' ∉ contents ∧ kind = .string (String.ofList contents) ∧
      text = '"' :: contents ++ ['"'] := by
  cases h with
  | string h => exact ⟨_, h, rfl, rfl⟩
  | _ => cases hopening

theorem number_of_opening (h : Lexeme kind text) (hopening : kind.opening = some .number) :
    kind = .number (Number.read text) ∧ ∃ digits more, (∀ d ∈ digits ++ more, d.isDigit = true) ∧
      (text = digits ∨ more ≠ [] ∧ text = digits ++ '.' :: more) := by
  cases h with
  | whole hne hdigits => exact ⟨rfl, text, [], by simpa, Or.inl rfl⟩
  | fraction hne hmore hdigits => exact ⟨rfl, _, _, hdigits, Or.inr ⟨hmore, rfl⟩⟩
  | _ => cases hopening

theorem name_of_opening (h : Lexeme kind text) (hopening : kind.opening = some .name) :
    ∃ c cs, text = c :: cs ∧ (∀ d ∈ cs, isNameChar d = true) ∧
      ((∃ k : Keyword, kind = .keyword k ∧ k.text.toList = text) ∨
        kind = .identifier ∧ ∀ k : Keyword, k.text.toList ≠ text) := by
  cases h with
  | keyword k =>
    obtain ⟨c, cs, hk, -, hchars⟩ := k.text_name
    exact ⟨c, cs, hk, hchars, Or.inl ⟨k, rfl, rfl⟩⟩
  | identifier hstart hchars hkeyword => exact ⟨_, _, rfl, hchars, Or.inr ⟨rfl, hkeyword⟩⟩
  | _ => cases hopening

/-- Only a string has blanks in it. -/
theorem not_blank (h : Lexeme kind text) (hopening : kind.opening ≠ some .string) :
    ∀ c ∈ text, isBlankChar c = false := by
  have hdigit {c : Char} (hc : c.isDigit = true) : isBlankChar c = false :=
    (not_blank_nor_quote (q := Char.isDigit) rfl hc).1
  have hname {c : Char} {cs : List Char} (hstart : isNameStart c = true)
      (hchars : ∀ d ∈ cs, isNameChar d = true) : ∀ d ∈ c :: cs, isBlankChar d = false := by
    intro d hd
    rcases List.mem_cons.1 hd with rfl | hd
    · exact (not_blank_nor_quote (q := isNameStart) rfl hstart).1
    · exact (not_blank_nor_quote (q := isNameChar) rfl (hchars d hd)).1
  intro c hmem
  cases h with
  | symbol s =>
    have hall : (s.chars.all fun d => !isBlankChar d) = true := by cases s <;> rfl
    simpa using List.all_eq_true.1 hall c hmem
  | whole _ hdigits => exact hdigit (hdigits c hmem)
  | fraction _ _ hdigits =>
    rw [List.mem_append, List.mem_cons] at hmem
    rcases hmem with hmem | rfl | hmem
    · exact hdigit (hdigits c (List.mem_append_left _ hmem))
    · rfl
    · exact hdigit (hdigits c (List.mem_append_right _ hmem))
  | string => exact absurd rfl hopening
  | keyword k =>
    obtain ⟨d, cs, hk, hstart, hchars⟩ := k.text_name
    exact hname hstart hchars c (hk ▸ hmem)
  | identifier hstart hchars => exact hname hstart hchars c hmem

/-- Only a string takes up more than one line. -/
theorem newline_not_mem (h : Lexeme kind text) (hopening : kind.opening ≠ some .string) :
    '\n' ∉ text := by
  intro hmem
  cases h.not_blank hopening '\n' hmem

/-- A text is of one kind at most. -/
theorem kind_unique {kind' : Kind} (h : Lexeme kind text) (h' : Lexeme kind' text) :
    kind = kind' := by
  obtain ⟨c, cs, hcs, hopening⟩ := h.opens
  obtain ⟨c', cs', hcs', hopening'⟩ := h'.opens
  rw [hcs] at hcs'
  obtain ⟨rfl, -⟩ := List.cons.inj hcs'
  cases hc : Piece.opening c with
  | blank =>
    exact absurd (hc ▸ hopening) kind.opening_ne_blank
  | mark =>
    obtain ⟨s, rfl, hs⟩ := h.symbol_of_opening (hc ▸ hopening)
    obtain ⟨s', rfl, hs'⟩ := h'.symbol_of_opening (hc ▸ hopening')
    rw [Symbol.chars_injective (hs.symm.trans hs')]
  | string =>
    obtain ⟨contents, -, rfl, htext⟩ := h.string_of_opening (hc ▸ hopening)
    obtain ⟨contents', -, rfl, htext'⟩ := h'.string_of_opening (hc ▸ hopening')
    rw [htext] at htext'
    rw [List.append_cancel_right (List.cons.inj htext').2]
  | number =>
    rw [(h.number_of_opening (hc ▸ hopening)).1, (h'.number_of_opening (hc ▸ hopening')).1]
  | name =>
    obtain ⟨-, -, -, -, hname⟩ := h.name_of_opening (hc ▸ hopening)
    obtain ⟨-, -, -, -, hname'⟩ := h'.name_of_opening (hc ▸ hopening')
    rcases hname with ⟨k, rfl, hk⟩ | ⟨rfl, hnone⟩
    · rcases hname' with ⟨k', rfl, hk'⟩ | ⟨rfl, hnone⟩
      · rw [Keyword.text_injective (String.toList_injective (hk.trans hk'.symm))]
      · exact absurd hk (hnone k)
    · rcases hname' with ⟨k', rfl, hk'⟩ | ⟨rfl, -⟩
      · exact absurd hk' (hnone k')
      · rfl

end Lexeme

/-- A run is no longer than the longest one. -/
theorem length_le_takeWhile {α : Type} {p : α → Bool} {run xs : List α}
    (hrun : ∀ x ∈ run, p x = true) (h : run <+: xs) : run.length ≤ (xs.takeWhile p).length := by
  obtain ⟨rest, rfl⟩ := h
  rw [List.takeWhile_append_of_pos hrun, List.length_append]
  exact Nat.le_add_right _ _

namespace Piece

/-- A token is well cut if it is the longest of those that open as it does. -/
theorem WellCut.of_longest {c : Char} {cs rest text : List Char} {kind : Kind}
    (hcs : text ++ rest = c :: cs) (hlexeme : Lexeme kind text)
    (hcomment : opening c = .mark → ¬ StartsComment (c :: cs))
    (hlongest : ∀ kind' text', Lexeme kind' text' → kind'.opening = some (opening c) →
      text' <+: c :: cs → text'.length ≤ text.length) :
    WellCut (.token kind text) rest := by
  refine .token hlexeme ?_ ?_
  · intro hstarts
    rw [hcs] at hstarts
    refine hcomment ?_ hstarts
    rcases hstarts with h | h
    · obtain ⟨rfl, -⟩ := List.cons_prefix_cons.1 h
      rfl
    · obtain ⟨rfl, -⟩ := List.cons_prefix_cons.1 h
      rfl
  · intro kind' text' h hfront
    rw [hcs] at hfront
    obtain ⟨c', cs', rfl, hopening⟩ := h.opens
    obtain ⟨rfl, -⟩ := List.cons_prefix_cons.1 hfront
    exact hlongest kind' _ h hopening hfront

theorem not_mem_takeWhile_ne (c : Char) (cs : List Char) : c ∉ cs.takeWhile (· != c) := by
  intro h
  have hc := List.all_eq_true.1 List.all_takeWhile c h
  simp at hc

theorem string_wellCut (rest : List Char) : WellCut (string rest).1 (string rest).2 := by
  have happend := string_append rest
  unfold string at happend ⊢
  cases hdrop : rest.dropWhile (· != '"') with
  | nil => exact .openString (not_mem_takeWhile_ne '"' rest)
  | cons quote more =>
    have hquote := List.head_dropWhile_not (· != '"') (l := rest) (by simp [hdrop])
    simp only [hdrop, List.head_cons, bne_eq_false_iff_eq] at hquote
    subst hquote
    rw [hdrop] at happend
    refine .of_longest happend (.string (not_mem_takeWhile_ne '"' rest)) (fun h => by cases h) ?_
    intro kind text h hopening hfront
    obtain ⟨contents, hcontents, -, rfl⟩ := h.string_of_opening hopening
    have hrun : contents <+: rest :=
      (List.prefix_append contents ['"']).trans (List.cons_prefix_cons.1 hfront).2
    have hlength := length_le_takeWhile (p := (· != '"')) (fun x hx => ?_) hrun
    · simp only [List.length_append, List.length_cons]
      omega
    · simp only [bne_iff_ne]
      rintro rfl
      exact hcontents hx

/-- Digits at the front, with a fraction if one follows, make a number. -/
theorem splitNumber_lexeme {c : Char} (hc : c.isDigit = true) (rest : List Char) :
    Lexeme (.number (Number.read (splitNumber (c :: rest)).1)) (splitNumber (c :: rest)).1 := by
  have hne : (c :: rest).takeWhile Char.isDigit ≠ [] := by simp [hc]
  have hdigits (cs : List Char) : ∀ d ∈ cs.takeWhile Char.isDigit, d.isDigit = true :=
    List.all_eq_true.1 List.all_takeWhile
  unfold splitNumber
  split
  · rename_i d more hdrop
    split
    · rename_i hd
      refine .fraction hne (by simp [hd]) ?_
      intro x hx
      rcases List.mem_append.1 hx with hx | hx
      · exact hdigits _ x hx
      · exact hdigits _ x hx
    · exact .whole hne (hdigits _)
  · exact .whole hne (hdigits _)

/-- What is split off is no shorter than the digits at the front. -/
theorem length_takeWhile_le_splitNumber (cs : List Char) :
    (cs.takeWhile Char.isDigit).length ≤ (splitNumber cs).1.length := by
  unfold splitNumber
  split
  · split
    · simp
    · exact Nat.le_refl _
  · exact Nat.le_refl _

theorem splitNumber_fraction {digits more : List Char} (hmore : more ≠ [])
    (h : ∀ d ∈ digits ++ more, d.isDigit = true) (rest : List Char) :
    (splitNumber (digits ++ '.' :: (more ++ rest))).1 =
      digits ++ '.' :: (more ++ rest).takeWhile Char.isDigit := by
  obtain ⟨d, more, rfl⟩ := List.exists_cons_of_ne_nil hmore
  have hdigits : ∀ x ∈ digits, x.isDigit = true := fun x hx => h x (List.mem_append_left _ hx)
  have hd : d.isDigit = true := h d (by simp)
  have hpoint : Char.isDigit '.' = false := rfl
  unfold splitNumber
  simp [List.takeWhile_append_of_pos hdigits, List.dropWhile_append_of_pos hdigits, hd, hpoint]

theorem number_wellCut {c : Char} (hc : c.isDigit = true) (rest : List Char) :
    WellCut (.token (.number (Number.read (splitNumber (c :: rest)).1)) (splitNumber (c :: rest)).1)
      (splitNumber (c :: rest)).2 := by
  refine .of_longest (splitNumber_append (c :: rest)) (splitNumber_lexeme hc rest) ?_ ?_
  · intro hmark
    rw [opening_digit hc] at hmark
    cases hmark
  · intro kind text h hopening hfront
    rw [opening_digit hc] at hopening
    obtain ⟨-, digits, more, hdigits, rfl | ⟨hmore, rfl⟩⟩ := h.number_of_opening hopening
    · refine Nat.le_trans (length_le_takeWhile ?_ hfront) (length_takeWhile_le_splitNumber _)
      exact fun d hd => hdigits d (List.mem_append_left _ hd)
    · obtain ⟨after, hafter⟩ := hfront
      rw [List.append_assoc, List.cons_append] at hafter
      have hrun := length_le_takeWhile (fun d hd => hdigits d (List.mem_append_right _ hd))
        (List.prefix_append more after)
      rw [← hafter, splitNumber_fraction hmore hdigits after]
      simp only [List.length_append, List.length_cons]
      omega

theorem nameKind_lexeme {c : Char} {cs : List Char} (hstart : isNameStart c = true)
    (hchars : ∀ d ∈ cs, isNameChar d = true) : Lexeme (nameKind (c :: cs)) (c :: cs) := by
  unfold nameKind Keyword.ofText?
  split
  · rename_i k hk
    have htext := eq_of_beq (List.find?_some (p := fun k : Keyword => k.text == _) hk)
    have hlist : k.text.toList = c :: cs := by rw [htext, String.toList_ofList]
    rw [← hlist]
    exact .keyword k
  · rename_i hnone
    refine .identifier hstart hchars fun k hk => ?_
    refine List.find?_eq_none.1 hnone k k.mem_all (beq_iff_eq.2 ?_)
    rw [← hk, String.ofList_toList]

theorem name_wellCut {c : Char} (hc : isNameStart c = true) (rest : List Char) :
    WellCut (.token (nameKind (c :: rest.takeWhile isNameChar)) (c :: rest.takeWhile isNameChar))
      (rest.dropWhile isNameChar) := by
  have hcs : c :: rest.takeWhile isNameChar ++ rest.dropWhile isNameChar = c :: rest := by simp
  refine .of_longest hcs (nameKind_lexeme hc (List.all_eq_true.1 List.all_takeWhile)) ?_ ?_
  · intro hmark
    rw [opening_nameStart hc] at hmark
    cases hmark
  · intro kind text h hopening hfront
    rw [opening_nameStart hc] at hopening
    obtain ⟨c', cs, rfl, hchars, -⟩ := h.name_of_opening hopening
    exact Nat.succ_le_succ (length_le_takeWhile hchars (List.cons_prefix_cons.1 hfront).2)

/-- No symbol starts with one that comes before it. -/
theorem symbols_pairwise : Symbol.all.Pairwise fun s t => ¬ s.chars <+: t.chars := by
  decide

/-- The first symbol of the list that a text starts with is the longest. -/
theorem symbol_longest {cs : List Char} {s t : Symbol}
    (hs : (Symbol.all.find? fun s => s.chars.isPrefixOf cs) = some s) (ht : t.chars <+: cs) :
    t.chars.length ≤ s.chars.length := by
  obtain ⟨hfront, before, after, hall, hbefore⟩ := List.find?_eq_some_iff_append.1 hs
  rw [List.isPrefixOf_iff_prefix] at hfront
  have hmem := t.mem_all
  have hpairwise := symbols_pairwise
  rw [hall] at hmem hpairwise
  rcases List.mem_append.1 hmem with hmem | hmem
  · have hnot := hbefore t hmem
    rw [List.isPrefixOf_iff_prefix.2 ht] at hnot
    cases hnot
  rcases List.mem_cons.1 hmem with rfl | hmem
  · exact Nat.le_refl _
  · have hshort := List.rel_of_pairwise_cons (List.pairwise_append.1 hpairwise).2.1 hmem
    exact ((List.prefix_or_prefix_of_prefix ht hfront).resolve_right hshort).length_le

theorem symbolPiece_wellCut {c : Char} {rest : List Char} (hopening : opening c = .mark)
    (hcomment : ¬ StartsComment (c :: rest)) :
    WellCut (symbolPiece c rest).1 (symbolPiece c rest).2 := by
  unfold symbolPiece
  split
  · rename_i s hs
    have hfront := List.isPrefixOf_iff_prefix.1
      (List.find?_some (p := fun s : Symbol => s.chars.isPrefixOf (c :: rest)) hs)
    refine .of_longest (List.prefix_iff_eq_append.1 hfront) (.symbol s) (fun _ => hcomment) ?_
    intro kind text h hkind htext
    rw [hopening] at hkind
    obtain ⟨t, -, rfl⟩ := h.symbol_of_opening hkind
    exact symbol_longest hs htext
  · rename_i hnone
    have hclass := opening_class c
    rw [hopening] at hclass
    refine .refused ?_ hclass.2 ?_
    · rw [← isBlankChar_iff, hclass.1]
      exact Bool.false_ne_true
    · intro kind text h hfront
      obtain ⟨c', cs, rfl, hkind⟩ := h.opens
      obtain ⟨rfl, -⟩ := List.cons_prefix_cons.1 hfront
      rw [hopening] at hkind
      obtain ⟨s, -, hs⟩ := h.symbol_of_opening hkind
      rw [hs] at hfront
      exact List.find?_eq_none.1 hnone s s.mem_all (List.isPrefixOf_iff_prefix.2 hfront)

/-- A block comment ends with its first end. -/
theorem splitComment_first (passed : List Char) {cs : List Char} (h : ['*', '/'] <:+: cs) :
    ∃ text, cs = text ++ '*' :: '/' :: (splitComment passed cs).2 ∧
      (splitComment passed cs).1 = passed.reverse ++ (text ++ ['*', '/']) ∧
      ¬ ['*', '/'] <:+: text ++ ['*'] := by
  fun_induction splitComment passed cs with
  | case1 passed => simp at h
  | case2 passed rest => exact ⟨[], rfl, by simp, by decide⟩
  | case3 passed c rest hnot ih =>
    rcases List.infix_cons_iff.1 h with ⟨tail, htail⟩ | h
    · obtain ⟨rfl, rfl⟩ := List.cons.inj htail
      exact absurd rfl (hnot tail rfl)
    · obtain ⟨text, hrest, htext, hfirst⟩ := ih h
      refine ⟨c :: text, congrArg (c :: ·) hrest, by simp [htext], ?_⟩
      intro hinfix
      rcases List.infix_cons_iff.1 hinfix with hfront | hinfix
      · obtain ⟨rfl, hslash⟩ := List.cons_prefix_cons.1 hfront
        cases text with
        | nil => simp at hslash
        | cons d text =>
          obtain ⟨rfl, -⟩ := List.cons_prefix_cons.1 hslash
          exact hnot _ rfl hrest
      · exact hfirst hinfix

theorem blockComment_wellCut (rest : List Char) :
    WellCut (.comment (splitComment ['*', '/'] rest).1) (splitComment ['*', '/'] rest).2 := by
  by_cases h : ['*', '/'] <:+: rest
  · obtain ⟨text, -, htext, hfirst⟩ := splitComment_first ['*', '/'] h
    rw [htext]
    exact .blockComment hfirst
  · rw [splitComment_eq_self ['*', '/'] h]
    exact .openComment h

theorem lineComment_wellCut (rest : List Char) :
    WellCut (.comment ('/' :: '/' :: rest.takeWhile (· != '\n'))) (rest.dropWhile (· != '\n')) := by
  refine .lineComment (not_mem_takeWhile_ne '\n' rest) ?_
  intro c hc
  have hhead := List.head?_dropWhile_not (· != '\n') rest
  rw [Option.mem_def.1 hc] at hhead
  simpa using hhead

theorem markPiece_wellCut {c : Char} {rest : List Char} (hopening : opening c = .mark) :
    WellCut (markPiece c rest).1 (markPiece c rest).2 := by
  unfold markPiece
  split
  · exact lineComment_wellCut _
  · exact blockComment_wellCut _
  · rename_i hline hblock
    refine symbolPiece_wellCut hopening ?_
    rintro (⟨more, hmore⟩ | ⟨more, hmore⟩)
    · obtain ⟨rfl, rfl⟩ := List.cons.inj hmore
      exact hline more rfl rfl
    · obtain ⟨rfl, rfl⟩ := List.cons.inj hmore
      exact hblock more rfl rfl

/-- The first piece of a text is well cut. -/
theorem next_wellCut (c : Char) (rest : List Char) : WellCut (next c rest).1 (next c rest).2 := by
  have hclass := opening_class c
  rw [next_eq]
  cases hopening : opening c with
  | blank =>
    rw [hopening] at hclass
    exact .blank (isBlankChar_iff.1 hclass)
  | string => exact string_wellCut rest
  | number =>
    rw [hopening] at hclass
    exact number_wellCut hclass rest
  | name =>
    rw [hopening] at hclass
    exact name_wellCut hclass rest
  | mark => exact markPiece_wellCut hopening

/-- Every piece of a text is well cut. -/
theorem split_wellCut (cs : List Char) : AllWellCut (split cs) := by
  induction hn : cs.length using Nat.strongRecOn generalizing cs with
  | _ n ih =>
    subst hn
    cases cs with
    | nil =>
      rw [split_nil]
      exact .nil
    | cons c rest =>
      rw [split_cons]
      refine .cons ?_ (ih _ (length_next_lt c rest) _ rfl)
      rw [flatMap_chars_split]
      exact next_wellCut c rest

/-! ## There is one way to cut -/

theorem splitComment_of_first (passed : List Char) {text : List Char}
    (h : ¬ ['*', '/'] <:+: text ++ ['*']) (rest : List Char) :
    splitComment passed (text ++ '*' :: '/' :: rest) =
      (passed.reverse ++ (text ++ ['*', '/']), rest) := by
  induction text generalizing passed with
  | nil => simp [splitComment]
  | cons c text ih =>
    have htext : ¬ ['*', '/'] <:+: text ++ ['*'] :=
      fun hinfix => h (List.infix_cons_iff.2 (Or.inr hinfix))
    rw [List.cons_append, splitComment.eq_3]
    · rw [ih (c :: passed) htext]
      simp
    · rintro tail rfl htail
      cases text with
      | nil => simp at htail
      | cons d text =>
        obtain ⟨rfl, -⟩ := List.cons.inj htail
        exact h (List.prefix_append ['*', '/'] (text ++ ['*'])).isInfix

theorem takeWhile_ne_of_not_mem {c : Char} {cs : List Char} (h : c ∉ cs) :
    cs.takeWhile (· != c) = cs ∧ cs.dropWhile (· != c) = [] := by
  have hall : ∀ d ∈ cs, (d != c) = true := by
    intro d hd
    rw [bne_iff_ne]
    rintro rfl
    exact h hd
  have htake : (cs ++ []).takeWhile (· != c) = cs ++ [] := List.takeWhile_append_of_pos hall
  have hdrop : (cs ++ []).dropWhile (· != c) = [] := List.dropWhile_append_of_pos hall
  rw [List.append_nil] at htake hdrop
  exact ⟨htake, hdrop⟩

theorem next_lineComment_of {text rest : List Char} (htext : '\n' ∉ text)
    (hrest : ∀ c ∈ rest.head?, c = '\n') :
    next '/' ('/' :: (text ++ rest)) = (.comment ('/' :: '/' :: text), rest) := by
  obtain ⟨htake, hdrop⟩ := takeWhile_ne_of_not_mem htext
  obtain ⟨htake', hdrop'⟩ := run_append (· != '\n') text rest
    (Or.inr fun c hc => by rw [hrest c hc]; rfl)
  rw [next_lineComment, htake', hdrop', htake, hdrop]
  rfl

theorem next_blockComment_of {text : List Char} (htext : ¬ ['*', '/'] <:+: text ++ ['*'])
    (rest : List Char) : next '/' ('*' :: (text ++ ['*', '/'] ++ rest)) =
      (.comment ('/' :: '*' :: text ++ ['*', '/']), rest) := by
  have hcs : text ++ ['*', '/'] ++ rest = text ++ '*' :: '/' :: rest := by simp
  rw [hcs, next_blockComment, splitComment_of_first ['*', '/'] htext rest]
  rfl

section Unique
variable {q : Piece} {rest rest' : List Char} (hq : WellCut q rest')
include hq

/-- Where a token can be cut off, no other piece can. -/
theorem WellCut.eq_token {kind : Kind} {text : List Char} (hlexeme : Lexeme kind text)
    (hcomment : ¬ StartsComment (text ++ rest))
    (hlongest : ∀ kind' text', Lexeme kind' text' → text' <+: text ++ rest →
      text'.length ≤ text.length) (h : q.chars ++ rest' = text ++ rest) :
    q = .token kind text := by
  obtain ⟨c, cs, hcs, hopening⟩ := hlexeme.opens
  have hfront : text <+: q.chars ++ rest' := ⟨rest, h.symm⟩
  rw [← h] at hcomment hlongest
  cases hq with
  | blank hblank =>
    rw [hcs] at hfront
    obtain ⟨rfl, -⟩ := List.cons_prefix_cons.1 hfront
    rw [opening, if_pos (isBlankChar_iff.2 hblank)] at hopening
    exact absurd hopening kind.opening_ne_blank
  | lineComment => exact absurd (Or.inl ⟨_, rfl⟩) hcomment
  | blockComment => exact absurd (Or.inr ⟨_, rfl⟩) hcomment
  | openComment => exact absurd (Or.inr ⟨_, rfl⟩) hcomment
  | token hlexeme' hcomment' hlongest' =>
    have hle := hlongest _ _ hlexeme' (List.prefix_append _ _)
    have hle' := hlongest' _ _ hlexeme hfront
    obtain ⟨htext, -⟩ := List.append_inj h (Nat.le_antisymm hle hle')
    rw [← htext] at hlexeme ⊢
    exact congrArg (Piece.token · _) (hlexeme'.kind_unique hlexeme)
  | refused hblank hquote hnone => exact absurd hfront (hnone kind text hlexeme)
  | openString hopen =>
    rw [hcs] at hfront
    obtain ⟨rfl, -⟩ := List.cons_prefix_cons.1 hfront
    obtain ⟨contents, -, -, htext⟩ := hlexeme.string_of_opening hopening
    rw [htext] at h
    have hmem := congrArg ('"' ∈ ·) (List.cons.inj h).2
    simp [hopen] at hmem

/-- Where a character is refused, no other piece can be cut off. -/
theorem WellCut.eq_refused {c : Char} (hblank : c ∉ [' ', '\r', '\t', '\n']) (hquote : c ≠ '"')
    (hnone : ∀ kind text, Lexeme kind text → ¬ text <+: c :: rest)
    (h : q.chars ++ rest' = c :: rest) : q = .refused c := by
  rw [← h] at hnone
  have hslash (more : List Char) : q.chars ≠ '/' :: more := by
    intro hq
    exact hnone _ _ (.symbol .slash) ⟨more ++ rest', by rw [hq]; rfl⟩
  cases hq with
  | blank hblank' =>
    obtain ⟨rfl, -⟩ := List.cons.inj h
    exact absurd hblank' hblank
  | lineComment => exact absurd rfl (hslash _)
  | blockComment => exact absurd rfl (hslash _)
  | openComment => exact absurd rfl (hslash _)
  | token hlexeme => exact absurd (List.prefix_append _ _) (hnone _ _ hlexeme)
  | refused =>
    obtain ⟨rfl, -⟩ := List.cons.inj h
    rfl
  | openString =>
    obtain ⟨rfl, -⟩ := List.cons.inj h
    exact absurd rfl hquote

end Unique

/-- A piece that is well cut is the one that is cut off. -/
theorem WellCut.next_eq {p : Piece} {c : Char} {cs rest : List Char} (h : WellCut p rest)
    (hcs : p.chars ++ rest = c :: cs) : next c cs = (p, rest) := by
  have hfirst (hp : (next c cs).1 = p) : next c cs = (p, rest) := by
    have happend := (next_append c cs).trans hcs.symm
    rw [hp] at happend
    exact Prod.ext hp (List.append_cancel_left happend)
  have happend := next_append c cs
  rw [← hcs] at happend
  cases h with
  | blank hblank =>
    obtain ⟨rfl, rfl⟩ := List.cons.inj hcs
    exact if_pos (isBlankChar_iff.2 hblank)
  | lineComment htext hrest =>
    obtain ⟨rfl, rfl⟩ := List.cons.inj hcs
    exact next_lineComment_of htext hrest
  | blockComment htext =>
    obtain ⟨rfl, rfl⟩ := List.cons.inj hcs
    exact next_blockComment_of htext _
  | openComment htext =>
    rw [List.append_nil] at hcs
    obtain ⟨rfl, rfl⟩ := List.cons.inj hcs
    rw [next_blockComment, splitComment_eq_self _ htext]
    rfl
  | token hlexeme hcomment hlongest =>
    exact hfirst ((next_wellCut c cs).eq_token hlexeme hcomment hlongest happend)
  | refused hblank hquote hnone =>
    exact hfirst ((next_wellCut c cs).eq_refused hblank hquote hnone happend)
  | openString htext =>
    rw [List.append_nil] at hcs
    obtain ⟨rfl, rfl⟩ := List.cons.inj hcs
    obtain ⟨htake, hdrop⟩ := takeWhile_ne_of_not_mem htext
    rw [Piece.next_eq, opening_quote]
    simp only [string, htake, hdrop]

theorem WellCut.chars_ne_nil {p : Piece} {rest : List Char} (h : WellCut p rest) :
    p.chars ≠ [] := by
  cases h with
  | token hlexeme =>
    obtain ⟨c, cs, hcs, -⟩ := hlexeme.opens
    rw [chars, hcs]
    exact List.cons_ne_nil c cs
  | _ => exact List.cons_ne_nil _ _

/-- A text is cut into well cut pieces in one way only. -/
theorem AllWellCut.split_eq {ps : List Piece} (h : AllWellCut ps) :
    split (ps.flatMap chars) = ps := by
  induction h with
  | nil => exact split_nil
  | @cons p ps hp hps ih =>
    rw [List.flatMap_cons]
    cases hcs : p.chars ++ ps.flatMap chars with
    | nil => exact absurd (List.append_eq_nil_iff.1 hcs).1 hp.chars_ne_nil
    | cons c cs => rw [split_cons, hp.next_eq hcs, ih]

end Piece
end Lox
