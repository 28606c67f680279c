import Lox.Proofs.Token.Cursor

/-!
# The cursor finds the pieces

Each part of the scan of bytes is followed from the first byte of a piece to the byte after it. The
cursor then stands after the characters of the piece, on the line on which the piece ends, and it
has found the kind or the error of the piece. So no part breaks down if there are more turns than
bytes: the cursor asks for no byte past the end, and it cuts the text between characters only.
-/

set_option autoImplicit false

namespace Lox

namespace Piece

def kind? : Piece → Option Kind
  | .token kind _ => some kind
  | _ => none

/-- The point and the digits of a fraction at the front. -/
def fraction : List Char → List Char
  | '.' :: d :: more => if d.isDigit then '.' :: (d :: more).takeWhile Char.isDigit else []
  | _ => []

theorem fraction_point (d : Char) (more : List Char) : fraction ('.' :: d :: more) =
    if d.isDigit then '.' :: (d :: more).takeWhile Char.isDigit else [] := rfl

theorem fraction_other {rest : List Char} (h : ∀ d more, rest ≠ '.' :: d :: more) :
    fraction rest = [] := by
  unfold fraction
  split
  · exact absurd rfl (h _ _)
  · rfl

theorem splitNumber_fst (cs : List Char) :
    (splitNumber cs).1 = cs.takeWhile Char.isDigit ++ fraction (cs.dropWhile Char.isDigit) := by
  unfold splitNumber
  split
  · rename_i d more hdrop
    rw [hdrop, fraction_point]
    split
    · rfl
    · exact (List.append_nil _).symm
  · rename_i hother
    rw [fraction_other hother, List.append_nil]

theorem splitComment_passed (passed cs : List Char) :
    ∃ body, (splitComment passed cs).1 = passed.reverse ++ body := by
  by_cases h : ['*', '/'] <:+: cs
  · obtain ⟨text, htext⟩ := splitComment_of_infix passed h
    exact ⟨text ++ ['*', '/'], htext⟩
  · rw [splitComment_eq_self passed h]
    exact ⟨cs, rfl⟩

/-- The error that a piece gives if it starts on the line. -/
def error? (line : Nat) (p : Piece) : Option LexError :=
  (p.item? line).bind Item.error?

end Piece

open Piece

namespace Cursor

/-- The cursor after a piece that starts on the line. -/
def past (before : List Char) (line : Nat) (p : Piece) : Cursor :=
  within before p.chars (line + p.newlines) p.kind?

theorem found_eq (kind : Kind) (before passed : List Char) (line : Nat) (pending : Option Kind) :
    found kind (within before passed line pending) =
      .ok (none, within before passed line (some kind)) := rfl

theorem sameClass_digit : SameClass isDigitByte Char.isDigit :=
  SameClass.between (by decide) (by decide)

theorem sameClass_nameStart : SameClass isNameStartByte isNameStart := by
  have hlower : SameClass (fun b => 'a'.toUInt8 ≤ b && b ≤ 'z'.toUInt8)
      (fun c => 'a' ≤ c && c ≤ 'z') := SameClass.between (by decide) (by decide)
  have hupper : SameClass (fun b => 'A'.toUInt8 ≤ b && b ≤ 'Z'.toUInt8)
      (fun c => 'A' ≤ c && c ≤ 'Z') := SameClass.between (by decide) (by decide)
  have hline : SameClass (fun b => b == '_'.toUInt8) (fun c => c == '_') := SameClass.eq (by decide)
  have hclass := (hlower.or hupper).or hline
  intro c b hb
  have hchar : isNameStart c = ('a' ≤ c && c ≤ 'z' || 'A' ≤ c && c ≤ 'Z' || c == '_') := by
    have hup : c.isUpper = ('A' ≤ c && c ≤ 'Z') := Bool.decide_and _ _
    have hlow : c.isLower = ('a' ≤ c && c ≤ 'z') := rfl
    have halpha : c.isAlpha = (c.isUpper || c.isLower) := rfl
    rw [isNameStart, halpha, hup, hlow, Bool.or_comm (_ && _)]
  rw [hchar]
  exact hclass c b hb

theorem sameClass_nameChar : SameClass isNameByte isNameChar := by
  have hclass := sameClass_nameStart.or sameClass_digit
  intro c b hb
  have hchar : isNameChar c = (isNameStart c || c.isDigit) := by
    have halphanum : c.isAlphanum = (c.isAlpha || c.isDigit) := rfl
    rw [isNameChar, isNameStart, halphanum, Bool.or_right_comm]
  rw [hchar]
  exact hclass c b hb

theorem get_eq (k : Cursor) : (get : CursorM Cursor) k = .ok (k, k) := rfl

section Parts
variable {text : String} {before rest : List Char} {line turns : Nat}

theorem split_run (before passed rest : List Char) (q : Char → Bool) :
    before ++ passed ++ rest =
      before ++ (passed ++ rest.takeWhile q) ++ rest.dropWhile q := by
  simp [List.append_assoc]

/-- A string is scanned up to its closing quote, or to the end. -/
theorem scanString_eq (h : text.toList = before ++ ['"'] ++ rest)
    (hturns : (bytesOf text).length < turns) :
    scanString text turns (within before ['"'] line none) =
      .ok ((string rest).1.error? line, past before line (string rest).1) := by
  have hpassed := h.trans (split_run before ['"'] rest (· != '"'))
  have hcount : ('"' :: rest.takeWhile (· != '"')).count '\n' =
      (rest.takeWhile (· != '"')).count '\n' := List.count_cons_of_ne (by decide)
  rw [scanString, bind_ok (get_eq _), bind_ok (skipContents_within h hturns),
    bind_ok (isAtEnd_within hpassed), string]
  cases hdrop : rest.dropWhile (· != '"') with
  | nil =>
    simp only [List.isEmpty_nil, if_true, past, newlines, chars, hcount]
    rfl
  | cons quote more =>
    have hquote := List.head_dropWhile_not (· != '"') (l := rest) (by simp [hdrop])
    simp only [hdrop, List.head_cons, bne_eq_false_iff_eq] at hquote
    subst hquote
    rw [hdrop] at hpassed
    simp only [List.isEmpty_cons, Bool.false_eq_true, if_false]
    rw [bind_ok (advance_within (by decide) hpassed), bind_ok (get_eq _)]
    -- The quotes are a byte each, so that the contents lie between characters.
    have hcontents : text.toList = before ++ ['"'] ++ rest.takeWhile (· != '"') ++ '"' :: more := by
      rw [hpassed]
      simp
    generalize rest.takeWhile (· != '"') = contents at hcontents hcount ⊢
    have hstart : (within before (['"'] ++ contents ++ ['"']) (line + contents.count '\n')
        none).start + 1 = (utf8 (before ++ ['"'])).length := by
      rw [utf8_append, List.length_append]
      rfl
    have hstop : (within before (['"'] ++ contents ++ ['"']) (line + contents.count '\n')
        none).curr - 1 = (utf8 (before ++ ['"'] ++ contents)).length := by
      have hone : (utf8 ['"']).length = 1 := rfl
      simp only [within, utf8_append, List.length_append, hone]
      omega
    have hnewlines : ('"' :: contents ++ ['"']).count '\n' = contents.count '\n' := by
      rw [List.count_append, hcount]
      rfl
    rw [hstart, hstop, bind_ok (textBetween_eq hcontents _), found_eq]
    simp only [past, newlines, chars, hnewlines]
    rfl

/-- A token that is no string leaves the cursor on its line. -/
theorem past_token {kind : Kind} {chars : List Char} (hlexeme : Lexeme kind chars)
    (hopening : kind.opening ≠ some .string) :
    past before line (.token kind chars) = within before chars line (some kind) := by
  have hcount : chars.count '\n' = 0 :=
    List.count_eq_zero.2 (hlexeme.newline_not_mem hopening)
  simp only [past, newlines, Piece.chars, hcount]
  rfl

/-- A point is passed only together with a digit. -/
theorem skipFraction_eq {passed : List Char} (h : text.toList = before ++ passed ++ rest)
    (hturns : (bytesOf text).length < turns) :
    skipFraction text turns (within before passed line none) =
      .ok ((), within before (passed ++ fraction rest) line none) := by
  have hpoint : SameClass (fun b => b == '.'.toUInt8) (fun c => c == '.') :=
    SameClass.eq (by decide)
  have hfirst : ((utf8 rest).headD 0 == '.'.toUInt8) = rest.head?.any (· == '.') :=
    headD_utf8 hpoint rfl
  rw [skipFraction, bind_ok (peek_within h), hfirst]
  by_cases hfraction : ∃ d more, rest = '.' :: d :: more
  · obtain ⟨d, more, rfl⟩ := hfraction
    have hdrop : (bytesOf text).drop (within before passed line none).curr =
        '.'.toUInt8 :: utf8 (d :: more) := drop_within h
    have hdigit : isDigitByte ((utf8 (d :: more)).headD 0) = d.isDigit :=
      headD_utf8 sameClass_digit rfl
    simp only [List.head?_cons, Option.any_some, beq_self_eq_true, if_true]
    rw [bind_ok (peekNext_eq hdrop), hdigit, fraction_point]
    cases d.isDigit with
    | false =>
      simp only [Bool.false_eq_true, if_false, List.append_nil]
      rfl
    | true =>
      have hmore : text.toList = before ++ (passed ++ ['.']) ++ d :: more := by
        rw [h]
        simp
      simp only [if_true]
      rw [bind_ok (advance_within (by decide) h),
        skipWhile_within hmore sameClass_digit rfl hturns, List.append_assoc]
      rfl
  · rw [fraction_other fun d more hrest => hfraction ⟨d, more, hrest⟩, List.append_nil]
    cases rest with
    | nil => rfl
    | cons c rest =>
      cases rest with
      | cons d more =>
        have hc : (c == '.') = false := by
          rw [beq_eq_false_iff_ne]
          rintro rfl
          exact hfraction ⟨d, more, rfl⟩
        simp only [List.head?_cons, Option.any_some, hc, Bool.false_eq_true, if_false]
        rfl
      | nil =>
        by_cases hc : c = '.'
        · subst hc
          have hdrop : (bytesOf text).drop (within before passed line none).curr =
              '.'.toUInt8 :: [] := drop_within h
          simp only [List.head?_cons, Option.any_some, beq_self_eq_true, if_true]
          rw [bind_ok (peekNext_eq hdrop)]
          rfl
        · simp only [List.head?_cons, Option.any_some, beq_eq_false_iff_ne.2 hc, Bool.false_eq_true,
            if_false]
          rfl

/-- A number is scanned with its fraction. -/
theorem scanNumber_eq {c : Char} (hc : c.isDigit = true) (h : text.toList = before ++ [c] ++ rest)
    (hturns : (bytesOf text).length < turns) :
    scanNumber text turns (within before [c] line none) =
      .ok (none, past before line (.token (.number (Number.read (splitNumber (c :: rest)).1))
        (splitNumber (c :: rest)).1)) := by
  have hdigits := h.trans (split_run before [c] rest Char.isDigit)
  have hnumber : [c] ++ rest.takeWhile Char.isDigit ++ fraction (rest.dropWhile Char.isDigit) =
      (splitNumber (c :: rest)).1 := by
    rw [splitNumber_fst, List.takeWhile_cons_of_pos hc, List.dropWhile_cons_of_pos hc]
    rfl
  have hpassed : text.toList = before ++ (splitNumber (c :: rest)).1 ++
      (splitNumber (c :: rest)).2 := by
    rw [List.append_assoc, splitNumber_append, h]
    simp
  rw [past_token (splitNumber_lexeme hc rest) (by simp [Kind.opening]), scanNumber,
    bind_ok (skipWhile_within h sameClass_digit rfl hturns),
    bind_ok (skipFraction_eq hdigits hturns), hnumber, bind_ok (lexeme_within hpassed),
    String.toList_ofList]
  rfl

/-- The bytes of a name tell whether it is a reserved word. -/
theorem keyword_of_bytes (name : List Char) :
    (Keyword.all.find? fun word => bytesOf word.text == utf8 name) =
      Keyword.ofText? (String.ofList name) := by
  have hword (word : Keyword) :
      (bytesOf word.text == utf8 name) = (word.text == String.ofList name) := by
    have hname : utf8 name = bytesOf (String.ofList name) := by
      rw [bytesOf_eq, String.toList_ofList]
    rw [hname, Bool.eq_iff_iff, beq_iff_eq, beq_iff_eq]
    exact bytesOf_inj
  simp only [hword]
  rfl

/-- A name is scanned to its last character. -/
theorem scanName_eq {c : Char} (hc : isNameStart c = true) (h : text.toList = before ++ [c] ++ rest)
    (hturns : (bytesOf text).length < turns) :
    scanName text turns (within before [c] line none) =
      .ok (none, past before line (.token (nameKind (c :: rest.takeWhile isNameChar))
        (c :: rest.takeWhile isNameChar))) := by
  have hpassed := h.trans (split_run before [c] rest isNameChar)
  have hlexeme : Lexeme (nameKind (c :: rest.takeWhile isNameChar))
      (c :: rest.takeWhile isNameChar) := nameKind_lexeme hc (List.all_eq_true.1 List.all_takeWhile)
  have hopening : (nameKind (c :: rest.takeWhile isNameChar)).opening ≠ some .string := by
    unfold nameKind
    split <;> simp [Kind.opening]
  rw [past_token hlexeme hopening, scanName,
    bind_ok (skipWhile_within h sameClass_nameChar rfl hturns), bind_ok (get_eq _), within_start,
    within_curr, bind_ok (bytesBetween_eq hpassed _), keyword_of_bytes, List.singleton_append]
  unfold nameKind
  cases Keyword.ofText? (String.ofList (c :: rest.takeWhile isNameChar)) with
  | none => rfl
  | some word => rfl

/-- A line comment is skipped up to the line break. -/
theorem skipLineComment_eq (h : text.toList = before ++ ['/', '/'] ++ rest) :
    skipLineComment text (within before ['/', '/'] line none) =
      .ok (none, past before line (.comment ('/' :: '/' :: rest.takeWhile (· != '\n')))) := by
  have hnewline : SameClass (fun b => !(b == '\n'.toUInt8)) (fun c => c != '\n') :=
    (SameClass.eq (by decide)).not
  have hcurr : ((utf8 rest).findIdx? (· == '\n'.toUInt8)).elim (bytesOf text).length
      ((within before ['/', '/'] line none).curr + ·) =
      (within before ['/', '/'] line none).curr + (utf8 (rest.takeWhile (· != '\n'))).length := by
    rw [← hnewline.takeWhile_utf8, ← findIdx?_elim, length_bytesOf h]
    cases (utf8 rest).findIdx? (· == '\n'.toUInt8) with
    | none => rfl
    | some n => rfl
  have hcount : ('/' :: '/' :: rest.takeWhile (· != '\n')).count '\n' = 0 := by
    rw [List.count_cons_of_ne (by decide), List.count_cons_of_ne (by decide), List.count_eq_zero]
    exact not_mem_takeWhile_ne '\n' rest
  rw [skipLineComment, bind_ok (get_eq _), bind_ok (bytesBetween_rest h _), hcurr]
  simp only [past, newlines, chars, hcount]
  rw [within_append]
  rfl

/-- A block comment is skipped with its end, and its line breaks are counted. -/
theorem skipBlockComment_eq (h : text.toList = before ++ ['/', '*'] ++ rest) :
    skipBlockComment text (within before ['/', '*'] line none) =
      .ok (none, past before line (.comment (splitComment ['*', '/'] rest).1)) := by
  obtain ⟨body, hbody⟩ := splitComment_passed ['*', '/'] rest
  have happend := splitComment_append ['*', '/'] rest
  have hlength := length_splitComment ['*', '/'] rest
  generalize (splitComment ['*', '/'] rest).1 = comment at *
  generalize (splitComment ['*', '/'] rest).2 = after at happend
  subst hbody
  have hrest : rest = body ++ after := by
    rw [List.append_assoc] at happend
    exact (List.append_cancel_left happend).symm
  have hbytes : (findWord? (utf8 ['*', '/']) (utf8 rest)).elim (utf8 rest).length (· + 2) =
      (utf8 body).length := by
    have htwo : (utf8 ['*', '/'].reverse).length = (utf8 ['*', '/']).length := rfl
    rw [utf8_append, List.length_append, htwo] at hlength
    exact (Nat.add_left_cancel hlength).symm
  have htext : text.toList = before ++ ['/', '*'] ++ body ++ after := by
    rw [h, hrest, List.append_assoc _ body after]
  have hstop : (within before ['/', '*'] line none).curr + (utf8 body).length =
      (utf8 (before ++ ['/', '*'] ++ body)).length := by
    rw [utf8_append _ body, List.length_append]
    rfl
  have hcount : (['*', '/'].reverse ++ body).count '\n' = body.count '\n' := by
    rw [List.count_append]
    exact Nat.zero_add _
  rw [skipBlockComment, bind_ok (get_eq _), bind_ok (bytesBetween_rest h _)]
  rw [hbytes, hstop, within_curr, bind_ok (bytesBetween_eq htext _), count_utf8 (by decide)]
  simp only [past, newlines, chars, hcount]
  rw [List.append_assoc]
  rfl

/-- What follows a slash decides whether a comment starts. -/
theorem scanSlash_eq (h : text.toList = before ++ ['/'] ++ rest) :
    scanSlash text (within before ['/'] line none) =
      .ok ((markPiece '/' rest).1.error? line, past before line (markPiece '/' rest).1) := by
  rw [scanSlash]
  by_cases hline : ∃ more, rest = '/' :: more
  · obtain ⟨more, rfl⟩ := hline
    have hmore : text.toList = before ++ ['/', '/'] ++ more := by
      rw [h]
      simp
    rw [bind_ok (matchByte_within (by decide) h)]
    exact skipLineComment_eq hmore
  have hnoLine : rest.head? ≠ some '/' := by
    intro hhead
    exact hline ⟨_, List.eq_cons_of_mem_head? hhead⟩
  rw [bind_ok (matchByte_other (by decide) hnoLine h)]
  simp only [Bool.false_eq_true, if_false]
  by_cases hblock : ∃ more, rest = '*' :: more
  · obtain ⟨more, rfl⟩ := hblock
    have hmore : text.toList = before ++ ['/', '*'] ++ more := by
      rw [h]
      simp
    rw [bind_ok (matchByte_within (by decide) h)]
    exact skipBlockComment_eq hmore
  have hnoBlock : rest.head? ≠ some '*' := by
    intro hhead
    exact hblock ⟨_, List.eq_cons_of_mem_head? hhead⟩
  have hslash : markPiece '/' rest = symbolPiece '/' rest := by
    unfold markPiece
    split
    · exact absurd ⟨_, rfl⟩ hline
    · exact absurd ⟨_, rfl⟩ hblock
    · rfl
  rw [bind_ok (matchByte_other (by decide) hnoBlock h), hslash]
  exact (congrArg (fun k => Except.ok (none, k))
    (past_token (.symbol .slash) (by simp [Kind.opening]))).symm

/-- A character that starts nothing is refused as a whole, whatever its first byte. -/
theorem refuse_eq {c : Char} (h : text.toList = before ++ [c] ++ rest) (k : Cursor)
    (hstart : k.start = (utf8 before).length) :
    refuse text k = .ok (some ⟨k.line, .unexpectedCharacter c⟩,
      { k with curr := (utf8 (before ++ [c])).length }) := by
  have hrest : text.toList = before ++ c :: rest ++ [] := by
    rw [h]
    simp
  have hlength : (bytesOf text).length = (utf8 (before ++ c :: rest)).length := by
    rw [bytesOf_eq, hrest, List.append_nil]
  have hcurr : (utf8 (before ++ [c])).length = (utf8 before).length + c.utf8Size := by
    rw [utf8_append, List.length_append, length_utf8_cons, String.length_utf8EncodeChar]
    rfl
  rw [refuse, bind_ok (get_eq _), hstart, hlength, bind_ok (textBetween_eq hrest _),
    String.toList_ofList, hcurr]
  rfl

end Parts

/-! ## One piece -/

/-- A symbol of one character that starts no other one is a piece whatever follows. -/
theorem next_single {s : Symbol} (hs : s ∈ singles) :
    ∃ c, s.chars = [c] ∧ c.toNat ≤ 127 ∧
      ∀ rest, next c rest = (.token (.symbol s) s.chars, rest) := by
  simp only [singles, List.mem_cons, List.not_mem_nil, or_false] at hs
  rcases hs with rfl | rfl | rfl | rfl | rfl | rfl | rfl | rfl | rfl | rfl <;>
    exact ⟨_, rfl, by decide, fun _ => rfl⟩

theorem symbol_second (s : Symbol) : s.chars.length ≤ 1 ∨ ∃ c, s.chars = [c, '='] := by
  cases s
  case bangEqual | equalEqual | greaterEqual | lessEqual => exact Or.inr ⟨_, rfl⟩
  all_goals exact Or.inl (Nat.le_refl 1)

/-- A symbol of one character is a piece if neither a comment starts nor a `=` follows. -/
theorem next_symbol {s : Symbol} {c : Char} {rest : List Char} (hs : s.chars = [c])
    (hcomment : ¬ StartsComment (c :: rest)) (hrest : rest.head? ≠ some '=') :
    next c rest = (.token (.symbol s) s.chars, rest) := by
  have hcs : s.chars ++ rest = c :: rest := by rw [hs, List.singleton_append]
  have hcut : WellCut (.token (.symbol s) s.chars) rest := by
    refine .of_longest hcs (.symbol s) (fun _ => hcomment) ?_
    intro kind text h hopening hfront
    rw [opening_symbol s hs] at hopening
    obtain ⟨t, -, rfl⟩ := h.symbol_of_opening hopening
    rw [hs, List.length_singleton]
    rcases symbol_second t with hshort | ⟨d, ht⟩
    · exact hshort
    · rw [ht] at hfront
      obtain ⟨more, rfl⟩ := (List.cons_prefix_cons.1 hfront).2
      exact absurd rfl hrest
  exact hcut.next_eq hcs

/-- A symbol that a `=` goes on with is a piece if none follows. -/
theorem next_double {e : Symbol × Symbol} (he : e ∈ doubles) :
    ∃ c, e.1.chars = [c] ∧ e.2.chars = [c, '='] ∧ c.toNat ≤ 127 ∧
      (∀ rest, next c ('=' :: rest) = (.token (.symbol e.2) e.2.chars, rest)) ∧
      ∀ rest, rest.head? ≠ some '=' → next c rest = (.token (.symbol e.1) e.1.chars, rest) := by
  have hcomment {c : Char} (hc : c ≠ '/') (rest : List Char) : ¬ StartsComment (c :: rest) := by
    rintro (h | h)
    · exact hc (List.cons_prefix_cons.1 h).1.symm
    · exact hc (List.cons_prefix_cons.1 h).1.symm
  simp only [doubles, List.mem_cons, List.not_mem_nil, or_false] at he
  rcases he with rfl | rfl | rfl | rfl
  all_goals
    refine ⟨_, rfl, rfl, by decide, fun _ => rfl, fun rest hrest => ?_⟩
    exact next_symbol rfl (hcomment (by decide) rest) hrest

/-- A character that no symbol starts with is refused where it opens nothing else. -/
theorem next_refused {c : Char} (hopening : opening c = .mark)
    (hnone : ∀ s : Symbol, s.chars.head? ≠ some c) (rest : List Char) :
    next c rest = (.refused c, rest) := by
  have hclass := opening_class c
  rw [hopening] at hclass
  have hblank : c ∉ [' ', '\r', '\t', '\n'] := by
    rw [← isBlankChar_iff, hclass.1]
    exact Bool.false_ne_true
  have hcut : WellCut (.refused c) rest := by
    refine .refused hblank hclass.2 ?_
    intro kind text h hfront
    obtain ⟨c', cs, rfl, hkind⟩ := h.opens
    obtain ⟨rfl, -⟩ := List.cons_prefix_cons.1 hfront
    rw [hopening] at hkind
    obtain ⟨s, -, hs⟩ := h.symbol_of_opening hkind
    exact hnone s (by rw [← hs]; rfl)
  exact hcut.next_eq rfl

/-- Every symbol starts like one of the tables, or with a slash. -/
theorem symbol_first (s : Symbol) :
    s.chars.head? = some '/' ∨ (∃ t ∈ singles, s.chars.head? = t.chars.head?) ∨
      ∃ e ∈ doubles, s.chars.head? = e.1.chars.head? := by
  cases s <;> decide

section OnePiece
variable {text : String} {before rest : List Char} {line turns : Nat} {c : Char} {b : UInt8}

/-- The cursor after the first byte of a piece, which need not be a whole character. -/
def afterByte (before : List Char) (line : Nat) : Cursor :=
  ⟨(utf8 before).length, (utf8 before).length + 1, line, none⟩

theorem afterByte_ascii (hc : c.toNat ≤ 127) (before : List Char) (line : Nat) :
    afterByte before line = within before [c] line none := by
  rw [within, utf8_append, utf8_cons, utf8EncodeChar_ascii hc, List.length_append]
  rfl

theorem found_symbol (s : Symbol) :
    found (.symbol s) (within before s.chars line none) =
      .ok (none, past before line (.token (.symbol s) s.chars)) := by
  rw [past_token (.symbol s) (by simp [Kind.opening])]
  rfl

/-- A table tells by the first byte which character of ASCII stands there. -/
theorem eq_of_utf8_eq {d : Char} (hd : d.toNat ≤ 127) (hb : b ∈ String.utf8EncodeChar c) :
    utf8 [d] = [b] ↔ c = d := by
  have hbytes : utf8 [d] = [d.toUInt8] := by
    rw [utf8_cons, utf8EncodeChar_ascii hd]
    rfl
  rw [hbytes, List.singleton_inj, ← byte_eq_iff hd hb]
  exact eq_comm

theorem scanFrom_single {s : Symbol} (hb : b ∈ String.utf8EncodeChar c)
    (hs : singles.find? (fun s => utf8 s.chars == [b]) = some s) :
    scanFrom text turns b (afterByte before line) =
      .ok ((next c rest).1.error? line, past before line (next c rest).1) := by
  obtain ⟨d, hchars, hd, hnext⟩ := next_single (List.mem_of_find?_eq_some hs)
  have hbyte := eq_of_beq (List.find?_some (p := fun s : Symbol => utf8 s.chars == [b]) hs)
  rw [hchars, eq_of_utf8_eq hd hb] at hbyte
  subst hbyte
  rw [hnext, scanFrom, hs, afterByte_ascii hd, ← hchars]
  exact found_symbol s

theorem scanFrom_double {e : Symbol × Symbol} (h : text.toList = before ++ [c] ++ rest)
    (hb : b ∈ String.utf8EncodeChar c)
    (hsingle : singles.find? (fun s => utf8 s.chars == [b]) = none)
    (he : doubles.find? (fun e => utf8 e.1.chars == [b]) = some e) :
    scanFrom text turns b (afterByte before line) =
      .ok ((next c rest).1.error? line, past before line (next c rest).1) := by
  obtain ⟨d, hshort, hlong, hd, hnext, hnext'⟩ := next_double (List.mem_of_find?_eq_some he)
  have hbyte := eq_of_beq
    (List.find?_some (p := fun e : Symbol × Symbol => utf8 e.1.chars == [b]) he)
  rw [hshort, eq_of_utf8_eq hd hb] at hbyte
  subst hbyte
  rw [scanFrom, hsingle, he, afterByte_ascii hd]
  dsimp only
  by_cases hequal : ∃ more, rest = '=' :: more
  · obtain ⟨more, rfl⟩ := hequal
    rw [bind_ok (matchByte_within (by decide) h), hnext, List.singleton_append, ← hlong]
    exact found_symbol e.2
  · have hrest : rest.head? ≠ some '=' := by
      intro hhead
      exact hequal ⟨_, List.eq_cons_of_mem_head? hhead⟩
    rw [bind_ok (matchByte_other (by decide) hrest h), hnext' rest hrest, ← hshort]
    exact found_symbol e.1

/-- Where the tables have nothing, no symbol but the slash starts with the character. -/
theorem symbol_head_ne (hb : b ∈ String.utf8EncodeChar c)
    (hsingle : singles.find? (fun s => utf8 s.chars == [b]) = none)
    (hdouble : doubles.find? (fun e => utf8 e.1.chars == [b]) = none) (hslash : c ≠ '/')
    (s : Symbol) : s.chars.head? ≠ some c := by
  intro hs
  rcases symbol_first s with hfirst | ⟨t, ht, hfirst⟩ | ⟨e, he, hfirst⟩
  · rw [hfirst] at hs
    exact hslash (Option.some.inj hs).symm
  · obtain ⟨d, hchars, hd, -⟩ := next_single ht
    rw [hfirst, hchars] at hs
    refine List.find?_eq_none.1 hsingle t ht (beq_iff_eq.2 ?_)
    rw [hchars, eq_of_utf8_eq hd hb]
    exact (Option.some.inj hs).symm
  · obtain ⟨d, hchars, -, hd, -⟩ := next_double he
    rw [hfirst, hchars] at hs
    refine List.find?_eq_none.1 hdouble e he (beq_iff_eq.2 ?_)
    rw [hchars, eq_of_utf8_eq hd hb]
    exact (Option.some.inj hs).symm

/-- A blank is passed, and a line break is counted. -/
theorem past_blank (c : Char) (before : List Char) (line : Nat) :
    past before line (.blank c) =
      within before [c] (if c = '\n' then line + 1 else line) none := by
  simp only [past, newlines, chars, kind?, List.count_singleton]
  by_cases hc : c = '\n'
  · simp [hc]
  · simp [hc]

/-- Each test of the first byte is a test of the first character. -/
theorem scanOther_eq (h : text.toList = before ++ [c] ++ rest)
    (hturns : (bytesOf text).length < turns) (hb : b ∈ String.utf8EncodeChar c)
    (hnone : c ≠ '/' → ∀ s : Symbol, s.chars.head? ≠ some c) :
    scanOther text turns b (afterByte before line) =
      .ok ((next c rest).1.error? line, past before line (next c rest).1) := by
  have htest (d : Char) (hd : d.toNat ≤ 127) : (b == d.toUInt8) = (c == d) :=
    SameClass.eq hd c b hb
  have hclass := opening_class c
  rw [scanOther, Piece.next_eq, htest ' ' (by decide), htest '\r' (by decide),
    htest '\t' (by decide), htest '\n' (by decide), htest '/' (by decide), htest '"' (by decide),
    sameClass_digit c b hb, sameClass_nameStart c b hb]
  by_cases hnewline : c = '\n'
  · subst hnewline
    rw [afterByte_ascii (c := '\n') (by decide)]
    rfl
  by_cases hslash : c = '/'
  · subst hslash
    rw [afterByte_ascii (c := '/') (by decide)]
    exact scanSlash_eq h
  have hne (d : Char) (hd : opening d ≠ opening c) : (c == d) = false := by
    rw [beq_eq_false_iff_ne]
    rintro rfl
    exact hd rfl
  rw [beq_eq_false_iff_ne.2 hnewline, beq_eq_false_iff_ne.2 hslash]
  cases hopening : opening c with
  | blank =>
    rw [hopening] at hclass
    have hspace : (c == ' ' || c == '\r' || c == '\t') = true := by
      simpa [isBlankChar, hnewline] using hclass
    have hascii : c.toNat ≤ 127 := by
      simp only [Bool.or_eq_true, beq_iff_eq] at hspace
      rcases hspace with (rfl | rfl) | rfl <;> decide
    rw [if_pos hspace, afterByte_ascii hascii, past_blank, if_neg hnewline]
    rfl
  | string =>
    rw [hopening] at hclass
    subst hclass
    rw [afterByte_ascii (c := '"') (by decide)]
    exact scanString_eq h hturns
  | number =>
    rw [hopening] at hclass
    have hascii : c.toNat ≤ 127 := Nat.le_trans (isDigit_iff.1 hclass).2 (by decide)
    rw [hopening] at hne
    rw [hne ' ' (by decide), hne '\r' (by decide), hne '\t' (by decide), hne '"' (by decide),
      hclass, afterByte_ascii hascii]
    exact scanNumber_eq hclass h hturns
  | name =>
    rw [hopening] at hclass
    have hascii : c.toNat ≤ 127 := by
      rcases isNameStart_iff.1 hclass with hc | hc | rfl
      · omega
      · omega
      · decide
    rw [hopening] at hne
    rw [hne ' ' (by decide), hne '\r' (by decide), hne '\t' (by decide), hne '"' (by decide),
      isDigit_of_isNameStart hclass, hclass, afterByte_ascii hascii]
    exact scanName_eq hclass h hturns
  | mark =>
    have hdigit : c.isDigit = false := by
      apply eq_false_of_ne_true
      intro hdigit
      rw [opening_digit hdigit] at hopening
      cases hopening
    have hname : isNameStart c = false := by
      apply eq_false_of_ne_true
      intro hname
      rw [opening_nameStart hname] at hopening
      cases hopening
    have hnext := next_refused hopening (hnone hslash) rest
    rw [Piece.next_eq, hopening] at hnext
    rw [hopening] at hne
    dsimp only at hnext ⊢
    rw [hne ' ' (by decide), hne '\r' (by decide), hne '\t' (by decide), hne '"' (by decide),
      hdigit, hname, hnext]
    simp only [Bool.or_self, Bool.false_eq_true, if_false]
    rw [refuse_eq h _ rfl]
    simp only [past, newlines, chars, List.count_singleton, beq_eq_false_iff_ne.2 hnewline]
    rfl

/-- The scan of a piece after its first byte finds the piece of its first character. -/
theorem scanFrom_eq (h : text.toList = before ++ [c] ++ rest)
    (hturns : (bytesOf text).length < turns) (hb : b ∈ String.utf8EncodeChar c) :
    scanFrom text turns b (afterByte before line) =
      .ok ((next c rest).1.error? line, past before line (next c rest).1) := by
  cases hsingle : singles.find? (fun s => utf8 s.chars == [b]) with
  | some s => exact scanFrom_single hb hsingle
  | none =>
    cases hdouble : doubles.find? (fun e => utf8 e.1.chars == [b]) with
    | some e => exact scanFrom_double h hb hsingle hdouble
    | none =>
      rw [scanFrom, hsingle, hdouble]
      exact scanOther_eq h hturns hb (symbol_head_ne hb hsingle hdouble)

/-- The scan of a piece finds the first piece of the rest of the text. -/
theorem scanPiece_eq (h : text.toList = before ++ c :: rest)
    (hturns : (bytesOf text).length < turns) :
    scanPiece text turns (within before [] line none) =
      .ok ((next c rest).1.error? line, past before line (next c rest).1) := by
  obtain ⟨b, bs, hb⟩ := utf8EncodeChar_eq_cons c
  have hstart : text.toList = before ++ [] ++ c :: rest := by rw [h, List.append_nil]
  have hdrop : (bytesOf text).drop (within before [] line none).curr = b :: (bs ++ utf8 rest) := by
    rw [drop_within hstart, utf8_cons, hb]
    rfl
  have hafter : { within before [] line none with curr := (within before [] line none).curr + 1 } =
      afterByte before line := by
    rw [within, List.append_nil]
    rfl
  have hpassed : text.toList = before ++ [c] ++ rest := by
    rw [h]
    simp
  rw [scanPiece, bind_ok (advance_eq hdrop), hafter]
  apply scanFrom_eq hpassed hturns
  rw [hb]
  exact List.mem_cons_self

end OnePiece

end Cursor

end Lox
