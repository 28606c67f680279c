import Lox.Proofs.Token.Bytes

/-!
# Scanning bytes

A text can be scanned in place, with a cursor into its bytes that knows nothing of characters. Such
a scan breaks down if it asks for a byte past the end or for a slice that does not lie between
characters, and it may be endless. The number of turns that a loop may take is a parameter, so that
an endless loop shows as one that uses up any number of turns.
-/

set_option autoImplicit false

namespace Lox

/-- Why a scan of bytes yields nothing. -/
inductive Breakdown where
  | noByte (i : Nat)
  | noSlice (start stop : Nat)
  /-- A loop has used up its turns. -/
  | outOfTurns
  deriving DecidableEq, Repr

/-- Where a scan of bytes stands. -/
structure Cursor where
  /-- Where the piece starts that is being scanned. -/
  start : Nat
  curr : Nat
  line : Nat
  /-- The kind of the token that has been found. -/
  pending : Option Kind
  deriving DecidableEq, Repr

abbrev CursorM := StateT Cursor (Except Breakdown)

namespace Cursor

def initial : Cursor :=
  ⟨0, 0, 1, none⟩

variable (text : String)

/-! ## Bytes and slices -/

def byteAt (i : Nat) : CursorM UInt8 :=
  match (bytesOf text)[i]? with
  | some b => return b
  | none => throw (.noByte i)

/-- The bytes from one index to another. -/
def bytesBetween (start stop : Nat) : CursorM (List UInt8) :=
  if start ≤ stop ∧ stop ≤ (bytesOf text).length then
    return ((bytesOf text).take stop).drop start
  else throw (.noSlice start stop)

/-- The text from one index to another, both of which have to be between characters. -/
def textBetween (start stop : Nat) : CursorM String :=
  if start ≤ stop ∧ String.Pos.Raw.IsValid text ⟨start⟩ ∧ String.Pos.Raw.IsValid text ⟨stop⟩ then
    return String.Pos.Raw.extract text ⟨start⟩ ⟨stop⟩
  else throw (.noSlice start stop)

def isAtEnd : CursorM Bool := do
  return decide ((bytesOf text).length ≤ (← get).curr)

def advance : CursorM UInt8 := do
  let b ← byteAt text (← get).curr
  modify fun k => { k with curr := k.curr + 1 }
  return b

/-- The next byte, or 0 at the end. -/
def peek : CursorM UInt8 := do
  if ← isAtEnd text then return 0
  else byteAt text (← get).curr

/-- The byte after the next one, or 0 if there is none. -/
def peekNext : CursorM UInt8 := do
  let i := (← get).curr + 1
  if (bytesOf text).length ≤ i then return 0
  else byteAt text i

/-- Passes the next byte if it is the given one. -/
def matchByte (b : UInt8) : CursorM Bool := do
  if ← isAtEnd text then return false
  else if (← peek text) == b then
    let _ ← advance text
    return true
  else return false

def lexeme : CursorM String := do
  let k ← get
  textBetween text k.start k.curr

/-! ## Loops -/

/-- Passes bytes as long as they have a property. -/
def skipWhile (p : UInt8 → Bool) : Nat → CursorM Unit
  | 0 => throw .outOfTurns
  | turns + 1 => do
    if p (← peek text) then
      let _ ← advance text
      skipWhile p turns
    else return ()

/-- Passes the contents of a string. -/
def skipContents : Nat → CursorM Unit
  | 0 => throw .outOfTurns
  | turns + 1 => do
    if ← isAtEnd text then return ()
    else if (← peek text) == '"'.toUInt8 then return ()
    else
      let b ← advance text
      modify fun k => { k with line := if b == '\n'.toUInt8 then k.line + 1 else k.line }
      skipContents turns

/-! ## Pieces -/

/-- The symbols that a byte makes whatever follows it. -/
def singles : List Symbol :=
  [.leftParen, .rightParen, .leftBrace, .rightBrace, .comma, .dot, .minus, .plus, .semicolon, .star]

/-- The symbols that a byte makes alone and with a `=`. -/
def doubles : List (Symbol × Symbol) :=
  [(.bang, .bangEqual), (.equal, .equalEqual), (.less, .lessEqual), (.greater, .greaterEqual)]

def isDigitByte (b : UInt8) : Bool :=
  '0'.toUInt8 ≤ b && b ≤ '9'.toUInt8

def isNameStartByte (b : UInt8) : Bool :=
  'a'.toUInt8 ≤ b && b ≤ 'z'.toUInt8 || 'A'.toUInt8 ≤ b && b ≤ 'Z'.toUInt8 || b == '_'.toUInt8

def isNameByte (b : UInt8) : Bool :=
  isNameStartByte b || isDigitByte b

/-- Each part of a scan yields the error that it has found, if any. -/
def found (kind : Kind) : CursorM (Option LexError) := do
  modify fun k => { k with pending := some kind }
  return none

def skipLineComment : CursorM (Option LexError) := do
  let k ← get
  let rest ← bytesBetween text k.curr (bytesOf text).length
  let newline := rest.findIdx? (· == '\n'.toUInt8)
  set { k with curr := newline.elim (bytesOf text).length (k.curr + ·) }
  return none

def skipBlockComment : CursorM (Option LexError) := do
  let k ← get
  let rest ← bytesBetween text k.curr (bytesOf text).length
  let length := (findWord? (utf8 ['*', '/']) rest).elim rest.length (· + 2)
  let comment ← bytesBetween text k.curr (k.curr + length)
  set { k with line := k.line + comment.count '\n'.toUInt8, curr := k.curr + length }
  return none

def scanSlash : CursorM (Option LexError) := do
  if ← matchByte text '/'.toUInt8 then skipLineComment text
  else if ← matchByte text '*'.toUInt8 then skipBlockComment text
  else found (.symbol .slash)

variable (turns : Nat)

def scanString : CursorM (Option LexError) := do
  let opened := (← get).line
  skipContents text turns
  if ← isAtEnd text then return some ⟨opened, .unterminatedString⟩
  else
    let _ ← advance text
    let k ← get
    let contents ← textBetween text (k.start + 1) (k.curr - 1)
    found (.string contents)

/-- Passes a point if a digit follows it, and the digits. -/
def skipFraction : CursorM Unit := do
  if (← peek text) == '.'.toUInt8 then
    if isDigitByte (← peekNext text) then
      let _ ← advance text
      skipWhile text isDigitByte turns
    else return ()
  else return ()

def scanNumber : CursorM (Option LexError) := do
  skipWhile text isDigitByte turns
  skipFraction text turns
  let digits ← lexeme text
  found (.number (Number.read digits.toList))

def scanName : CursorM (Option LexError) := do
  skipWhile text isNameByte turns
  let k ← get
  let name ← bytesBetween text k.start k.curr
  match Keyword.all.find? fun word => bytesOf word.text == name with
  | some word => found (.keyword word)
  | none => found .identifier

/-- The byte at the start of the piece belongs to a character that starts nothing. -/
def refuse : CursorM (Option LexError) := do
  let k ← get
  let rest ← textBetween text k.start (bytesOf text).length
  let c := rest.toList.head?.getD (Char.ofNat 0xFFFD)
  set { k with curr := k.start + c.utf8Size }
  return some ⟨k.line, .unexpectedCharacter c⟩

/-- Scans a piece after its first byte, which is not in the tables of symbols. -/
def scanOther (b : UInt8) : CursorM (Option LexError) := do
  if b == ' '.toUInt8 || b == '\r'.toUInt8 || b == '\t'.toUInt8 then return none
  else if b == '\n'.toUInt8 then
    modify fun k => { k with line := k.line + 1 }
    return none
  else if b == '/'.toUInt8 then scanSlash text
  else if b == '"'.toUInt8 then scanString text turns
  else if isDigitByte b then scanNumber text turns
  else if isNameStartByte b then scanName text turns
  else refuse text

/-- Scans a piece after its first byte. -/
def scanFrom (b : UInt8) : CursorM (Option LexError) := do
  match singles.find? fun s => utf8 s.chars == [b] with
  | some s => found (.symbol s)
  | none =>
    match doubles.find? fun e => utf8 e.1.chars == [b] with
    | some e =>
      if ← matchByte text '='.toUInt8 then found (.symbol e.2)
      else found (.symbol e.1)
    | none => scanOther text turns b

def scanPiece : CursorM (Option LexError) := do
  let b ← advance text
  scanFrom text turns b

/-- The next item of a text; after the end of the text there is none. -/
def nextItem : Nat → CursorM (Option Item)
  | 0 => throw .outOfTurns
  | left + 1 => do
    let k ← get
    if (bytesOf text).length < k.curr then return none
    else if k.curr = (bytesOf text).length then
      set { k with curr := k.curr + 1 }
      return some (.token ⟨.eof, "", k.line⟩)
    else
      set { k with start := k.curr, pending := none }
      match ← scanPiece text turns with
      | some e => return some (.error e)
      | none =>
        let k ← get
        set { k with pending := none }
        match k.pending with
        | some kind => return some (.token ⟨kind, ← lexeme text, k.line⟩)
        | none => nextItem left

/-- What a number of requests for the next item yield. -/
def requests : Nat → CursorM (List (Option Item))
  | 0 => return []
  | n + 1 => do
    let item ← nextItem text turns turns
    return item :: (← requests n)

/-! ## What the parts do -/

theorem bind_ok {α β : Type} {act : CursorM α} {f : α → CursorM β} {k k' : Cursor} {a : α}
    (h : act k = .ok (a, k')) : (act >>= f) k = f a k' := by
  have hbind : (act >>= f) k = act k >>= fun r => f r.1 r.2 := rfl
  rw [hbind, h]
  rfl

section Bytes
variable {text : String} {k : Cursor} {b : UInt8} {bs : List UInt8}

theorem byteAt_eq {i : Nat} (h : (bytesOf text)[i]? = some b) : byteAt text i k = .ok (b, k) := by
  rw [byteAt, h]
  rfl

theorem isAtEnd_eq (h : (bytesOf text).drop k.curr = bs) :
    isAtEnd text k = .ok (bs.isEmpty, k) := by
  have hend : decide ((bytesOf text).length ≤ k.curr) = bs.isEmpty := by
    rw [Bool.eq_iff_iff, decide_eq_true_iff, List.isEmpty_iff, ← h, List.drop_eq_nil_iff]
  rw [← hend]
  rfl

theorem getElem?_of_drop (h : (bytesOf text).drop k.curr = b :: bs) :
    (bytesOf text)[k.curr]? = some b := by
  rw [← Nat.add_zero k.curr, ← List.getElem?_drop, h]
  rfl

theorem drop_succ (h : (bytesOf text).drop k.curr = b :: bs) :
    (bytesOf text).drop (k.curr + 1) = bs := by
  rw [← List.drop_drop, h]
  rfl

theorem advance_eq (h : (bytesOf text).drop k.curr = b :: bs) :
    advance text k = .ok (b, { k with curr := k.curr + 1 }) := by
  have hget : (get : CursorM Cursor) k = .ok (k, k) := rfl
  rw [advance, bind_ok hget, bind_ok (byteAt_eq (getElem?_of_drop h))]
  rfl

theorem peek_eq (h : (bytesOf text).drop k.curr = bs) : peek text k = .ok (bs.headD 0, k) := by
  rw [peek, bind_ok (isAtEnd_eq h)]
  cases bs with
  | nil => rfl
  | cons b bs => exact byteAt_eq (getElem?_of_drop h)

theorem peekNext_eq (h : (bytesOf text).drop k.curr = b :: bs) :
    peekNext text k = .ok (bs.headD 0, k) := by
  have hget : (get : CursorM Cursor) k = .ok (k, k) := rfl
  have hdrop := drop_succ h
  rw [peekNext, bind_ok hget]
  cases bs with
  | nil =>
    rw [if_pos (List.drop_eq_nil_iff.1 hdrop)]
    rfl
  | cons b' bs =>
    have hlength : ¬ (bytesOf text).length ≤ k.curr + 1 := by
      rw [← List.drop_eq_nil_iff, hdrop]
      exact List.cons_ne_nil b' bs
    rw [if_neg hlength]
    apply byteAt_eq
    rw [← Nat.add_zero (k.curr + 1), ← List.getElem?_drop, hdrop]
    rfl

/-- A run of bytes is passed if there are more turns than bytes. -/
theorem skipWhile_bytes {p : UInt8 → Bool} (hzero : p 0 = false) {turns : Nat}
    (h : (bytesOf text).drop k.curr = bs) (hturns : bs.length < turns) :
    skipWhile text p turns k = .ok ((), { k with curr := k.curr + (bs.takeWhile p).length }) := by
  induction bs generalizing k turns with
  | nil =>
    obtain ⟨turns, rfl⟩ := Nat.exists_eq_succ_of_ne_zero (Nat.ne_zero_of_lt hturns)
    rw [skipWhile, bind_ok (peek_eq h)]
    simp only [List.headD_nil, hzero, Bool.false_eq_true, if_false]
    rfl
  | cons b bs ih =>
    obtain ⟨turns, rfl⟩ := Nat.exists_eq_succ_of_ne_zero (Nat.ne_zero_of_lt hturns)
    rw [skipWhile, bind_ok (peek_eq h), List.headD_cons, List.takeWhile_cons]
    cases hb : p b with
    | false => rfl
    | true =>
      simp only [if_true]
      rw [bind_ok (advance_eq h), ih (drop_succ h) (Nat.lt_of_succ_lt_succ hturns)]
      simp only [List.length_cons]
      rw [Nat.add_assoc, Nat.add_comm 1]

/-- The contents of a string are passed, and their line breaks are counted. -/
theorem skipContents_bytes {turns : Nat} (h : (bytesOf text).drop k.curr = bs)
    (hturns : bs.length < turns) :
    skipContents text turns k = .ok ((), { k with
      curr := k.curr + (bs.takeWhile fun b => !(b == '"'.toUInt8)).length
      line := k.line + (bs.takeWhile fun b => !(b == '"'.toUInt8)).count '\n'.toUInt8 }) := by
  induction bs generalizing k turns with
  | nil =>
    obtain ⟨turns, rfl⟩ := Nat.exists_eq_succ_of_ne_zero (Nat.ne_zero_of_lt hturns)
    rw [skipContents, bind_ok (isAtEnd_eq h)]
    rfl
  | cons b bs ih =>
    obtain ⟨turns, rfl⟩ := Nat.exists_eq_succ_of_ne_zero (Nat.ne_zero_of_lt hturns)
    rw [skipContents, bind_ok (isAtEnd_eq h), List.takeWhile_cons]
    simp only [List.isEmpty_cons, Bool.false_eq_true, if_false]
    rw [bind_ok (peek_eq h), List.headD_cons]
    cases hb : b == '"'.toUInt8 with
    | true => rfl
    | false =>
      have hdrop := drop_succ h
      simp only [Bool.false_eq_true, if_false, Bool.not_false, if_true]
      rw [bind_ok (advance_eq h), bind_ok rfl, ih hdrop (Nat.lt_of_succ_lt_succ hturns)]
      simp only [List.length_cons, List.count_cons]
      congr 3
      · omega
      · split <;> omega

end Bytes

/-- The cursor inside a piece: `before` are the characters in front of the piece, and `passed` are
those of the piece that it has passed. -/
def within (before passed : List Char) (line : Nat) (pending : Option Kind) : Cursor :=
  ⟨(utf8 before).length, (utf8 (before ++ passed)).length, line, pending⟩

theorem within_start (before passed : List Char) (line : Nat) (pending : Option Kind) :
    (within before passed line pending).start = (utf8 before).length := rfl

theorem within_curr (before passed : List Char) (line : Nat) (pending : Option Kind) :
    (within before passed line pending).curr = (utf8 (before ++ passed)).length := rfl

theorem within_append (before passed cs : List Char) (line : Nat) (pending : Option Kind) :
    { within before passed line pending with
      curr := (within before passed line pending).curr + (utf8 cs).length } =
      within before (passed ++ cs) line pending := by
  simp only [within, utf8_append, List.length_append, Nat.add_assoc]

section Slices
variable {text : String} {before middle rest : List Char}
  (h : text.toList = before ++ middle ++ rest) (k : Cursor)
include h

theorem textBetween_eq :
    textBetween text (utf8 before).length (utf8 (before ++ middle)).length k =
      .ok (String.ofList middle, k) := by
  have hle : (utf8 before).length ≤ (utf8 (before ++ middle)).length := by
    rw [utf8_append, List.length_append]
    exact Nat.le_add_right _ _
  have hstart := isValid_utf8 (h.trans (List.append_assoc before middle rest))
  rw [textBetween, if_pos ⟨hle, hstart, isValid_utf8 h⟩, extract_utf8 h]
  rfl

theorem bytesBetween_eq :
    bytesBetween text (utf8 before).length (utf8 (before ++ middle)).length k =
      .ok (utf8 middle, k) := by
  have hbytes : bytesOf text = utf8 before ++ utf8 middle ++ utf8 rest := by
    rw [bytesOf_eq, h, utf8_append, utf8_append]
  have hbounds : (utf8 before).length ≤ (utf8 (before ++ middle)).length ∧
      (utf8 (before ++ middle)).length ≤ (bytesOf text).length := by
    rw [hbytes, utf8_append]
    simp only [List.length_append]
    omega
  rw [bytesBetween, if_pos hbounds, hbytes, utf8_append, List.take_left, List.drop_left]
  rfl

end Slices

section Characters
variable {text : String} {before passed rest : List Char} {line : Nat} {pending : Option Kind}
  (h : text.toList = before ++ passed ++ rest)
include h

theorem drop_within :
    (bytesOf text).drop (within before passed line pending).curr = utf8 rest := by
  rw [bytesOf_eq, h, utf8_append]
  exact List.drop_left

/-- The bytes from the cursor on. -/
theorem bytesBetween_rest (k : Cursor) :
    bytesBetween text (within before passed line pending).curr (bytesOf text).length k =
      .ok (utf8 rest, k) := by
  have hlength : (bytesOf text).length = (utf8 (before ++ passed ++ rest)).length := by
    rw [bytesOf_eq, h]
  have htext : text.toList = before ++ passed ++ rest ++ [] := by rw [h, List.append_nil]
  rw [hlength]
  exact bytesBetween_eq htext k

theorem length_rest_le : (utf8 rest).length ≤ (bytesOf text).length := by
  rw [length_bytesOf h]
  exact Nat.le_add_left _ _

theorem isAtEnd_within :
    isAtEnd text (within before passed line pending) =
      .ok (rest.isEmpty, within before passed line pending) := by
  rw [isAtEnd_eq (drop_within h)]
  cases rest with
  | nil => rfl
  | cons c rest =>
    obtain ⟨b, bs, hb⟩ := utf8EncodeChar_eq_cons c
    rw [utf8_cons, hb]
    rfl

theorem lexeme_within :
    lexeme text (within before passed line pending) =
      .ok (String.ofList passed, within before passed line pending) :=
  textBetween_eq h _

theorem skipWhile_within {p : UInt8 → Bool} {q : Char → Bool} (hclass : SameClass p q)
    (hzero : p 0 = false) {turns : Nat} (hturns : (bytesOf text).length < turns) :
    skipWhile text p turns (within before passed line pending) =
      .ok ((), within before (passed ++ rest.takeWhile q) line pending) := by
  have hlt := Nat.lt_of_le_of_lt (length_rest_le h) hturns
  rw [skipWhile_bytes hzero (drop_within h) hlt, hclass.takeWhile_utf8, within_append]

theorem skipContents_within {turns : Nat} (hturns : (bytesOf text).length < turns) :
    skipContents text turns (within before passed line pending) =
      .ok ((), within before (passed ++ rest.takeWhile (· != '"'))
        (line + (rest.takeWhile (· != '"')).count '\n') pending) := by
  have hlt := Nat.lt_of_le_of_lt (length_rest_le h) hturns
  have hquote : SameClass (fun b => !(b == '"'.toUInt8)) (fun c => c != '"') :=
    (SameClass.eq (by decide)).not
  rw [skipContents_bytes (drop_within h) hlt, hquote.takeWhile_utf8, count_utf8 (by decide),
    ← within_append]
  rfl

end Characters

section NextCharacter
variable {text : String} {before passed rest : List Char} {line : Nat} {pending : Option Kind}

theorem advance_within {c : Char} (hc : c.toNat ≤ 127)
    (h : text.toList = before ++ passed ++ c :: rest) :
    advance text (within before passed line pending) =
      .ok (c.toUInt8, within before (passed ++ [c]) line pending) := by
  have hdrop : (bytesOf text).drop (within before passed line pending).curr =
      c.toUInt8 :: utf8 rest := by
    rw [drop_within h, utf8_cons, utf8EncodeChar_ascii hc]
    rfl
  have hone : (utf8 [c]).length = 1 := by
    rw [utf8_cons, utf8EncodeChar_ascii hc]
    rfl
  rw [advance_eq hdrop, ← within_append, hone]

/-- Only at the end, or before a character of this code, the next byte is 0. -/
theorem peek_within (h : text.toList = before ++ passed ++ rest) :
    peek text (within before passed line pending) =
      .ok ((utf8 rest).headD 0, within before passed line pending) :=
  peek_eq (drop_within h)

/-- The first byte of a text shows whether its first character is of a class. -/
theorem headD_utf8 {p : UInt8 → Bool} {q : Char → Bool} (hclass : SameClass p q)
    (hzero : p 0 = false) : p ((utf8 rest).headD 0) = rest.head?.any q := by
  cases rest with
  | nil => exact hzero
  | cons c rest =>
    obtain ⟨b, bs, hb⟩ := utf8EncodeChar_eq_cons c
    rw [utf8_cons, hb]
    exact hclass c b (by rw [hb]; exact List.mem_cons_self)

theorem matchByte_within {d : Char} (hd : d.toNat ≤ 127)
    (h : text.toList = before ++ passed ++ d :: rest) :
    matchByte text d.toUInt8 (within before passed line pending) =
      .ok (true, within before (passed ++ [d]) line pending) := by
  have hdrop : (utf8 (d :: rest)).headD 0 = d.toUInt8 := by
    rw [utf8_cons, utf8EncodeChar_ascii hd]
    rfl
  rw [matchByte, bind_ok (isAtEnd_within h)]
  simp only [List.isEmpty_cons, Bool.false_eq_true, if_false]
  rw [bind_ok (peek_within h), hdrop]
  simp only [beq_self_eq_true, if_true]
  rw [bind_ok (advance_within hd h)]
  rfl

theorem matchByte_other {d : Char} (hd : d.toNat ≤ 127) (hrest : rest.head? ≠ some d)
    (h : text.toList = before ++ passed ++ rest) :
    matchByte text d.toUInt8 (within before passed line pending) =
      .ok (false, within before passed line pending) := by
  rw [matchByte, bind_ok (isAtEnd_within h)]
  cases rest with
  | nil => rfl
  | cons c rest =>
    obtain ⟨b, bs, hb⟩ := utf8EncodeChar_eq_cons c
    have hne : (b == d.toUInt8) = false := by
      rw [beq_eq_false_iff_ne]
      intro heq
      have hc : c = d := (byte_eq_iff hd (by rw [hb]; exact List.mem_cons_self)).1 heq
      exact hrest (congrArg some hc)
    simp only [List.isEmpty_cons, Bool.false_eq_true, if_false]
    rw [bind_ok (peek_within h), utf8_cons, hb, List.cons_append, List.headD_cons, hne]
    rfl

end NextCharacter

end Cursor
end Lox
