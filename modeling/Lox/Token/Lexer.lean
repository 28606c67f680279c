import Lox.Error.Basic
import Lox.Number.Reader
import Lox.Token.Basic

/-!
# From text to tokens

A source text is first cut into pieces whose characters, put together again, are the text. Then
each piece that is a token or a mistake gets its line, and the rest is dropped.
-/

set_option autoImplicit false

namespace Lox

/-- One piece of a source text. -/
inductive Piece where
  | blank (c : Char)
  | comment (chars : List Char)
  | token (kind : Kind) (chars : List Char)
  /-- A character that starts nothing. -/
  | refused (c : Char)
  /-- A string whose closing quote is missing. -/
  | openString (chars : List Char)
  deriving DecidableEq, Repr

namespace Piece

def chars : Piece → List Char
  | .blank c => [c]
  | .comment chars => chars
  | .token _ chars => chars
  | .refused c => [c]
  | .openString chars => chars

def isBlankChar (c : Char) : Bool :=
  c == ' ' || c == '\r' || c == '\t' || c == '\n'

def isNameStart (c : Char) : Bool :=
  c.isAlpha || c == '_'

def isNameChar (c : Char) : Bool :=
  c.isAlphanum || c == '_'

/-- Splits off the digits at the front, and a point with digits after it. -/
def splitNumber (cs : List Char) : List Char × List Char :=
  let whole := cs.takeWhile Char.isDigit
  match cs.dropWhile Char.isDigit with
  | '.' :: d :: more =>
    if d.isDigit then
      (whole ++ '.' :: (d :: more).takeWhile Char.isDigit, (d :: more).dropWhile Char.isDigit)
    else (whole, '.' :: d :: more)
  | rest => (whole, rest)

/-- Splits off everything up to and including the first `*/`, or all of it if there is none.
The characters passed so far are in `passed`, the last one first. -/
def splitComment (passed : List Char) : List Char → List Char × List Char
  | [] => (passed.reverse, [])
  | '*' :: '/' :: rest => (('/' :: '*' :: passed).reverse, rest)
  | c :: rest => splitComment (c :: passed) rest

def nameKind (chars : List Char) : Kind :=
  match Keyword.ofText? (String.ofList chars) with
  | some k => .keyword k
  | none => .identifier

/-- The piece of a string, whose opening quote has been passed. -/
def string (rest : List Char) : Piece × List Char :=
  let contents := rest.takeWhile (· != '"')
  match rest.dropWhile (· != '"') with
  | [] => (.openString ('"' :: contents), [])
  | quote :: rest => (.token (.string (String.ofList contents)) ('"' :: contents ++ [quote]), rest)

/-- The first piece of the text `c :: rest`, and what follows it. -/
def next (c : Char) (rest : List Char) : Piece × List Char :=
  if isBlankChar c then (.blank c, rest)
  else if c == '"' then string rest
  else if c.isDigit then
    let (text, rest) := splitNumber (c :: rest)
    (.token (.number (Number.read text)) text, rest)
  else if isNameStart c then
    let text := c :: rest.takeWhile isNameChar
    (.token (nameKind text) text, rest.dropWhile isNameChar)
  else match c, rest with
    | '/', '/' :: rest => (.comment ('/' :: '/' :: rest.takeWhile (· != '\n')),
        rest.dropWhile (· != '\n'))
    | '/', '*' :: rest =>
      let (text, rest) := splitComment ['*', '/'] rest
      (.comment text, rest)
    | c, rest =>
      match Symbol.all.find? fun s => s.chars.isPrefixOf (c :: rest) with
      | some s => (.token (.symbol s) s.chars, (c :: rest).drop s.chars.length)
      | none => (.refused c, rest)

theorem splitNumber_append (cs : List Char) :
    (splitNumber cs).1 ++ (splitNumber cs).2 = cs := by
  have h := List.takeWhile_append_dropWhile (p := Char.isDigit) (l := cs)
  unfold splitNumber
  split
  · rename_i d more heq
    rw [heq] at h
    split
    · simpa [List.append_assoc] using h
    · simpa using h
  · exact h

theorem splitComment_append (passed cs : List Char) :
    (splitComment passed cs).1 ++ (splitComment passed cs).2 = passed.reverse ++ cs := by
  fun_induction splitComment passed cs with
  | case1 => simp
  | case2 => simp
  | case3 passed c rest _ ih => rw [ih]; simp

theorem string_append (rest : List Char) :
    (string rest).1.chars ++ (string rest).2 = '"' :: rest := by
  have h := List.takeWhile_append_dropWhile (p := (· != '"')) (l := rest)
  unfold string
  split
  · rename_i heq
    rw [heq, List.append_nil] at h
    simp [chars, h]
  · rename_i quote more heq
    rw [heq] at h
    simpa [chars, List.append_assoc] using h

theorem symbol_chars_ne_nil (s : Symbol) : s.chars ≠ [] := by
  cases s <;> simp [Symbol.chars]

/-- The first piece and the rest are the text. -/
theorem next_append (c : Char) (rest : List Char) :
    (next c rest).1.chars ++ (next c rest).2 = c :: rest := by
  unfold next
  split
  · simp [chars]
  split
  · rename_i h
    rw [string_append, eq_of_beq h]
  split
  · simpa [chars] using splitNumber_append (c :: rest)
  split
  · simp [chars]
  split
  · simp [chars]
  · simpa [chars] using splitComment_append ['*', '/'] _
  · split
    · rename_i s heq
      have hp := List.find?_some (p := fun t : Symbol => t.chars.isPrefixOf (c :: rest)) heq
      exact List.prefix_iff_eq_append.mp (List.isPrefixOf_iff_prefix.mp hp)
    · simp [chars]

theorem splitNumber_ne_nil {c : Char} (h : c.isDigit = true) (rest : List Char) :
    (splitNumber (c :: rest)).1 ≠ [] := by
  unfold splitNumber
  split
  · split <;> simp [h]
  · simp [h]

theorem splitComment_ne_nil (passed cs : List Char) (h : passed ≠ []) :
    (splitComment passed cs).1 ≠ [] := by
  fun_induction splitComment passed cs with
  | case1 => simpa using h
  | case2 => simp
  | case3 passed c rest _ ih => exact ih (by simp)

theorem string_ne_nil (rest : List Char) : (string rest).1.chars ≠ [] := by
  unfold string
  split <;> simp [chars]

theorem next_ne_nil (c : Char) (rest : List Char) : (next c rest).1.chars ≠ [] := by
  unfold next
  split
  · simp [chars]
  split
  · exact string_ne_nil rest
  split
  · rename_i h
    simpa [chars] using splitNumber_ne_nil h rest
  split
  · simp [chars]
  split
  · simp [chars]
  · simpa [chars] using splitComment_ne_nil ['*', '/'] _ (by simp)
  · split
    · exact symbol_chars_ne_nil _
    · simp [chars]

theorem length_next_lt (c : Char) (rest : List Char) :
    (next c rest).2.length < (c :: rest).length := by
  have h := congrArg List.length (next_append c rest)
  have hpos := List.length_pos_iff.mpr (next_ne_nil c rest)
  rw [List.length_append] at h
  omega

/-- The pieces of a text after those already found, the last one first. -/
def splitFrom (found : List Piece) (cs : List Char) : List Piece :=
  match cs with
  | [] => found.reverse
  | c :: rest => splitFrom ((next c rest).1 :: found) (next c rest).2
termination_by cs.length
decreasing_by exact length_next_lt c rest

/-- All pieces of a text, in order. -/
def split (cs : List Char) : List Piece :=
  splitFrom [] cs

theorem flatMap_chars_splitFrom (found : List Piece) (cs : List Char) :
    (splitFrom found cs).flatMap chars = found.reverse.flatMap chars ++ cs := by
  fun_induction splitFrom found cs with
  | case1 => simp
  | case2 found c rest ih => rw [ih]; simp [List.flatMap_append, next_append]

/-- Put together again, the pieces are the text. -/
theorem flatMap_chars_split (cs : List Char) : (split cs).flatMap chars = cs := by
  simpa [split] using flatMap_chars_splitFrom [] cs

def newlines (p : Piece) : Nat :=
  p.chars.count '\n'

end Piece

/-- What the scan of a text yields: tokens, and errors in between. -/
inductive Item where
  | token (t : Token)
  | error (e : LexError)
  deriving DecidableEq, Repr

/-- What a piece yields if it starts on the given line. A token carries the line of its last
character; an error carries the line of its first. -/
def Piece.item? (line : Nat) : Piece → Option Item
  | .blank _ => none
  | .comment _ => none
  | .token kind chars => some (.token ⟨kind, String.ofList chars, line + chars.count '\n'⟩)
  | .refused c => some (.error ⟨line, .unexpectedCharacter c⟩)
  | .openString _ => some (.error ⟨line, .unterminatedString⟩)

/-- The items of pieces that start on the given line, after those already found, the last one
first. The end of the text is a token, too. -/
def itemsFrom (found : List Item) (line : Nat) : List Piece → List Item
  | [] => (.token ⟨.eof, "", line⟩ :: found).reverse
  | p :: ps => itemsFrom ((p.item? line).toList ++ found) (line + p.newlines) ps

/-- Scans a text: its tokens and lexical errors in order, and a last token for its end. -/
def scan (source : String) : List Item :=
  itemsFrom [] 1 (Piece.split source.toList)

def Item.token? : Item → Option Token
  | .token t => some t
  | .error _ => none

def Item.error? : Item → Option LexError
  | .token _ => none
  | .error e => some e

def tokens (source : String) : List Token :=
  (scan source).filterMap Item.token?

def lexErrors (source : String) : List LexError :=
  (scan source).filterMap Item.error?

end Lox
