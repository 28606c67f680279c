/-!
# UTF-8

Decoding of bytes into text, either strictly, naming the first place that is no character, or
leniently, with a replacement character for each such place.
-/

set_option autoImplicit false

namespace Lox.Text.Utf8

/-- The first place where bytes are not UTF-8. -/
structure Fault where
  index : Nat
  /-- How many bytes are wrong; absent if the bytes end inside a character. -/
  length : Option Nat
  deriving DecidableEq, Repr

def Fault.message (f : Fault) : String :=
  match f.length with
  | some n => s!"invalid utf-8 sequence of {n} bytes from index {f.index}"
  | none => s!"incomplete utf-8 byte sequence from index {f.index}"

/-- What stands at the front of a byte sequence. -/
inductive Front where
  | character (c : Char) (width : Nat)
  | invalid (width : Nat)
  | truncated
  deriving DecidableEq, Repr

def isContinuation (b : UInt8) : Bool :=
  0x80 ≤ b && b ≤ 0xBF

/-- The second bytes that may follow a leading byte: the range leaves out overlong forms,
surrogates, and code points past the last one. -/
def secondRange (lead : UInt8) : UInt8 × UInt8 :=
  if lead == 0xE0 then (0xA0, 0xBF)
  else if lead == 0xED then (0x80, 0x9F)
  else if lead == 0xF0 then (0x90, 0xBF)
  else if lead == 0xF4 then (0x80, 0x8F)
  else (0x80, 0xBF)

/-- The number of bytes of the character that a leading byte starts, 0 if it starts none. -/
def width (lead : UInt8) : Nat :=
  if lead < 0x80 then 1
  else if lead < 0xC2 then 0
  else if lead < 0xE0 then 2
  else if lead < 0xF0 then 3
  else if lead < 0xF5 then 4
  else 0

/-- The six low bits of a continuation byte appended to a code point. -/
def extend (code : Nat) (b : UInt8) : Nat :=
  code * 64 + b.toNat % 64

def front (lead : UInt8) (rest : List UInt8) : Front :=
  match width lead, rest with
  | 0, _ => .invalid 1
  | 1, _ => .character (Char.ofNat lead.toNat) 1
  | _, [] => .truncated
  | n, b1 :: rest =>
    let (low, high) := secondRange lead
    if b1 < low || high < b1 then .invalid 1
    else if n = 2 then .character (Char.ofNat (extend (lead.toNat % 32) b1)) 2
    else match rest with
      | [] => .truncated
      | b2 :: rest =>
        if !isContinuation b2 then .invalid 2
        else if n = 3 then .character (Char.ofNat (extend (extend (lead.toNat % 16) b1) b2)) 3
        else match rest with
          | [] => .truncated
          | b3 :: _ =>
            if !isContinuation b3 then .invalid 3
            else .character (Char.ofNat (extend (extend (extend (lead.toNat % 8) b1) b2) b3)) 4

/-- Decodes strictly; `index` counts the bytes read so far and `read` holds their characters, the
last one first. -/
def decodeFrom (index : Nat) (read : List Char) (bytes : List UInt8) : Except Fault String :=
  match bytes with
  | [] => .ok (String.ofList read.reverse)
  | lead :: rest =>
    match front lead rest with
    | .character c n => decodeFrom (index + n) (c :: read) (rest.drop (n - 1))
    | .invalid n => .error ⟨index, some n⟩
    | .truncated => .error ⟨index, none⟩
termination_by bytes.length
decreasing_by simp only [List.length_drop, List.length_cons]; omega

def decode (bytes : List UInt8) : Except Fault String :=
  decodeFrom 0 [] bytes

def decodeLenientFrom (read : List Char) (bytes : List UInt8) : String :=
  match bytes with
  | [] => String.ofList read.reverse
  | lead :: rest =>
    match front lead rest with
    | .character c n => decodeLenientFrom (c :: read) (rest.drop (n - 1))
    | .invalid n => decodeLenientFrom (Char.ofNat 0xFFFD :: read) (rest.drop (n - 1))
    | .truncated => String.ofList (Char.ofNat 0xFFFD :: read).reverse
termination_by bytes.length
decreasing_by all_goals simp only [List.length_drop, List.length_cons]; omega

/-- Decodes with a replacement character for each faulty place. -/
def decodeLenient (bytes : List UInt8) : String :=
  decodeLenientFrom [] bytes

end Lox.Text.Utf8
