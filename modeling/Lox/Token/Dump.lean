import Lox.Number.Layout
import Lox.Text.Quoted
import Lox.Token.Basic

/-!
# Listings of tokens

A token as a line of text, and lists of tokens as JSON, in one line or indented.
-/

set_option autoImplicit false

namespace Lox.Token

/-- Type, text and value; `null` where the kind carries no value. -/
def display (t : Token) : String :=
  let value := match t.kind with
    | .string contents => contents
    | .number x => Number.literalText x
    | _ => "null"
  s!"{t.kind.name} {t.lexeme} {value}"

/-- Numbers in JSON: positional from `10 ^ -5` up to `10 ^ 16`, always with a point there, and
with a signed exponent elsewhere. JSON has no infinity. -/
def jsonNumber : Number.Layout where
  positional := some (-5, 16)
  pointZero := true
  plusSign := true
  tie := .even
  infinity := "null"
  nan := "null"

/-- The kind as JSON: its name, or an object from its name to the value it carries. The two
separators come after the opening brace and the colon, the last before the closing brace. -/
def kindJson (kind : Kind) (opened afterColon closed : String) : String :=
  let quotedName := Text.jsonQuoted kind.name
  let withValue := fun (value : String) =>
    "\x7b" ++ opened ++ quotedName ++ ":" ++ afterColon ++ value ++ closed ++ "\x7d"
  match kind with
  | .string contents => withValue (Text.jsonQuoted contents)
  | .number x => withValue (jsonNumber.text x)
  | _ => quotedName

def compactJson (t : Token) : String :=
  "\x7b\"token_type\":" ++ kindJson t.kind "" "" "" ++ ",\"lexeme\":" ++
    Text.jsonQuoted t.lexeme ++ ",\"line\":" ++ Nat.repr t.line ++ "\x7d"

def indentedJson (t : Token) : String :=
  "  \x7b\n    \"token_type\": " ++ kindJson t.kind "\n      " " " "\n    " ++
    ",\n    \"lexeme\": " ++ Text.jsonQuoted t.lexeme ++
    ",\n    \"line\": " ++ Nat.repr t.line ++ "\n  \x7d"

/-- A JSON array in one line. -/
def compactJsonList (ts : List Token) : String :=
  "[" ++ ",".intercalate (ts.map compactJson) ++ "]"

/-- A JSON array with one field to a line. -/
def indentedJsonList (ts : List Token) : String :=
  if ts.isEmpty then "[]"
  else "[\n" ++ ",\n".intercalate (ts.map indentedJson) ++ "\n]"

end Lox.Token
