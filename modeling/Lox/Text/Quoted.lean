import Lox.Text.Printable

/-!
# Quoted text

Two ways to write a text between double quotes: for JSON, which escapes only what it must, and
for inspection, which also spells out every character that would not show.
-/

set_option autoImplicit false

namespace Lox.Text

def hexDigits (n : Nat) : String :=
  String.ofList (Nat.toDigits 16 n)

def jsonEscape (c : Char) : String :=
  match c with
  | '"' => "\\\""
  | '\\' => "\\\\"
  | '\n' => "\\n"
  | '\r' => "\\r"
  | '\t' => "\\t"
  | _ =>
    if c.toNat = 8 then "\\b"
    else if c.toNat = 12 then "\\f"
    else if c.toNat < 16 then "\\u000" ++ hexDigits c.toNat
    else if c.toNat < 32 then "\\u00" ++ hexDigits c.toNat
    else c.toString

/-- A JSON string: quotes, backslashes and the characters below `U+0020` are escaped. -/
def jsonQuoted (s : String) : String :=
  "\"" ++ s.foldl (fun out c => out ++ jsonEscape c) "" ++ "\""

def inspectEscape (c : Char) : String :=
  match c with
  | '"' => "\\\""
  | '\\' => "\\\\"
  | '\n' => "\\n"
  | '\r' => "\\r"
  | '\t' => "\\t"
  | _ =>
    if c.toNat = 0 then "\\0"
    else if 32 ≤ c.toNat ∧ c.toNat < 127 then c.toString
    else if 127 < c.toNat ∧ isShown c then c.toString
    else "\\u\x7b" ++ hexDigits c.toNat ++ "\x7d"

/-- A text for inspection: characters that do not show by themselves stand as code points. -/
def inspectQuoted (s : String) : String :=
  "\"" ++ s.foldl (fun out c => out ++ inspectEscape c) "" ++ "\""

end Lox.Text
