import Lox.Number.Layout
import Lox.Text.Quoted
import Lox.Value.Basic

/-!
# Values as text

The text that `print` writes for a value, and a fuller one for inspection that shows what a value
is made of.
-/

set_option autoImplicit false

namespace Lox

/-- Whole numbers below this bound are written digit by digit. -/
def wholeBound : Nat := Nat.pow 10 15

/-- Printed numbers are positional throughout and end without `.0`. -/
def printedNumber : Number.Layout where
  positional := none
  pointZero := false
  plusSign := false
  tie := .up
  infinity := "Infinity"
  nan := "NaN"

/-- The text of a number: a whole number below the bound as such, any other by its shortest
decimal. -/
def numberText (x : Float) : String :=
  match Number.classify x with
  | .finite negative size =>
    match size.whole? with
    | some n =>
      if n < wholeBound then (if negative then "-" else "") ++ Nat.repr n
      else printedNumber.text x
    | none => printedNumber.text x
  | _ => printedNumber.text x

/-- Inspected numbers are positional from `10 ^ -4` up to `10 ^ 16`, always with a point there. -/
def inspectedNumber : Number.Layout where
  positional := some (-4, 16)
  pointZero := true
  plusSign := false
  tie := .up
  infinity := "inf"
  nan := "NaN"

def Closure.display (c : Closure) : String :=
  match c.decl.name with
  | some name => s!"<fn {name.name}>"
  | none => "<fn>"

def Native.display (n : Native) : String :=
  s!"<native fn {n.name}>"

def boolText (b : Bool) : String :=
  if b then "true" else "false"

/-- The text that `print` writes. -/
def Value.display : Value → String
  | .nil => "nil"
  | .bool b => boolText b
  | .number x => numberText x
  | .string s => s
  | .function _ closure => closure.display
  | .method _ closure => closure.display
  | .native _ host => host.display
  | .classRef cls => cls.name
  | .object _ cls => cls.name ++ " instance"

/-- Names in order, each once, as a quoted list. -/
def sortedNames (names : List String) : String :=
  let sorted := names.mergeSort fun a b => decide (a ≤ b)
  "[" ++ ", ".intercalate (sorted.map Text.inspectQuoted) ++ "]"

def Class.inspect (c : Class) : String :=
  let parent := match c.superclass? with
    | some parent => s!"Some({Text.inspectQuoted parent.name})"
    | none => "None"
  "Class \x7b name: " ++ Text.inspectQuoted c.name ++ ", superclass: " ++ parent ++
    ", methods: " ++ sortedNames c.own.methods.names ++ " \x7d"

/-- The text for inspection; `fieldNames` gives the names of an instance's fields. -/
def Value.inspect (fieldNames : ObjectId → List String) : Value → String
  | .nil => "Nil"
  | .bool b => s!"Bool({boolText b})"
  | .number x => s!"Number({inspectedNumber.text x})"
  | .string s => s!"String({Text.inspectQuoted s})"
  | .classRef cls => s!"Class({cls.inspect})"
  | .object id cls =>
    "Instance(RefCell \x7b value: Instance \x7b class: " ++ Text.inspectQuoted cls.name ++
      ", fields: " ++ sortedNames (fieldNames id) ++ " \x7d \x7d)"
  | callable => s!"Callable(Callable({callable.display}))"

end Lox
