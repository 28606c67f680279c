import Lox.Error.Fault
import Lox.Text.Utf8

/-!
# Errors

A fault together with the place where it was found, and the text, severity and exit code that a
report of it carries. Static errors are reported together, as one batch.
-/

set_option autoImplicit false

namespace Lox

/-- Where in its line a static error stands. -/
inductive Location where
  | atLexeme (lexeme : String)
  | atEnd
  deriving DecidableEq, Repr

def Location.text : Location → String
  | .atLexeme lexeme => s!" at '{lexeme}'"
  | .atEnd => " at end"

structure LexError where
  line : Nat
  fault : LexFault
  deriving DecidableEq, Repr

structure ParseError where
  line : Nat
  location : Location
  fault : ParseFault
  deriving DecidableEq, Repr

structure ResolveError where
  line : Nat
  lexeme : String
  fault : ResolveFault
  deriving DecidableEq, Repr

/-- Anything that ends a scan, a parse, a resolution or a run. -/
inductive Error where
  | lex (error : LexError)
  | parse (error : ParseError)
  | resolve (error : ResolveError)
  | batch (members : List Error)
  | runtime (fault : RuntimeFault) (line : Nat)
  | stackOverflow (line : Nat)
  | internal (fault : InternalFault)
  | io (fault : IoFault)
  | utf8 (fault : Text.Utf8.Fault)
  deriving Repr

namespace Error

mutual

/-- The report of an error; a batch reports its members on lines of their own. -/
def message : Error → String
  | .lex e => s!"[line {e.line}] Error: {e.fault.text}"
  | .parse e => s!"[line {e.line}] Error{e.location.text}: {e.fault.text}"
  | .resolve e => s!"[line {e.line}] Error at '{e.lexeme}': {e.fault.text}"
  | .batch members => "\n".intercalate (messages members)
  | .runtime fault line => s!"{fault.text}\n[line {line}]"
  | .stackOverflow line => s!"Stack overflow.\n[line {line}]"
  | .internal fault => "Internal error: " ++ fault.text
  | .io fault => fault.text
  | .utf8 fault => fault.message

def messages : List Error → List String
  | [] => []
  | e :: es => e.message :: messages es

end

/-- One batch of all these errors, with the members of batches among them in their place. -/
def ofList (errors : List Error) : Error :=
  .batch (errors.flatMap fun
    | .batch members => members
    | e => [e])

/-- The errors that a report consists of. -/
def members : Error → List Error
  | .batch members => members
  | e => [e]

/-- Whether a session should not go on after this error. -/
def isFatal : Error → Bool
  | .stackOverflow _ => true
  | .internal _ => true
  | _ => false

def exitCode : Error → Nat
  | .lex _ => 65
  | .parse _ => 65
  | .resolve _ => 65
  | .batch _ => 65
  | .runtime _ _ => 70
  | .stackOverflow _ => 71
  | .internal _ => 71
  | .io _ => 74
  | .utf8 _ => 74

end Error

end Lox
