import Lox.Grammar.Parse
import Lox.Machine.Step
import Lox.Scoping.Resolve
import Lox.Token.Lexer

/-!
# Sessions

A world that source texts are run in, one after the other. What a text defines stays for those
after it, and a text that fails leaves the session ready for more. A run takes a bound on its
number of steps, and yields nothing if the bound is too small.
-/

set_option autoImplicit false

namespace Lox

/-! ## From source to tree -/

def Error.ofLex (errors : List LexError) : Error :=
  .ofList (errors.map .lex)

def Error.ofParse (errors : List ParseError) : Error :=
  .ofList (errors.map .parse)

def Error.ofResolve (errors : List ResolveError) : Error :=
  .ofList (errors.map .resolve)

/-- What was parsed, if there is no error at all; else the lexical errors, then those of the
parser. -/
def withLexical {α : Type} (lexical : List LexError) (parsed : Except (List ParseError) α) :
    Except Error α :=
  match parsed with
  | .ok a => if lexical.isEmpty then .ok a else .error (.ofLex lexical)
  | .error errors => .error (.ofList (lexical.map .lex ++ [.ofParse errors]))

def parseProgram (source : String) : Except Error Program :=
  withLexical (lexErrors source) (Grammar.parseProgram (tokens source))

def parseExpression (source : String) : Except Error Expr :=
  withLexical (lexErrors source) (Grammar.parseExpression (tokens source))

def resolveProgram (p : Program) : Except Error Program :=
  p.resolved.mapError .ofResolve

/-- An expression with its slots filled, resolved as a statement of the top level. -/
def resolveExpression (e : Expr) : Except Error Expr := do
  match ← resolveProgram [.expression e] with
  | [.expression e] => return e
  | _ => return e

/-! ## Runs of a machine -/

/-- How a machine ended. -/
inductive Outcome where
  | value (v : Value)
  | completed (c : Completion)
  | failed (e : Error)

namespace Machine

/-- How a machine ended and the world it left, if it has ended. -/
def outcome? (m : Machine) : Option (Outcome × World) :=
  match m.frames, m.focus with
  | [], .value v => some (.value v, m.world)
  | [], .completed c => some (.completed c, m.world)
  | [], .failed e => some (.failed e, m.world)
  | _, _ => none

/-- The value that a machine ended with. -/
def valueResult? (m : Machine) : Option (Except Error Value × World) :=
  m.outcome?.map fun
    | (.value v, w) => (.ok v, w)
    | (.completed _, w) => (.ok .nil, w)
    | (.failed e, w) => (.error e, w)

/-- The completion that a machine ended with. -/
def completionResult? (m : Machine) : Option (Except Error Completion × World) :=
  m.outcome?.map fun
    | (.value _, w) => (.ok .normal, w)
    | (.completed c, w) => (.ok c, w)
    | (.failed e, w) => (.error e, w)

/-- The end of a program: its output is flushed if it did not fail. -/
def programResult? (m : Machine) : Option (Except Error Unit × World) :=
  m.outcome?.map fun
    | (.failed e, w) => (.error e, w)
    | (_, w) => (if w.sink.refusesFlush then .error (.io .flushRefused) else .ok (), w)

end Machine

/-- What a source text asks for, with its slots filled. -/
inductive Task where
  | program (p : Program)
  | expression (e : Expr)

namespace Task

/-- A source text as a program. -/
def ofProgram (source : String) : Except Error Task :=
  (parseProgram source >>= resolveProgram).map .program

/-- A source text as a single expression. -/
def ofExpression (source : String) : Except Error Task :=
  (parseExpression source >>= resolveExpression).map .expression

/-- What a line stands for: a program, or else a single expression without a semicolon. -/
def parseLine (source : String) : Except Error Program :=
  let lexical := lexErrors source
  if !lexical.isEmpty then .error (.ofLex lexical)
  else match Grammar.parseProgram (tokens source) with
    | .ok p => .ok p
    | .error errors =>
      match Grammar.parseExpression (tokens source) with
      | .ok e => .ok [.expression e]
      | .error _ => .error (.ofParse errors)

/-- A line as a task; one that is a single expression statement is evaluated for its value. -/
def ofLine (source : String) : Except Error Task := do
  match ← parseLine source with
  | [.expression e] => (resolveExpression e).map .expression
  | p => (resolveProgram p).map .program

/-- The machine that does a task. -/
def start (w : World) : Task → Machine
  | .program p => .running p w
  | .expression e => .evaluating e w

/-- What a machine that did a task ended with; a program has no value. -/
def result? (m : Machine) : Task → Option (Except Error (Option Value) × World)
  | .program _ => m.programResult?.map fun (result, w) => (result.map fun _ => none, w)
  | .expression _ => m.valueResult?.map fun (result, w) => (result.map some, w)

end Task

/-- A world that lasts over several source texts. -/
abbrev Session := World

namespace Session

def new (sink : Sink) (reading : Nat → Float) : Session :=
  World.initial sink reading

def setMaxDepth (s : Session) (maxDepth : Nat) : Session :=
  { s with maxDepth := maxDepth }

/-- Defines a name at top level. -/
def defineGlobal (s : Session) (name : String) (v : Value) : Session :=
  { s with store := s.store.define World.topEnv name v }

/-- Defines a host function at top level under its own name. -/
def defineNative (s : Session) (native : Native) : Session :=
  let (id, s) := World.newId s
  defineGlobal s native.name (.native id native)

/-- Reads a name of the top level. -/
def global (s : Session) (name : String) (line : Nat) : Except Error Value :=
  s.store.get World.topEnv name line

def evaluateTree (fuel : Nat) (e : Expr) (s : Session) : Option (Except Error Value × Session) :=
  ((Machine.evaluating e s).run fuel).valueResult?

def executeTree (fuel : Nat) (stmt : Stmt) (s : Session) :
    Option (Except Error Completion × Session) :=
  ((Machine.executing stmt s).run fuel).completionResult?

def runTree (fuel : Nat) (p : Program) (s : Session) : Option (Except Error Unit × Session) :=
  ((Machine.running p s).run fuel).programResult?

def call (fuel : Nat) (callee : Value) (arguments : List Value) (line : Nat) (s : Session) :
    Option (Except Error Value × Session) :=
  ((Machine.call callee arguments line [] s).run fuel).valueResult?

/-- Runs a source text as a program. -/
def run (fuel : Nat) (source : String) (s : Session) : Option (Except Error Unit × Session) :=
  match parseProgram source >>= resolveProgram with
  | .error e => some (.error e, s)
  | .ok p => runTree fuel p s

/-- Evaluates a source text as a single expression. -/
def evaluate (fuel : Nat) (source : String) (s : Session) :
    Option (Except Error Value × Session) :=
  match parseExpression source >>= resolveExpression with
  | .error e => some (.error e, s)
  | .ok e => evaluateTree fuel e s

/-- Runs a line; the value of a line that is one expression is returned. -/
def runLine (fuel : Nat) (source : String) (s : Session) :
    Option (Except Error (Option Value) × Session) :=
  match Task.ofLine source with
  | .error e => some (.error e, s)
  | .ok task => task.result? ((task.start s).run fuel)

/-- Takes out the output so far. -/
def drain (s : Session) : ByteArray × Session :=
  let (bytes, sink) := s.sink.drain
  (bytes, { s with sink := sink })

end Session

end Lox
