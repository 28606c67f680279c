import Lox.FileTree
import Lox.Session
import Lox.Syntax.Printer
import Lox.Text.Blank
import Lox.Token.Dump

/-!
# The command line

What the arguments ask for, and what each command writes and exits with, given the files it may
read and the text on its standard input.
-/

set_option autoImplicit false

namespace Lox.CommandLine

inductive Command where
  | tokenize (file : Option String) (json : Bool)
  | parse (file : Option String)
  | evaluate (file : Option String)
  | run (file : Option String)
  | repl
  deriving DecidableEq, Repr

/-- What a run of the program was asked to do. -/
structure Invocation where
  command : Command
  maxDepth : Nat
  /-- Where to keep a log, if one is wanted. -/
  logFile : Option String
  deriving DecidableEq, Repr

/-! ## Arguments -/

/-- The arguments read so far. -/
structure Arguments where
  command : Option String
  file : Option String
  json : Bool
  maxDepth : Nat
  log : Bool
  logFile : Option String
  deriving DecidableEq, Repr

def Arguments.initial : Arguments where
  command := none
  file := none
  json := false
  maxDepth := World.defaultMaxDepth
  log := false
  logFile := none

/-- A count: decimal digits, possibly after a plus sign, that fit into 64 bits. -/
def readCount? (text : String) : Option Nat :=
  let digits := match text.toList with
    | '+' :: rest => rest
    | chars => chars
  if digits.isEmpty || !digits.all Char.isDigit then none
  else
    let n := Number.ofDigits digits
    if n < Nat.pow 2 64 then some n else none

def commandNames : List String :=
  ["tokenize", "parse", "evaluate", "run", "repl"]

/-- The value of an option written as `name=value`. -/
def inlineValue? (name argument : String) : Option String :=
  let lead := (name ++ "=").toList
  if lead.isPrefixOf argument.toList then some (String.ofList (argument.toList.drop lead.length))
  else none

/-- Whether a command reads a file, so that it takes one more argument. -/
def takesFile (command : String) : Bool :=
  command != "repl"

/-- Whether an argument is written as an option; a lone hyphen is not. -/
def isOption (argument : String) : Bool :=
  "-".toList.isPrefixOf argument.toList && argument != "-"

/-- Takes an argument as the name of the file, if the command still lacks one. -/
def Arguments.withFile? (a : Arguments) (file : String) : Option Arguments :=
  match a.command with
  | some command =>
    if takesFile command && a.file.isNone then some { a with file := some file } else none
  | none => none

/-- Takes all arguments as names of files. -/
def Arguments.withFiles? (a : Arguments) : List String → Option Arguments
  | [] => if a.command.isSome then some a else none
  | file :: rest => (a.withFile? file).bind fun a => a.withFiles? rest

/-- Reads the arguments in order. Options of the program may stand anywhere before `--`, after
which nothing is an option. -/
def readArguments (a : Arguments) : List String → Option Arguments
  | [] => some a
  | "--log" :: rest => readArguments { a with log := true } rest
  | "--log-file" :: path :: rest => readArguments { a with logFile := some path } rest
  | "--max-call-depth" :: count :: rest =>
    match readCount? count with
    | some n => readArguments { a with maxDepth := n } rest
    | none => none
  | "--" :: rest => a.withFiles? rest
  | argument :: rest =>
    match inlineValue? "--log-file" argument, inlineValue? "--max-call-depth" argument with
    | some path, _ => readArguments { a with logFile := some path } rest
    | _, some count =>
      match readCount? count with
      | some n => readArguments { a with maxDepth := n } rest
      | none => none
    | none, none =>
      match a.command with
      | none =>
        if argument ∈ commandNames then readArguments { a with command := some argument } rest
        else none
      | some command =>
        if command == "tokenize" && argument == "--json" then
          readArguments { a with json := true } rest
        else if isOption argument then none
        else (a.withFile? argument).bind fun a => readArguments a rest

def Arguments.command? (a : Arguments) : Option Command :=
  match a.command with
  | some "tokenize" => some (.tokenize a.file a.json)
  | some "parse" => some (.parse a.file)
  | some "evaluate" => some (.evaluate a.file)
  | some "run" => some (.run a.file)
  | some "repl" => some .repl
  | _ => none

def defaultLogFile : String := "app.log"

def Invocation.ofArguments? (arguments : List String) : Option Invocation := do
  let a ← readArguments .initial arguments
  let command ← a.command?
  return ⟨command, a.maxDepth, if a.log then some (a.logFile.getD defaultLogFile) else none⟩

/-! ## Reports -/

/-- What a run of the program writes, and its exit code. -/
structure Report where
  stdout : String
  stderr : String
  exit : Nat
  deriving DecidableEq, Repr

def Report.ok (stdout : String) : Report := ⟨stdout, "", 0⟩

def Report.failure (stdout stderr : String) (exit : Nat) : Report :=
  ⟨stdout, stderr ++ "\n", exit⟩

/-- The report of an error, after what was written before. -/
def Report.ofError (stdout : String) (e : Error) : Report :=
  .failure stdout e.message e.exitCode

def usage : Report :=
  .failure "" ("Usage: lox [--max-call-depth N] [--log] [--log-file PATH] " ++
    "<tokenize [--json]|parse|evaluate|run|repl> [FILE]") 2

def noFileGiven : Report :=
  .failure "" "No input filepath was provided." 64

def notRead (file : String) : ReadFault → Report
  | .notOpened fault =>
    .failure "" (s!"Failed to open file {Text.inspectQuoted file}: " ++ fault.text) 74
  | .notMapped =>
    .failure "" (s!"Failed to map file {Text.inspectQuoted file}: " ++
      "No such device (os error 19)") 74

def logNotCreated (path : String) (fault : PathFault) : Report :=
  .failure "" (s!"Error: Failed to create {Text.inspectQuoted path}" ++
    "\n\nCaused by:\n    " ++ fault.text) 1

def stdinNotText (stdout stderr : String) : Report :=
  ⟨stdout, stderr ++ "Error: Failed to read from stdin\n\nCaused by:\n" ++
    "    stream did not contain valid UTF-8\n", 1⟩

/-- A file of source text; `read` yields the bytes of a file. -/
def sourceText (read : String → Except ReadFault ByteArray) (file : Option String) :
    Except Report String :=
  match file with
  | none => .error noFileGiven
  | some name =>
    match read name with
    | .error fault => .error (notRead name fault)
    | .ok bytes =>
      match Text.Utf8.decode bytes.toList with
      | .ok text => .ok text
      | .error fault => .error (.ofError "" (.utf8 fault))

def lines (texts : List String) : String :=
  String.join (texts.map (· ++ "\n"))

def tokenize (json : Bool) (text : String) : Report :=
  let found := tokens text
  let errors := lexErrors text
  let stdout := if json then Token.indentedJsonList found ++ "\n"
    else lines (found.map Token.display)
  ⟨stdout, lines (errors.map fun e => (Error.lex e).message), if errors.isEmpty then 0 else 65⟩

/-- The tree of a program, or else of an expression. -/
def parse (text : String) : Report :=
  match parseProgram text with
  | .ok p => .ok (p.render ++ "\n")
  | .error e =>
    match parseExpression text with
    | .ok expr => .ok (expr.render ++ "\n")
    | .error _ => .ofError "" e

/-- Output as text. -/
def drainText (s : Session) : String × Session :=
  let (bytes, s) := s.drain
  (Text.Utf8.decodeLenient bytes.toList, s)

def evaluate (fuel : Nat) (s : Session) (text : String) : Option Report :=
  (s.evaluate fuel text).map fun (result, s) =>
    let (output, _) := drainText s
    match result with
    | .ok v => .ok (output ++ v.display ++ "\n")
    | .error e => .ofError output e

def run (fuel : Nat) (s : Session) (text : String) : Option Report :=
  (s.run fuel text).map fun (result, s) =>
    let (output, _) := drainText s
    match result with
    | .ok () => .ok output
    | .error e => .ofError output e

/-! ## The interactive session -/

def prompt : String := "> "

/-- What one line of input leads to. -/
inductive Reply where
  /-- Go on, after writing to both outputs. -/
  | next (s : Session) (stdout stderr : String)
  /-- End with an error, after writing to standard output. -/
  | fatal (stdout : String) (e : Error)

/-- The reply to a line that ended like this, after its output. -/
def Reply.ofResult (s : Session) (output : String) (result : Except Error (Option Value)) :
    Reply :=
  match result with
  | .ok (some v) => .next s (output ++ v.display ++ "\n") ""
  | .ok none => .next s output ""
  | .error e => if e.isFatal then .fatal output e else .next s output (e.message ++ "\n")

/-- Answers a line, which includes its line break. -/
def reply (fuel : Nat) (s : Session) (line : String) : Option Reply :=
  if Text.allBlank line then some (.next s "" "")
  else (s.runLine fuel line).map fun (result, s) =>
    let (output, s) := drainText s
    .ofResult s output result

/-- Cuts bytes after each line break. -/
def splitLines (bytes : List UInt8) : List (List UInt8) :=
  let (done, last) := bytes.foldl (fun (done, current) b =>
    if b == 10 then ((b :: current).reverse :: done, []) else (done, b :: current)) ([], [])
  (if last.isEmpty then done else last.reverse :: done).reverse

/-- Answers lines until they end, after what was written before. -/
def replies (fuel : Nat) (s : Session) (stdout stderr : String) :
    List (List UInt8) → Option Report
  | [] => some ⟨stdout ++ prompt ++ "\n", stderr, 0⟩
  | bytes :: rest =>
    let stdout := stdout ++ prompt
    match Text.Utf8.decode bytes with
    | .error _ => some (stdinNotText stdout stderr)
    | .ok line => do
      match ← reply fuel s line with
      | .next s out err => replies fuel s (stdout ++ out) (stderr ++ err) rest
      | .fatal out e => return ⟨stdout ++ out, stderr ++ e.message ++ "\n", e.exitCode⟩

/-! ## The whole program -/

/-- What a program can see of the place it runs in. -/
structure Place where
  /-- The bytes of a file. -/
  read : String → Except ReadFault ByteArray
  /-- Whether a file can be written under this path. -/
  create : String → Except PathFault Unit
  stdin : ByteArray
  /-- The readings of the clock. -/
  reading : Nat → Float

/-- Does a command. Each run of code takes at most `fuel` steps. -/
def perform (fuel : Nat) (place : Place) (invocation : Invocation) : Option Report :=
  let s := (Session.new .unlimited place.reading).setMaxDepth invocation.maxDepth
  let withSource := fun (file : Option String) (act : String → Option Report) =>
    match sourceText place.read file with
    | .ok text => act text
    | .error report => some report
  match invocation.command with
  | .tokenize file json => withSource file fun text => some (tokenize json text)
  | .parse file => withSource file fun text => some (parse text)
  | .evaluate file => withSource file (evaluate fuel s)
  | .run file => withSource file (run fuel s)
  | .repl => replies fuel s "" "" (splitLines place.stdin.toList)

/-- What the program does with its arguments. A log that cannot be created stops it first. -/
def execute (fuel : Nat) (place : Place) (arguments : List String) : Option Report :=
  match Invocation.ofArguments? arguments with
  | none => some usage
  | some invocation =>
    match invocation.logFile with
    | none => perform fuel place invocation
    | some path =>
      match place.create path with
      | .ok () => perform fuel place invocation
      | .error fault => some (logNotCreated path fault)

end Lox.CommandLine
