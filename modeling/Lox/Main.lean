import Lox.CommandLine
import Std.Time.DateTime.Timestamp

/-!
# The program

Reads files and standard input, and writes what the command line reports. Code runs in slices, so
that output appears while it runs and the clock moves on.
-/

set_option autoImplicit false

namespace Lox.Main

open CommandLine hiding execute perform

/-- Seconds since the epoch, to the microsecond. -/
def now : IO Float := do
  let t ← Std.Time.Timestamp.now
  return Float.ofInt (t.toNanosecondsSinceUnixEpoch.val / 1000) / 1000000

/-- How many steps are taken between two looks at the clock. -/
def slice : Nat := 20000

/-- Runs a machine to its end and writes its output on the way. -/
partial def drive (m : Machine) : IO Machine := do
  let t ← now
  let m := { m with world := { m.world with clock := ⟨fun _ => t, 0⟩ } }
  let m := m.run slice
  let (bytes, world) := Session.drain m.world
  let stdout ← IO.getStdout
  if !bytes.isEmpty then
    stdout.write bytes
    stdout.flush
  let m := { m with world := world }
  if m.isFinal then return m else drive m

def write (report : Report) : IO UInt32 := do
  IO.print report.stdout
  IO.eprint report.stderr
  (← IO.getStdout).flush
  return UInt32.ofNat report.exit

/-- Does a task whose source may have errors. -/
def perform (s : Session) (task : Except Error Task) :
    IO (Except Error (Option Value) × Session) := do
  match task with
  | .error e => return (.error e, s)
  | .ok task =>
    let m ← drive (task.start s)
    return (task.result? m).getD (.ok none, m.world)

def report (result : Except Error (Option Value)) : Report :=
  match result with
  | .ok (some v) => .ok (v.display ++ "\n")
  | .ok none => .ok ""
  | .error e => .ofError "" e

/-- One line of standard input with its line break, empty at the end. -/
partial def readLine (input : IO.FS.Stream) (before : List UInt8) : IO (List UInt8) := do
  let bytes ← input.read 1
  match bytes.toList with
  | [] => return before.reverse
  | b :: _ => if b == 10 then return (b :: before).reverse else readLine input (b :: before)

partial def interact (s : Session) : IO UInt32 := do
  let stdout ← IO.getStdout
  stdout.putStr prompt
  stdout.flush
  let bytes ← readLine (← IO.getStdin) []
  if bytes.isEmpty then
    write (.ok "\n")
  else match Text.Utf8.decode bytes with
    | .error _ => write (stdinNotText "" "")
    | .ok line =>
      if Text.allBlank line then interact s
      else
        let (result, s) ← perform s (Task.ofLine line)
        match Reply.ofResult s "" result with
        | .next s out err =>
          let _ ← write ⟨out, err, 0⟩
          interact s
        | .fatal out e => write (.ofError out e)

/-- Why the system did not follow a path. -/
def pathFault : IO.Error → PathFault
  | .permissionDenied _ _ _ => .denied
  | .inappropriateType _ code _ => if code == 21 then .isFolder else .notFolder
  | .invalidArgument _ _ _ => .nameTooLong
  | _ => .missing

def readFile (name : String) : IO (Except ReadFault ByteArray) := do
  try
    let bytes ← IO.FS.readBinFile name
    return .ok bytes
  catch e =>
    match pathFault e with
    | .isFolder => return .error .notMapped
    | fault => return .error (.notOpened fault)

/-- Hands the text of a file to `act`, or reports why there is none. -/
def withSource (file : Option String) (act : String → IO UInt32) : IO UInt32 := do
  let bytes ← readFile (file.getD "")
  match sourceText (fun _ => bytes) file with
  | .error failure => write failure
  | .ok text => act text

def execute (invocation : Invocation) : IO UInt32 := do
  let s := (Session.new .unlimited fun _ => 0).setMaxDepth invocation.maxDepth
  match invocation.command with
  | .tokenize file json => withSource file fun text => write (tokenize json text)
  | .parse file => withSource file fun text => write (parse text)
  | .evaluate file => withSource file fun text => do
    let (result, _) ← perform s (Task.ofExpression text)
    write (report result)
  | .run file => withSource file fun text => do
    let (result, _) ← perform s (Task.ofProgram text)
    write (report result)
  | .repl => interact s

/-- Empties a file, if that is possible. -/
def create (path : String) : IO (Except PathFault Unit) := do
  try
    IO.FS.writeFile path ""
    return .ok ()
  catch e => return .error (pathFault e)

end Lox.Main

def main (arguments : List String) : IO UInt32 := do
  match Lox.CommandLine.Invocation.ofArguments? arguments with
  | none => Lox.Main.write Lox.CommandLine.usage
  | some invocation =>
    match invocation.logFile with
    | none => Lox.Main.execute invocation
    | some path =>
      match ← Lox.Main.create path with
      | .ok () => Lox.Main.execute invocation
      | .error fault => Lox.Main.write (Lox.CommandLine.logNotCreated path fault)
