import Lox.Value.Display
import Lox.Value.Store

/-!
# The world of a program

Everything that a running program can change or ask about: the store and the scopes in force, how
many calls are open, where its output goes, and the clock.
-/

set_option autoImplicit false

namespace Lox

structure Sink where
  written : ByteArray
  /-- How many more bytes are taken; any number if absent. -/
  room : Option Nat
  refusesFlush : Bool

namespace Sink

def unlimited : Sink := ⟨.empty, none, false⟩

/-- Writes as much of a text as there is room for, and says whether that was all. -/
def write (s : Sink) (text : String) : Bool × Sink :=
  let bytes := text.toUTF8
  match s.room with
  | none => (true, { s with written := s.written ++ bytes })
  | some room => (decide (bytes.size ≤ room),
      { s with written := s.written ++ bytes.extract 0 room, room := some (room - bytes.size) })

def drain (s : Sink) : ByteArray × Sink :=
  (s.written, { s with written := .empty })

end Sink

/-- The readings that a clock will give, and how many it has given. -/
structure Clock where
  reading : Nat → Float
  taken : Nat

structure World where
  store : Store
  env : Env
  /-- How many calls are open. -/
  depth : Nat
  /-- How many calls may be open at once. -/
  maxDepth : Nat
  sink : Sink
  clock : Clock

namespace World

def topEnv : Env := [0]

def defaultMaxDepth : Nat := 4096

def initial (sink : Sink) (reading : Nat → Float) : World where
  store := ⟨#[.single Native.clock.name (.native 0 .clock)], #[], 1⟩
  env := topEnv
  depth := 0
  maxDepth := defaultMaxDepth
  sink := sink
  clock := ⟨reading, 0⟩

def reset (w : World) : World :=
  { w with env := topEnv, depth := 0 }

def newId (w : World) : Nat × World :=
  let (id, store) := w.store.newId
  (id, { w with store := store })

/-- Adds a scope, which is not in force yet. -/
def newScope (w : World) (bindings : Bindings Value) : ScopeId × World :=
  let (id, store) := w.store.newScope bindings
  (id, { w with store := store })

def newObject (w : World) : ObjectId × World :=
  let (id, store) := w.store.newObject
  (id, { w with store := store })

/-- Binds a name in the innermost scope in force. -/
def define (w : World) (name : String) (value : Value) : World :=
  { w with store := w.store.define w.env name value }

def setField (w : World) (id : ObjectId) (name : String) (value : Value) : World :=
  { w with store := w.store.setField id name value }

def makeFunction (w : World) (decl : FunDecl) : Value × World :=
  let closure : Closure := ⟨decl, w.env, false⟩
  let (id, w) := w.newId
  (.function id closure, w)

def defineFunction (w : World) (decl : FunDecl) : World :=
  match decl.name with
  | none => w
  | some name =>
    let (f, w) := w.makeFunction decl
    w.define name.name f

/-- Defines the functions that stand directly in a body. -/
def defineFunctions (w : World) : List Stmt → World
  | [] => w
  | .function decl :: rest => (w.defineFunction decl).defineFunctions rest
  | _ :: rest => w.defineFunctions rest

def read (w : World) (name : String) (line : Nat) : Slot → Except Error Value
  | some (.atDistance d) => w.store.getAt w.env d name line
  | some .atTop => w.store.get topEnv name line
  | none => .error (.internal (.unresolved name line))

def assign (w : World) (name : Ident) (value : Value) : Slot → Except Error Unit × World
  | some (.atDistance d) =>
    let (done, store) := w.store.assignAt w.env d name.name value name.line
    (done, { w with store := store })
  | some .atTop =>
    let (done, store) := w.store.assign topEnv name.name value name.line
    (done, { w with store := store })
  | none => (.error (.internal (.unresolved name.name name.line)), w)

/-- Binds a method to its receiver, in a scope of its own. -/
def bind (w : World) (method : Closure) (receiver : Value) : Closure × World :=
  let (id, w) := w.newScope (.single "this" receiver)
  ({ method with env := id :: method.env }, w)

def boundMethod (w : World) (method : Closure) (receiver : Value) : Value × World :=
  let (closure, w) := w.bind method receiver
  let (id, w) := w.newId
  (.method id closure, w)

def print (w : World) (text : String) : Bool × World :=
  let (done, sink) := w.sink.write (text ++ "\n")
  (done, { w with sink := sink })

def readClock (w : World) : Float × World :=
  (w.clock.reading w.clock.taken, { w with clock := { w.clock with taken := w.clock.taken + 1 } })

def inspect (w : World) (v : Value) : String :=
  v.inspect w.store.fieldNames

end World

end Lox
