import Lox.Machine.World

/-!
# Machines

A program at some moment of its run: what it does next, what waits for that, and its world.
-/

set_option autoImplicit false

namespace Lox

/-- How a statement ends that does not fail. -/
inductive Completion where
  | normal
  | returned (value : Value)
  | broken

/-- What waits for an expression's value or a statement's completion. -/
inductive Frame where
  /-- The value is to be assigned. -/
  | assign (name : Ident) (slot : Slot)
  | unary (op : UnaryOp) (line : Nat)
  /-- The value is the left operand. -/
  | left (op : BinaryOp) (right : Expr) (line : Nat)
  /-- The value is the right operand. -/
  | right (op : BinaryOp) (left : Value) (line : Nat)
  | logical (op : LogicalOp) (right : Expr)
  /-- The value is to be called. -/
  | callee (arguments : List Expr) (line : Nat)
  /-- The value is an argument; those before it are in reverse order. -/
  | argument (callee : Value) (before : List Value) (after : List Expr) (line : Nat)
  | get (name : Ident)
  /-- The value is the instance whose field is to be set. -/
  | setTarget (name : Ident) (value : Expr)
  /-- The value is what a field is to be set to. -/
  | setField (object : ObjectId) (name : Ident)
  | discard
  | print
  | define (name : Ident)
  | branch (thenBranch : Stmt) (elseBranch : Option Stmt)
  /-- The value decides whether a loop goes on. -/
  | test (condition : Expr) (body : Stmt)
  /-- The completion is that of a loop's body. -/
  | again (condition : Expr) (body : Stmt)
  | ret
  /-- The value is a class's superclass. -/
  | inherit (name : Ident) (line : Nat) (methods : List FunDecl)
  /-- The completion is followed by these statements; functions among them are defined already. -/
  | sequence (rest : List Stmt)
  /-- The scopes to go back to. -/
  | restore (env : Env)
  /-- The completion is that of a function's body. -/
  | finish (closure : Closure)
  /-- The value is an initializer's, and gives way to the new instance. -/
  | created (object : Value)
  /-- A call ends. -/
  | leave
  /-- The completion is that of a statement of the top level on the given line. -/
  | top (line : Nat) (rest : List Stmt)

inductive Focus where
  | evaluate (e : Expr)
  | execute (s : Stmt)
  | value (v : Value)
  | completed (c : Completion)
  | failed (e : Error)

structure Machine where
  focus : Focus
  /-- What waits for the focus, innermost first. -/
  frames : List Frame
  world : World

namespace Machine

def evaluating (e : Expr) (w : World) : Machine := ⟨.evaluate e, [], w⟩

def executing (s : Stmt) (w : World) : Machine := ⟨.execute s, [], w⟩

/-- The statements of a program's top level, one after the other. -/
def running (p : Program) (w : World) : Machine := ⟨.completed .normal, [.top 0 p], w⟩

/-- Whether there is nothing left to do. -/
def isFinal (m : Machine) : Bool :=
  match m.frames, m.focus with
  | [], .value _ => true
  | [], .completed _ => true
  | [], .failed _ => true
  | _, _ => false

end Machine

end Lox
