/-!
# Syntax trees

Expressions, statements and function declarations, with the lines that reports refer to. Every
occurrence of a name that is looked up has a slot, empty until scopes have been resolved.
-/

set_option autoImplicit false

namespace Lox

/-- A name with the line it is written on. -/
structure Ident where
  name : String
  line : Nat
  deriving DecidableEq, Repr

/-- Where a name is bound: so many scopes outward, or at top level. -/
inductive Binding where
  | atDistance (distance : Nat)
  | atTop
  deriving DecidableEq, Repr

/-- The place in a tree for an occurrence's binding. -/
abbrev Slot := Option Binding

inductive Literal where
  | nil
  | bool (value : Bool)
  | number (value : Float)
  | string (value : String)
  deriving DecidableEq, Repr

inductive UnaryOp where
  | negate
  | not
  deriving DecidableEq, Repr

def UnaryOp.text : UnaryOp → String
  | .negate => "-"
  | .not => "!"

inductive BinaryOp where
  | add
  | subtract
  | multiply
  | divide
  | equal
  | notEqual
  | greater
  | greaterEqual
  | less
  | lessEqual
  deriving DecidableEq, Repr

def BinaryOp.text : BinaryOp → String
  | .add => "+"
  | .subtract => "-"
  | .multiply => "*"
  | .divide => "/"
  | .equal => "=="
  | .notEqual => "!="
  | .greater => ">"
  | .greaterEqual => ">="
  | .less => "<"
  | .lessEqual => "<="

inductive LogicalOp where
  | and
  | or
  deriving DecidableEq, Repr

def LogicalOp.text : LogicalOp → String
  | .and => "and"
  | .or => "or"

mutual

inductive Expr where
  | literal (value : Literal) (line : Nat)
  | group (inner : Expr)
  | variable (name : Ident) (slot : Slot)
  | assign (name : Ident) (value : Expr) (slot : Slot)
  | unary (op : UnaryOp) (operand : Expr) (line : Nat)
  | binary (op : BinaryOp) (left right : Expr) (line : Nat)
  | logical (op : LogicalOp) (left right : Expr) (line : Nat)
  | call (callee : Expr) (arguments : List Expr) (line : Nat)
  | get (object : Expr) (name : Ident)
  | set (object : Expr) (name : Ident) (value : Expr)
  | this (line : Nat) (slot : Slot)
  | super (line : Nat) (method : Ident) (slot : Slot)
  | lambda (decl : FunDecl)

inductive Stmt where
  | expression (value : Expr)
  | print (value : Expr)
  | var (name : Ident) (initializer : Option Expr)
  | block (body : List Stmt)
  | cond (condition : Expr) (thenBranch : Stmt) (elseBranch : Option Stmt)
  | loop (condition : Expr) (body : Stmt)
  | function (decl : FunDecl)
  | ret (line : Nat) (value : Option Expr)
  | brk (line : Nat)
  /-- A class; its superclass is given by name. -/
  | classDecl (name : Ident) (superclass : Option (Ident × Slot)) (methods : List FunDecl)

/-- A function's parameters and body; an anonymous function has no name. -/
structure FunDecl where
  name : Option Ident
  params : List Ident
  body : List Stmt
  line : Nat

end

abbrev Program := List Stmt

/-- The line that a report about an expression names. -/
def Expr.line : Expr → Nat
  | .literal _ line => line
  | .group inner => inner.line
  | .variable name _ => name.line
  | .assign name _ _ => name.line
  | .unary _ _ line => line
  | .binary _ _ _ line => line
  | .logical _ _ _ line => line
  | .call _ _ line => line
  | .get _ name => name.line
  | .set _ name _ => name.line
  | .this line _ => line
  | .super line _ _ => line
  | .lambda decl => decl.line

/-- The line that a report about a statement names; an empty block has line 0. -/
def Stmt.line : Stmt → Nat
  | .expression value => value.line
  | .print value => value.line
  | .var name _ => name.line
  | .block [] => 0
  | .block (first :: _) => first.line
  | .cond condition _ _ => condition.line
  | .loop condition _ => condition.line
  | .function decl => decl.line
  | .ret line _ => line
  | .brk line => line
  | .classDecl name _ _ => name.line

def Stmt.isFunction : Stmt → Bool
  | .function _ => true
  | _ => false

end Lox
