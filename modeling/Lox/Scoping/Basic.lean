import Lox.Error.Basic
import Lox.Syntax.Basic

/-!
# Scopes at a place in a program

What is known about names at a place: the scopes that are open there, the function, class and
loops around it, and the violations of the static rules found on the way to it. The actions of
this module change that knowledge; the walk that performs them is elsewhere.
-/

set_option autoImplicit false

namespace Lox

/-- The innermost class around a place: none, one without or one with a superclass. -/
inductive ClassContext where
  | outside
  | plain
  | derived
  deriving DecidableEq, Repr

/-- What is known at a place in a program. -/
structure Scoping where
  /-- The names declared so far in each open scope, innermost scope first. The top level is not
  among them. -/
  scopes : List (List String)
  inFunction : Bool
  classContext : ClassContext
  /-- How many loops of the same function are open. -/
  loopDepth : Nat
  /-- The variable whose initializer is being resolved. It is declared in the innermost scope, and
  not yet visible there. -/
  pending : Option String
  errors : List ResolveError
  deriving DecidableEq, Repr

namespace Scoping

def fresh : Scoping where
  scopes := []
  inFunction := false
  classContext := .outside
  loopDepth := 0
  pending := none
  errors := []

/-- How many scopes outward the nearest one that declares the name is. -/
def distance? (name : String) : List (List String) → Option Nat
  | [] => none
  | scope :: outer => if name ∈ scope then some 0 else (distance? name outer).map (· + 1)

/-- The distance of the nearest visible declaration. -/
def visible? (r : Scoping) (name : String) : Option Nat :=
  if r.pending = some name then
    match r.scopes with
    | [] => none
    | _ :: outer => (distance? name outer).map (· + 1)
  else distance? name r.scopes

/-- Where a name that occurs here is bound. -/
def binding (r : Scoping) (name : String) : Binding :=
  match r.visible? name with
  | some d => .atDistance d
  | none => .atTop

end Scoping

/-- Resolution at a place, which learns declarations and violations as it goes. -/
abbrev ResolveM := StateM Scoping

namespace ResolveM

def report (line : Nat) (lexeme : String) (fault : ResolveFault) : ResolveM Unit :=
  modify fun r => { r with errors := r.errors ++ [⟨line, lexeme, fault⟩] }

/-- Adds a name to the innermost scope, unless it is there already. Nothing is tracked at top
level. -/
def declare (name : Ident) : ResolveM Unit := do
  match (← get).scopes with
  | [] => pure ()
  | scope :: outer =>
    if name.name ∈ scope then
      report name.line name.name .redeclared
    else
      modify fun r => { r with scopes := (name.name :: scope) :: outer }

def declareAll : List Ident → ResolveM Unit
  | [] => pure ()
  | name :: names => do
    declare name
    declareAll names

/-- Declares the functions that stand directly in a body. -/
def declareFunctions : List Stmt → ResolveM Unit
  | [] => pure ()
  | .function decl :: rest => do
    declareAll decl.name.toList
    declareFunctions rest
  | _ :: rest => declareFunctions rest

def bindingOf (name : String) : ResolveM Binding := do
  return (← get).binding name

/-- Runs `act` in a new scope that declares `names`. -/
def inScope {α : Type} (names : List String) (act : ResolveM α) : ResolveM α := do
  modify fun r => { r with scopes := names :: r.scopes }
  let a ← act
  modify fun r => { r with scopes := r.scopes.tail }
  return a

/-- Runs `act` in the scope of a function's parameters and body. -/
def inFunction {α : Type} (act : ResolveM α) : ResolveM α := do
  let outer ← get
  set { outer with inFunction := true, loopDepth := 0, pending := none }
  let a ← inScope [] act
  modify fun r => { r with
    inFunction := outer.inFunction, loopDepth := outer.loopDepth, pending := outer.pending }
  return a

def inClass {α : Type} (context : ClassContext) (act : ResolveM α) : ResolveM α := do
  let outer ← get
  set { outer with classContext := context }
  let a ← act
  modify fun r => { r with classContext := outer.classContext }
  return a

def inLoop {α : Type} (act : ResolveM α) : ResolveM α := do
  modify fun r => { r with loopDepth := r.loopDepth + 1 }
  let a ← act
  modify fun r => { r with loopDepth := r.loopDepth - 1 }
  return a

/-- Runs `act` on the initializer of a variable. -/
def initializing {α : Type} (name : String) (act : ResolveM α) : ResolveM α := do
  let outer ← get
  set { outer with pending := some name }
  let a ← act
  modify fun r => { r with pending := outer.pending }
  return a

end ResolveM

end Lox
