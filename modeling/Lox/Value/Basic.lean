import Lox.Error.Fault
import Lox.Syntax.Basic
import Lox.Value.Bindings

/-!
# Values

What expressions evaluate to. Functions, classes and instances have an identity of their own,
given when they are made; the fields of an instance are kept apart from it, in the store.
-/

set_option autoImplicit false

namespace Lox

/-- The address of a scope in the store. -/
abbrev ScopeId := Nat

/-- The address of an instance's fields in the store. -/
abbrev ObjectId := Nat

/-- The scopes in force at a place, innermost first. The last one is the top level. -/
abbrev Env := List ScopeId

/-- A function together with the scopes it was made in. -/
structure Closure where
  decl : FunDecl
  env : Env
  isInitializer : Bool

def Closure.arity (c : Closure) : Nat :=
  c.decl.params.length

/-- Functions that the host provides. -/
inductive Native where
  | clock
  | fails
  | failWith
  | typeOf
  | str
  | same
  deriving DecidableEq, Repr

def Native.name : Native → String
  | .clock => "clock"
  | .fails => "fails"
  | .failWith => "failWith"
  | .typeOf => "typeOf"
  | .str => "str"
  | .same => "same"

def Native.arity : Native → Nat
  | .clock => 0
  | .fails => 0
  | .failWith => 1
  | .typeOf => 1
  | .str => 1
  | .same => 2

/-- What one class declaration contributes. -/
structure Layer where
  id : Nat
  name : String
  methods : Bindings Closure

/-- A class: its own layer, and below it those of its superclasses, the nearest first. -/
structure Class where
  own : Layer
  inherited : List Layer

namespace Class

def name (c : Class) : String := c.own.name

def superclass? (c : Class) : Option Class :=
  match c.inherited with
  | [] => none
  | layer :: rest => some ⟨layer, rest⟩

/-- The method of the nearest layer that has one of this name. -/
def findMethod? (c : Class) (name : String) : Option Closure :=
  (c.own :: c.inherited).findSome? fun layer => layer.methods.find? name

/-- The name of the method that a new instance is passed to. -/
def initializerName : String := "init"

/-- How many arguments it takes to make an instance. -/
def arity (c : Class) : Nat :=
  match c.findMethod? initializerName with
  | some initializer => initializer.arity
  | none => 0

end Class

inductive Value where
  | nil
  | bool (value : Bool)
  | number (value : Float)
  | string (value : String)
  | function (id : Nat) (closure : Closure)
  /-- A method together with its receiver, which the closure's innermost scope holds. -/
  | method (id : Nat) (closure : Closure)
  | native (id : Nat) (native : Native)
  | classRef (cls : Class)
  | object (id : ObjectId) (cls : Class)

namespace Value

def ofLiteral : Literal → Value
  | .nil => .nil
  | .bool b => .bool b
  | .number x => .number x
  | .string s => .string s

/-- All values but `nil` and `false` count as true. -/
def isTruthy : Value → Bool
  | .nil => false
  | .bool b => b
  | _ => true

def type : Value → ValueType
  | .nil => .nil
  | .bool _ => .boolean
  | .number _ => .number
  | .string _ => .string
  | .function _ _ => .function
  | .method _ _ => .function
  | .native _ _ => .function
  | .classRef _ => .classType
  | .object _ _ => .instanceType

/-- Equality in the language: numbers and strings by content, all else that is made by
identity. -/
def equals : Value → Value → Bool
  | .nil, .nil => true
  | .bool a, .bool b => a == b
  | .number a, .number b => a == b
  | .string a, .string b => a == b
  | .function a _, .function b _ => a == b
  | .method a _, .method b _ => a == b
  | .native a _, .native b _ => a == b
  | .classRef a, .classRef b => a.own.id == b.own.id
  | .object a _, .object b _ => a == b
  | _, _ => false

/-- How many arguments a call of the value takes, if it can be called. -/
def arity? : Value → Option Nat
  | .function _ closure => some closure.arity
  | .method _ closure => some closure.arity
  | .native _ host => some host.arity
  | .classRef cls => some cls.arity
  | _ => none

end Value

end Lox
