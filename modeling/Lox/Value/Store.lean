import Lox.Error.Basic
import Lox.Value.Basic

/-!
# The store

The scopes and instances that a program has made. Addresses are given out in order and stay
valid. An environment is a list of scope addresses, so scopes are shared by all who hold them.
-/

set_option autoImplicit false

namespace Lox

structure Store where
  scopes : Array (Bindings Value)
  /-- The fields of each instance. -/
  objects : Array (Bindings Value)
  /-- The next identity to give out. -/
  nextId : Nat

namespace Store

def empty : Store := ⟨#[], #[], 0⟩

/-- Adds a scope with these bindings and returns its address. -/
def newScope (σ : Store) (bindings : Bindings Value) : ScopeId × Store :=
  (σ.scopes.size, { σ with scopes := σ.scopes.push bindings })

/-- Adds an instance without fields and returns its address. -/
def newObject (σ : Store) : ObjectId × Store :=
  (σ.objects.size, { σ with objects := σ.objects.push .empty })

/-- Gives out an identity. -/
def newId (σ : Store) : Nat × Store :=
  (σ.nextId, { σ with nextId := σ.nextId + 1 })

/-- What a scope binds a name to. -/
def find? (σ : Store) (id : ScopeId) (name : String) : Option Value :=
  match σ.scopes[id]? with
  | some scope => scope.find? name
  | none => none

/-- Binds a name in a scope. -/
def put (σ : Store) (id : ScopeId) (name : String) (value : Value) : Store :=
  { σ with scopes := σ.scopes.modify id fun scope => scope.put name value }

/-- Binds a name in the innermost scope. -/
def define (σ : Store) (env : Env) (name : String) (value : Value) : Store :=
  match env with
  | [] => σ
  | id :: _ => σ.put id name value

def undefined (name : String) (line : Nat) : Error :=
  .runtime (.undefinedVariable name) line

def tooDeep (name : String) (line : Nat) : Error :=
  .internal (.scopeTooDeep name line)

/-- Reads a name from the nearest scope that binds it. -/
def get (σ : Store) (env : Env) (name : String) (line : Nat) : Except Error Value :=
  match env with
  | [] => .error (undefined name line)
  | id :: outer =>
    match σ.find? id name with
    | some value => .ok value
    | none => σ.get outer name line

/-- Overwrites a name in the nearest scope that binds it. -/
def assign (σ : Store) (env : Env) (name : String) (value : Value) (line : Nat) :
    Except Error Unit × Store :=
  match env with
  | [] => (.error (undefined name line), σ)
  | id :: outer =>
    match σ.find? id name with
    | some _ => (.ok (), σ.put id name value)
    | none => σ.assign outer name value line

/-- Reads a name from the scope at a distance. -/
def getAt (σ : Store) (env : Env) (distance : Nat) (name : String) (line : Nat) :
    Except Error Value :=
  match env[distance]? with
  | none => .error (tooDeep name line)
  | some id =>
    match σ.find? id name with
    | some value => .ok value
    | none => .error (undefined name line)

/-- Overwrites a name in the scope at a distance. -/
def assignAt (σ : Store) (env : Env) (distance : Nat) (name : String) (value : Value)
    (line : Nat) : Except Error Unit × Store :=
  match env[distance]? with
  | none => (.error (tooDeep name line), σ)
  | some id =>
    match σ.find? id name with
    | some _ => (.ok (), σ.put id name value)
    | none => (.error (undefined name line), σ)

def field? (σ : Store) (id : ObjectId) (name : String) : Option Value :=
  match σ.objects[id]? with
  | some fields => fields.find? name
  | none => none

def setField (σ : Store) (id : ObjectId) (name : String) (value : Value) : Store :=
  { σ with objects := σ.objects.modify id fun fields => fields.put name value }

def fieldNames (σ : Store) (id : ObjectId) : List String :=
  match σ.objects[id]? with
  | some fields => fields.names
  | none => []

end Store

end Lox
