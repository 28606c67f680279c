import Lox.Proofs.Machine.Basic
import Lox.Proofs.Scoping.Actions

/-!
# Why scopes are made

Four things make a scope: a block, a call, the binding of a method to its receiver, and the
declaration of a class with a superclass. `Machine.made` lists the scopes that the next step of a
machine makes, in the order of their addresses.
-/

set_option autoImplicit false

namespace Lox

open Scoping

/-- What a scope was made by. -/
inductive Cause where
  /-- A block that was executed in the scopes `outer`. -/
  | block (outer : Env) (body : List Stmt)
  | call (closure : Closure)
  /-- A method that was found for a receiver. -/
  | bind (method : Closure) (receiver : Value)
  /-- A class that was declared in the scopes `outer`, with the superclass found there. -/
  | inherit (outer : Env) (parent : Class) (methods : List FunDecl)

namespace Cause

/-- The scopes that the new one was made in. -/
def outer : Cause → Env
  | .block outer _ => outer
  | .call closure => closure.env
  | .bind method _ => method.env
  | .inherit outer _ _ => outer

/-- What the scope binds to names that are not plain. -/
def special : Cause → Bindings Value
  | .block _ _ | .call _ => .empty
  | .bind _ receiver => .single "this" receiver
  | .inherit _ parent _ => .single "super" (.classRef parent)

/-- Whether code runs in the scope, so that names can be declared in it. -/
def hasBody : Cause → Bool
  | .block _ _ | .call _ => true
  | .bind _ _ | .inherit _ _ _ => false

/-- The names that are bound before code runs in the scope. -/
def names : Cause → List String
  | .block _ body => functionNames body
  | .call closure => closure.decl.params.map Ident.name ++ functionNames closure.decl.body
  | .bind _ _ | .inherit _ _ _ => []

end Cause

/-- What the scopes of a store were made by, in the order of their addresses. The top level is not
among them. -/
abbrev Causes := List Cause

def Causes.cause? (causes : Causes) : ScopeId → Option Cause
  | 0 => none
  | id + 1 => causes[id]?

theorem getElem?_of_prefix {α : Type} {as as' : List α} (h : as <+: as') {i : Nat} {a : α}
    (ha : as[i]? = some a) : as'[i]? = some a := by
  obtain ⟨more, rfl⟩ := h
  exact (List.getElem?_append_left (List.getElem?_eq_some_iff.1 ha).1).trans ha

theorem Causes.cause?_mono {causes causes' : Causes} (h : causes <+: causes') {id : ScopeId}
    {cause : Cause} (hc : causes.cause? id = some cause) : causes'.cause? id = some cause := by
  cases id with
  | zero => cases hc
  | succ id => exact getElem?_of_prefix h hc

/-- The method once the scope holds its receiver. -/
def Closure.bound (method : Closure) (scope : ScopeId) : Closure :=
  { method with env := scope :: method.env }

/-! ## The scopes that a step makes -/

namespace Machine

/-- The scopes that a call makes. -/
def madeByCall (callee : Value) (arguments : List Value) (w : World) : Causes :=
  if callee.arity? = some arguments.length ∧ w.depth < w.maxDepth then
    match callee with
    | .function _ closure => [.call closure]
    | .method _ closure => [.call closure]
    | .classRef cls =>
      match cls.findMethod? Class.initializerName with
      | none => []
      | some initializer =>
        [.bind initializer (.object w.store.objects.size cls),
          .call (initializer.bound w.store.scopes.size)]
    | _ => []
  else []

/-- The scope that reading a property makes, if the property is a method. -/
def madeByGet (id : ObjectId) (cls : Class) (name : Ident) (w : World) : Causes :=
  match w.store.field? id name.name with
  | some _ => []
  | none => (cls.findMethod? name.name).toList.map (.bind · (.object id cls))

def madeBySuper (line : Nat) (method : Ident) (slot : Slot) (w : World) : Causes :=
  match superParts line slot w with
  | .error _ => []
  | .ok (cls, receiver) => (cls.findMethod? method.name).toList.map (.bind · receiver)

/-- The scopes that the next step makes. -/
def made : Machine → Causes
  | ⟨.evaluate (.super line method slot), _, w⟩ => madeBySuper line method slot w
  | ⟨.execute (.block body), _, w⟩ => [.block w.env body]
  | ⟨.value v, .callee [] _ :: _, w⟩ => madeByCall v [] w
  | ⟨.value v, .argument callee before [] _ :: _, w⟩ => madeByCall callee (v :: before).reverse w
  | ⟨.value (.object id cls), .get name :: _, w⟩ => madeByGet id cls name w
  | ⟨.value (.classRef parent), .inherit _ _ methods :: _, w⟩ => [.inherit w.env parent methods]
  | _ => []

/-- The first `n` machines of a run. -/
def moments (m : Machine) : Nat → List Machine
  | 0 => []
  | n + 1 => m.moments n ++ [m.after n]

end Machine

/-- The causes of the scopes that were made in the course of the past. -/
def causesOf (past : List Machine) : Causes :=
  past.flatMap Machine.made

theorem causesOf_moments_succ (m : Machine) (n : Nat) :
    causesOf (m.moments (n + 1)) = causesOf (m.moments n) ++ (m.after n).made := by
  simp [causesOf, Machine.moments]

end Lox
