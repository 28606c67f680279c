import Lox.Scoping.Basic

/-!
# Resolving names

One walk over a program fills every slot with the binding of its name and collects the violations
of the static rules. The walk goes on after a violation, so all of them are found.
-/

set_option autoImplicit false

namespace Lox

/-- Whether an expression is just this name, possibly in parentheses. -/
def Expr.isReferenceTo (name : String) : Expr → Bool
  | .variable n _ => n.name == name
  | .group inner => inner.isReferenceTo name
  | _ => false

open ResolveM

mutual

def Expr.resolve : Expr → ResolveM Expr
  | .literal value line => return .literal value line
  | .group inner => return .group (← inner.resolve)
  | .variable name _ => return .variable name (some (← bindingOf name.name))
  | .assign name value _ => do
    let value ← value.resolve
    return .assign name value (some (← bindingOf name.name))
  | .unary op operand line => return .unary op (← operand.resolve) line
  | .binary op left right line => return .binary op (← left.resolve) (← right.resolve) line
  | .logical op left right line => return .logical op (← left.resolve) (← right.resolve) line
  | .call callee arguments line =>
    return .call (← callee.resolve) (← resolveArguments arguments) line
  | .get object name => return .get (← object.resolve) name
  | .set object name value => do
    let value ← value.resolve
    let object ← object.resolve
    return .set object name value
  | .this line slot => do
    match (← get).classContext with
    | .outside =>
      report line "this" .thisOutsideClass
      return .this line slot
    | _ => return .this line (some (← bindingOf "this"))
  | .super line method slot => do
    match (← get).classContext with
    | .outside =>
      report line "super" .superOutsideClass
      return .super line method slot
    | .plain =>
      report line "super" .superWithoutSuperclass
      return .super line method slot
    | .derived => return .super line method (some (← bindingOf "super"))
  | .lambda decl => return .lambda (← decl.resolve)

def resolveArguments : List Expr → ResolveM (List Expr)
  | [] => return []
  | e :: es => return (← e.resolve) :: (← resolveArguments es)

def Stmt.resolve : Stmt → ResolveM Stmt
  | .expression value => return .expression (← value.resolve)
  | .print value => return .print (← value.resolve)
  | .var name none => do
    declare name
    return .var name none
  | .var name (some value) => do
    declare name
    if !(← get).scopes.isEmpty && value.isReferenceTo name.name then
      report name.line name.name .selfInitializer
    return .var name (some (← initializing name.name value.resolve))
  | .block body => inScope [] do
    declareFunctions body
    return .block (← resolveBody body)
  | .cond condition thenBranch none =>
    return .cond (← condition.resolve) (← thenBranch.resolve) none
  | .cond condition thenBranch (some elseBranch) =>
    return .cond (← condition.resolve) (← thenBranch.resolve) (some (← elseBranch.resolve))
  | .loop condition body => return .loop (← condition.resolve) (← inLoop body.resolve)
  | .function decl => do
    declareAll decl.name.toList
    return .function (← decl.resolve)
  | .ret line none => do
    if !(← get).inFunction then
      report line "return" .returnAtTopLevel
    return .ret line none
  | .ret line (some value) => do
    if !(← get).inFunction then
      report line "return" .returnAtTopLevel
    return .ret line (some (← value.resolve))
  | .brk line => do
    if (← get).loopDepth = 0 then
      report line "break" .breakOutsideLoop
    return .brk line
  | .classDecl name none methods => do
    declare name
    return .classDecl name none (← inClass .plain (inScope ["this"] (resolveMethods methods)))
  | .classDecl name (some (parent, _)) methods => do
    declare name
    if parent.name = name.name then
      report parent.line parent.name .selfInheritance
    let slot ← bindingOf parent.name
    return .classDecl name (some (parent, some slot))
      (← inClass .derived (inScope ["super"] (inScope ["this"] (resolveMethods methods))))

/-- The statements of a body, whose functions have been declared. -/
def resolveBody : List Stmt → ResolveM (List Stmt)
  | [] => return []
  | .function decl :: rest => return .function (← decl.resolve) :: (← resolveBody rest)
  | s :: rest => return (← s.resolve) :: (← resolveBody rest)

def FunDecl.resolve : FunDecl → ResolveM FunDecl
  | ⟨name, params, body, line⟩ => inFunction do
    declareAll params
    declareFunctions body
    return ⟨name, params, ← resolveBody body, line⟩

def resolveMethods : List FunDecl → ResolveM (List FunDecl)
  | [] => return []
  | d :: ds => return (← d.resolve) :: (← resolveMethods ds)

end

/-- The statements of the top level, whose functions are declared where they stand. -/
def resolveTop : List Stmt → ResolveM (List Stmt)
  | [] => return []
  | s :: rest => return (← s.resolve) :: (← resolveTop rest)

/-- Fills the slots of a program and takes the violations found in it. -/
def Scoping.resolve (p : Program) : ResolveM (Program × List ResolveError) := do
  let p ← resolveTop p
  let errors := (← get).errors
  modify fun r => { r with errors := [] }
  return (p, errors)

/-- The program with its slots filled, or all its violations. -/
def Program.resolved (p : Program) : Except (List ResolveError) Program :=
  match ((Scoping.resolve p).run .fresh).1 with
  | (p, []) => .ok p
  | (_, errors) => .error errors

end Lox
