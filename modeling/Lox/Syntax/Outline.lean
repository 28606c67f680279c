import Lox.Number.Layout
import Lox.Syntax.Basic

/-!
# Outlines

A tree as a flat list with one entry for each node, parents before children, and the replacement
of slots by their position in that list.
-/

set_option autoImplicit false

namespace Lox

def slotText : Slot → String
  | none => "unset"
  | some .atTop => "global"
  | some (.atDistance d) => s!"local:{d}"

def Literal.outline : Literal → String
  | .nil => "nil"
  | .bool true => "true"
  | .bool false => "false"
  | .number x => "number " ++ Number.bitsText x
  | .string s => "string " ++ s

def Ident.outline (n : Ident) : String :=
  s!"{n.name}:{n.line}"

mutual

def Expr.outline : Expr → List String
  | .literal value line => [s!"Literal {line} {value.outline}"]
  | .group inner => s!"Grouping {inner.line}" :: inner.outline
  | .variable name slot => [s!"Variable {name.line} {name.name} {slotText slot}"]
  | .assign name value slot => s!"Assign {name.line} {name.name} {slotText slot}" :: value.outline
  | .unary op operand line => s!"Unary {line} {op.text}" :: operand.outline
  | .binary op left right line =>
    s!"Binary {line} {op.text}" :: (left.outline ++ right.outline)
  | .logical op left right line =>
    s!"Logical {line} {op.text}" :: (left.outline ++ right.outline)
  | .call callee arguments line =>
    s!"Call {line} {arguments.length}" :: (callee.outline ++ outlineArguments arguments)
  | .get object name => s!"Get {name.line} {name.name}" :: object.outline
  | .set object name value =>
    s!"Set {name.line} {name.name}" :: (object.outline ++ value.outline)
  | .this line slot => [s!"This {line} {slotText slot}"]
  | .super line method slot => [s!"Super {line} {method.outline} {slotText slot}"]
  | .lambda decl => s!"Lambda {decl.line}" :: decl.outline

def outlineArguments : List Expr → List String
  | [] => []
  | e :: es => e.outline ++ outlineArguments es

def Stmt.outline : Stmt → List String
  | .expression value => s!"Expression {value.line}" :: value.outline
  | .print value => s!"Print {value.line}" :: value.outline
  | .var name none => [s!"Var {name.line} {name.name}"]
  | .var name (some value) => s!"Var {name.line} {name.name}" :: value.outline
  | .block body => s!"Block {(Stmt.block body).line} {body.length}" :: outlineBody body
  | .cond condition thenBranch none =>
    s!"If {condition.line} -" :: (condition.outline ++ thenBranch.outline)
  | .cond condition thenBranch (some elseBranch) =>
    s!"If {condition.line} else" ::
      (condition.outline ++ thenBranch.outline ++ elseBranch.outline)
  | .loop condition body => s!"While {condition.line}" :: (condition.outline ++ body.outline)
  | .function decl => s!"Function {decl.line}" :: decl.outline
  | .ret line none => [s!"Return {line}"]
  | .ret line (some value) => s!"Return {line}" :: value.outline
  | .brk line => [s!"Break {line}"]
  | .classDecl name superclass methods =>
    let parent := match superclass with
      | none => []
      | some (parent, slot) => [s!"Variable {parent.line} {parent.name} {slotText slot}"]
    s!"Class {name.line} {name.name} {methods.length}" :: (parent ++ outlineMethods methods)

def outlineBody : List Stmt → List String
  | [] => []
  | s :: ss => s.outline ++ outlineBody ss

def FunDecl.outline : FunDecl → List String
  | ⟨name, params, body, line⟩ =>
    let named := match name with
      | none => "-"
      | some name => name.outline
    let listed := " ".intercalate (params.map Ident.outline)
    s!"FunctionDecl {line} {named} [{listed}] {body.length}" :: outlineBody body

def outlineMethods : List FunDecl → List String
  | [] => []
  | d :: ds => d.outline ++ outlineMethods ds

end

def Program.outline (p : Program) : List String :=
  outlineBody p

/-! Slots are numbered from zero in the order of the outline. -/

/-- Passes the next slot and its number to `f`. -/
def nextSlot (f : Nat → Slot → Slot) (slot : Slot) : StateM Nat Slot := do
  let i ← get
  set (i + 1)
  return f i slot

mutual

def Expr.mapSlots (f : Nat → Slot → Slot) : Expr → StateM Nat Expr
  | .literal value line => return .literal value line
  | .group inner => return .group (← inner.mapSlots f)
  | .variable name slot => return .variable name (← nextSlot f slot)
  | .assign name value slot => do
    let slot ← nextSlot f slot
    return .assign name (← value.mapSlots f) slot
  | .unary op operand line => return .unary op (← operand.mapSlots f) line
  | .binary op left right line =>
    return .binary op (← left.mapSlots f) (← right.mapSlots f) line
  | .logical op left right line =>
    return .logical op (← left.mapSlots f) (← right.mapSlots f) line
  | .call callee arguments line =>
    return .call (← callee.mapSlots f) (← mapSlotsArguments f arguments) line
  | .get object name => return .get (← object.mapSlots f) name
  | .set object name value => return .set (← object.mapSlots f) name (← value.mapSlots f)
  | .this line slot => return .this line (← nextSlot f slot)
  | .super line method slot => return .super line method (← nextSlot f slot)
  | .lambda decl => return .lambda (← decl.mapSlots f)

def mapSlotsArguments (f : Nat → Slot → Slot) : List Expr → StateM Nat (List Expr)
  | [] => return []
  | e :: es => return (← e.mapSlots f) :: (← mapSlotsArguments f es)

def Stmt.mapSlots (f : Nat → Slot → Slot) : Stmt → StateM Nat Stmt
  | .expression value => return .expression (← value.mapSlots f)
  | .print value => return .print (← value.mapSlots f)
  | .var name none => return .var name none
  | .var name (some value) => return .var name (some (← value.mapSlots f))
  | .block body => return .block (← mapSlotsBody f body)
  | .cond condition thenBranch none =>
    return .cond (← condition.mapSlots f) (← thenBranch.mapSlots f) none
  | .cond condition thenBranch (some elseBranch) =>
    return .cond (← condition.mapSlots f) (← thenBranch.mapSlots f)
      (some (← elseBranch.mapSlots f))
  | .loop condition body => return .loop (← condition.mapSlots f) (← body.mapSlots f)
  | .function decl => return .function (← decl.mapSlots f)
  | .ret line none => return .ret line none
  | .ret line (some value) => return .ret line (some (← value.mapSlots f))
  | .brk line => return .brk line
  | .classDecl name none methods => return .classDecl name none (← mapSlotsMethods f methods)
  | .classDecl name (some (parent, slot)) methods => do
    let slot ← nextSlot f slot
    return .classDecl name (some (parent, slot)) (← mapSlotsMethods f methods)

def mapSlotsBody (f : Nat → Slot → Slot) : List Stmt → StateM Nat (List Stmt)
  | [] => return []
  | s :: ss => return (← s.mapSlots f) :: (← mapSlotsBody f ss)

def FunDecl.mapSlots (f : Nat → Slot → Slot) : FunDecl → StateM Nat FunDecl
  | ⟨name, params, body, line⟩ => return ⟨name, params, ← mapSlotsBody f body, line⟩

def mapSlotsMethods (f : Nat → Slot → Slot) : List FunDecl → StateM Nat (List FunDecl)
  | [] => return []
  | d :: ds => return (← d.mapSlots f) :: (← mapSlotsMethods f ds)

end

/-- Overwrites the slot with the given number. -/
def Program.setSlot (p : Program) (number : Nat) (binding : Binding) : Program :=
  ((mapSlotsBody (fun i slot => if i = number then some binding else slot) p).run 0).1

end Lox
