import Lox.Proofs.Scoping.Walk
import Mathlib.Data.List.Forall2

/-!
# Trees of the same form

Two programs run in lockstep if their trees have the same form, node by node. One of them may have
an extra scope between two of those in force. Then distances that lead past that scope are longer by
one, and the others stay as they are. What the parts of two nodes have in common is left open.
-/

set_option autoImplicit false

namespace Lox

/-- How many scopes inward from the extra one a place is, if there is an extra one around it. -/
abbrev Gap := Option Nat

namespace Gap

/-- One scope further in. -/
def inner (g : Gap) : Gap :=
  g.map (· + 1)

/-- The distance of a scope, with the extra one counted. -/
def distance (g : Gap) (d : Nat) : Nat :=
  match g with
  | none => d
  | some k => if d < k then d else d + 1

def slot (g : Gap) : Slot → Slot
  | some (.atDistance d) => some (.atDistance (g.distance d))
  | other => other

variable (g : Gap) (d : Nat)

@[simp] theorem inner_ne_zero : g.inner ≠ some 0 := by
  cases g <;> simp [inner]

theorem distance_inner_zero : g.inner.distance 0 = 0 := by
  cases g <;> simp [inner, distance]

theorem distance_inner_succ : g.inner.distance (d + 1) = g.distance d + 1 := by
  cases g with
  | none => rfl
  | some k =>
    simp only [inner, distance, Option.map_some, Nat.add_lt_add_iff_right]
    split <;> rfl

@[simp] theorem slot_none (slot : Slot) : Gap.slot none slot = slot := by
  rcases slot with _ | _ | _ <;> rfl

/-- The extra scope does not come between a scope and the next one if it is not just inside it. -/
theorem distance_succ (h : g ≠ some (d + 1)) : g.distance (d + 1) = g.distance d + 1 := by
  cases g with
  | none => rfl
  | some k =>
    have hk : k ≠ d + 1 := fun hk => h (congrArg some hk)
    simp only [distance]
    split <;> split <;> omega

theorem distance_zero (h : g ≠ some 0) : g.distance 0 = 0 := by
  cases g with
  | none => rfl
  | some k =>
    have hk : k ≠ 0 := fun hk => h (congrArg some hk)
    exact if_pos (Nat.pos_of_ne_zero hk)

end Gap

/-- The node is a sequence of statements. -/
def Node.isSequence : Node → Bool
  | .body _ | .top _ => true
  | _ => false

/-- The nodes have the same form, and their parts are related. The second node may have an extra
scope around it, and then nothing is declared in that scope itself, and none comes between a
receiver and its superclass. -/
inductive Alike (T : Gap → Node → Node → Prop) : Node → Node → Gap → Prop where
  | literal {g : Gap} (value : Literal) (line : Nat) :
      Alike T (.expr (.literal value line)) (.expr (.literal value line)) g
  | group {g : Gap} {inner inner' : Expr} : T g (.expr inner) (.expr inner') →
      Alike T (.expr (.group inner)) (.expr (.group inner')) g
  | variable {g : Gap} (name : Ident) (slot : Slot) :
      Alike T (.expr (.variable name slot)) (.expr (.variable name (g.slot slot))) g
  | assign {g : Gap} {value value' : Expr} (name : Ident) (slot : Slot) :
      T g (.expr value) (.expr value') →
      Alike T (.expr (.assign name value slot)) (.expr (.assign name value' (g.slot slot))) g
  | unary {g : Gap} {operand operand' : Expr} (op : UnaryOp) (line : Nat) :
      T g (.expr operand) (.expr operand') →
      Alike T (.expr (.unary op operand line)) (.expr (.unary op operand' line)) g
  | binary {g : Gap} {left left' right right' : Expr} (op : BinaryOp) (line : Nat) :
      T g (.expr left) (.expr left') → T g (.expr right) (.expr right') →
      Alike T (.expr (.binary op left right line)) (.expr (.binary op left' right' line)) g
  | logical {g : Gap} {left left' right right' : Expr} (op : LogicalOp) (line : Nat) :
      T g (.expr left) (.expr left') → T g (.expr right) (.expr right') →
      Alike T (.expr (.logical op left right line)) (.expr (.logical op left' right' line)) g
  | call {g : Gap} {callee callee' : Expr} {arguments arguments' : List Expr} (line : Nat) :
      T g (.expr callee) (.expr callee') →
      T g (.arguments arguments) (.arguments arguments') →
      Alike T (.expr (.call callee arguments line)) (.expr (.call callee' arguments' line)) g
  | get {g : Gap} {object object' : Expr} (name : Ident) :
      T g (.expr object) (.expr object') →
      Alike T (.expr (.get object name)) (.expr (.get object' name)) g
  | set {g : Gap} {object object' value value' : Expr} (name : Ident) :
      T g (.expr object) (.expr object') → T g (.expr value) (.expr value') →
      Alike T (.expr (.set object name value)) (.expr (.set object' name value')) g
  | this {g : Gap} (line : Nat) (slot : Slot) :
      Alike T (.expr (.this line slot)) (.expr (.this line (g.slot slot))) g
  | super {g : Gap} {slot : Slot} (line : Nat) (method : Ident)
      (hslot : ∀ d, slot = some (.atDistance d) → g ≠ some d) :
      Alike T (.expr (.super line method slot)) (.expr (.super line method (g.slot slot))) g
  | lambda {g : Gap} {decl decl' : FunDecl} : T g (.function decl) (.function decl') →
      Alike T (.expr (.lambda decl)) (.expr (.lambda decl')) g
  | noArgument {g : Gap} : Alike T (.arguments []) (.arguments []) g
  | argument {g : Gap} {e e' : Expr} {es es' : List Expr} :
      T g (.expr e) (.expr e') → T g (.arguments es) (.arguments es') →
      Alike T (.arguments (e :: es)) (.arguments (e' :: es')) g
  | expression {g : Gap} {value value' : Expr} : T g (.expr value) (.expr value') →
      Alike T (.stmt (.expression value)) (.stmt (.expression value')) g
  | print {g : Gap} {value value' : Expr} : T g (.expr value) (.expr value') →
      Alike T (.stmt (.print value)) (.stmt (.print value')) g
  | var {g : Gap} (name : Ident) (hg : g ≠ some 0) :
      Alike T (.stmt (.var name none)) (.stmt (.var name none)) g
  | varWith {g : Gap} {value value' : Expr} (name : Ident) (hg : g ≠ some 0) :
      T g (.expr value) (.expr value') →
      Alike T (.stmt (.var name (some value))) (.stmt (.var name (some value'))) g
  | block {g : Gap} {body body' : List Stmt} : T g.inner (.body body) (.body body') →
      Alike T (.stmt (.block body)) (.stmt (.block body')) g
  | cond {g : Gap} {condition condition' : Expr} {thenBranch thenBranch' : Stmt} :
      T g (.expr condition) (.expr condition') →
      T g (.stmt thenBranch) (.stmt thenBranch') →
      Alike T (.stmt (.cond condition thenBranch none))
        (.stmt (.cond condition' thenBranch' none)) g
  | condElse {g : Gap} {condition condition' : Expr}
      {thenBranch thenBranch' elseBranch elseBranch' : Stmt} :
      T g (.expr condition) (.expr condition') →
      T g (.stmt thenBranch) (.stmt thenBranch') →
      T g (.stmt elseBranch) (.stmt elseBranch') →
      Alike T (.stmt (.cond condition thenBranch (some elseBranch)))
        (.stmt (.cond condition' thenBranch' (some elseBranch'))) g
  | loop {g : Gap} {condition condition' : Expr} {body body' : Stmt} :
      T g (.expr condition) (.expr condition') → T g (.stmt body) (.stmt body') →
      Alike T (.stmt (.loop condition body)) (.stmt (.loop condition' body')) g
  | functionDecl {g : Gap} {decl decl' : FunDecl} (hg : g ≠ some 0) :
      T g (.function decl) (.function decl') →
      Alike T (.stmt (.function decl)) (.stmt (.function decl')) g
  | ret {g : Gap} (line : Nat) : Alike T (.stmt (.ret line none)) (.stmt (.ret line none)) g
  | retWith {g : Gap} {value value' : Expr} (line : Nat) : T g (.expr value) (.expr value') →
      Alike T (.stmt (.ret line (some value))) (.stmt (.ret line (some value'))) g
  | brk {g : Gap} (line : Nat) : Alike T (.stmt (.brk line)) (.stmt (.brk line)) g
  /-- The methods of a class are inside the scope of their receiver. -/
  | classDecl {g : Gap} {decls decls' : List FunDecl} (name : Ident) (hg : g ≠ some 0) :
      T g.inner (.methods decls) (.methods decls') →
      Alike T (.stmt (.classDecl name none decls)) (.stmt (.classDecl name none decls')) g
  /-- The scope of the superclass is outside that of the receiver. -/
  | subclassDecl {g : Gap} {decls decls' : List FunDecl} (name parent : Ident) (slot : Slot)
      (hg : g ≠ some 0) :
      T g (.expr (.variable parent slot)) (.expr (.variable parent (g.slot slot))) →
      T g.inner.inner (.methods decls) (.methods decls') →
      Alike T (.stmt (.classDecl name (some (parent, slot)) decls))
        (.stmt (.classDecl name (some (parent, g.slot slot)) decls')) g
  | code {g : Gap} {body body' : List Stmt} (name : Option Ident) (params : List Ident)
      (line : Nat) : T g.inner (.body body) (.body body') →
      Alike T (.function ⟨name, params, body, line⟩) (.function ⟨name, params, body', line⟩) g
  | noMethod {g : Gap} : Alike T (.methods []) (.methods []) g
  | method {g : Gap} {decl decl' : FunDecl} {decls decls' : List FunDecl} :
      T g (.function decl) (.function decl') →
      T g (.methods decls) (.methods decls') →
      Alike T (.methods (decl :: decls)) (.methods (decl' :: decls')) g

/-- A function that waits to be passed over may be another one. -/
def SameTurn (T : Gap → Node → Node → Prop) (g : Gap) (s s' : Stmt) : Prop :=
  (s.isFunction = true ∧ s'.isFunction = true) ∨ T g (.stmt s) (.stmt s')

namespace Alike
variable {T : Gap → Node → Node → Prop} {g : Gap}

theorem isFunction_eq {s s' : Stmt} (h : Alike T (.stmt s) (.stmt s') g) :
    s'.isFunction = s.isFunction := by
  cases h <;> rfl

section Functions
variable {decl decl' : FunDecl} (h : Alike T (.function decl) (.function decl') g)
include h

theorem name_eq : decl'.name = decl.name := by
  cases h
  rfl

theorem params_eq : decl'.params = decl.params := by
  cases h
  rfl

theorem line_eq : decl'.line = decl.line := by
  cases h
  rfl

theorem body_of : T g.inner (.body decl.body) (.body decl'.body) := by
  cases h with
  | code _ _ _ hbody => exact hbody

end Functions

end Alike

end Lox
