import Lox.Proofs.Scoping.Walk

/-!
# Line numbers of trees

A tree carries the lines that reports about it name. `mapLines f` changes them by `f` and leaves all
else as it is.
-/

set_option autoImplicit false

namespace Lox

def Ident.mapLine (f : Nat → Nat) (x : Ident) : Ident :=
  ⟨x.name, f x.line⟩

mutual

def Expr.mapLines (f : Nat → Nat) : Expr → Expr
  | .literal value line => .literal value (f line)
  | .group inner => .group (inner.mapLines f)
  | .variable name slot => .variable (name.mapLine f) slot
  | .assign name value slot => .assign (name.mapLine f) (value.mapLines f) slot
  | .unary op operand line => .unary op (operand.mapLines f) (f line)
  | .binary op left right line => .binary op (left.mapLines f) (right.mapLines f) (f line)
  | .logical op left right line => .logical op (left.mapLines f) (right.mapLines f) (f line)
  | .call callee arguments line =>
    .call (callee.mapLines f) (mapLinesInArguments f arguments) (f line)
  | .get object name => .get (object.mapLines f) (name.mapLine f)
  | .set object name value => .set (object.mapLines f) (name.mapLine f) (value.mapLines f)
  | .this line slot => .this (f line) slot
  | .super line method slot => .super (f line) (method.mapLine f) slot
  | .lambda decl => .lambda (decl.mapLines f)

def mapLinesInArguments (f : Nat → Nat) : List Expr → List Expr
  | [] => []
  | e :: es => e.mapLines f :: mapLinesInArguments f es

def Stmt.mapLines (f : Nat → Nat) : Stmt → Stmt
  | .expression value => .expression (value.mapLines f)
  | .print value => .print (value.mapLines f)
  | .var name none => .var (name.mapLine f) none
  | .var name (some value) => .var (name.mapLine f) (some (value.mapLines f))
  | .block body => .block (mapLinesInBody f body)
  | .cond condition thenBranch none =>
    .cond (condition.mapLines f) (thenBranch.mapLines f) none
  | .cond condition thenBranch (some elseBranch) =>
    .cond (condition.mapLines f) (thenBranch.mapLines f) (some (elseBranch.mapLines f))
  | .loop condition body => .loop (condition.mapLines f) (body.mapLines f)
  | .function decl => .function (decl.mapLines f)
  | .ret line none => .ret (f line) none
  | .ret line (some value) => .ret (f line) (some (value.mapLines f))
  | .brk line => .brk (f line)
  | .classDecl name none methods =>
    .classDecl (name.mapLine f) none (mapLinesInMethods f methods)
  | .classDecl name (some (parent, slot)) methods =>
    .classDecl (name.mapLine f) (some (parent.mapLine f, slot)) (mapLinesInMethods f methods)

def mapLinesInBody (f : Nat → Nat) : List Stmt → List Stmt
  | [] => []
  | s :: rest => s.mapLines f :: mapLinesInBody f rest

def FunDecl.mapLines (f : Nat → Nat) : FunDecl → FunDecl
  | ⟨name, params, body, line⟩ => ⟨name.map (Ident.mapLine f), params.map (Ident.mapLine f),
      mapLinesInBody f body, f line⟩

def mapLinesInMethods (f : Nat → Nat) : List FunDecl → List FunDecl
  | [] => []
  | decl :: decls => decl.mapLines f :: mapLinesInMethods f decls

end

def Program.mapLines (f : Nat → Nat) (p : Program) : Program :=
  mapLinesInBody f p

/-! ## Changes of lines -/

def Node.mapLines (f : Nat → Nat) : Node → Node
  | .expr e => .expr (e.mapLines f)
  | .arguments es => .arguments (mapLinesInArguments f es)
  | .stmt s => .stmt (s.mapLines f)
  | .body ss => .body (mapLinesInBody f ss)
  | .function decl => .function (decl.mapLines f)
  | .methods decls => .methods (mapLinesInMethods f decls)
  | .top ss => .top (mapLinesInBody f ss)

@[simp] theorem Ident.mapLine_mapLine (f g : Nat → Nat) (x : Ident) :
    (x.mapLine f).mapLine g = x.mapLine (g ∘ f) := rfl

@[simp] theorem Ident.mapLine_comp (f g : Nat → Nat) :
    Ident.mapLine g ∘ Ident.mapLine f = Ident.mapLine (g ∘ f) := rfl

@[simp] theorem Ident.mapLine_id : Ident.mapLine id = id := rfl

/-- Changes one after the other are one change, and to change nothing is no change. -/
theorem Node.mapLines_laws (f g : Nat → Nat) (node : Node) :
    (node.mapLines f).mapLines g = node.mapLines (g ∘ f) ∧ node.mapLines id = node := by
  induction node using parts_induction with
  | h node ih =>
    cases node with
    | expr e => cases e <;> simp_all [parts, Expr.parts, mapLines, Expr.mapLines]
    | stmt s =>
      cases s with
      | var name value | ret line value =>
        cases value <;> simp_all [parts, Stmt.parts, mapLines, Stmt.mapLines]
      | cond condition thenBranch elseBranch =>
        cases elseBranch <;> simp_all [parts, Stmt.parts, mapLines, Stmt.mapLines]
      | classDecl name superclass methods =>
        rcases superclass with _ | ⟨parent, slot⟩ <;>
          simp_all [parts, Stmt.parts, mapLines, Stmt.mapLines]
      | _ => simp_all [parts, Stmt.parts, mapLines, Stmt.mapLines]
    | arguments es => cases es <;> simp_all [parts, mapLines, mapLinesInArguments]
    | body ss =>
      rcases ss with _ | ⟨s, rest⟩
      · simp [mapLines, mapLinesInBody]
      · cases s <;> simp_all [parts, mapLines, mapLinesInBody, Stmt.mapLines]
    | top ss => cases ss <;> simp_all [parts, mapLines, mapLinesInBody]
    | methods decls => cases decls <;> simp_all [parts, mapLines, mapLinesInMethods]
    | function decl =>
      obtain ⟨name, params, body, line⟩ := decl
      simp_all [parts, mapLines, FunDecl.mapLines]

section Trees
variable (f g : Nat → Nat)

@[simp] theorem FunDecl.mapLines_mapLines (decl : FunDecl) :
    (decl.mapLines f).mapLines g = decl.mapLines (g ∘ f) :=
  Node.function.inj (Node.mapLines_laws f g (.function decl)).1

@[simp] theorem FunDecl.mapLines_id (decl : FunDecl) : decl.mapLines id = decl :=
  Node.function.inj (Node.mapLines_laws id id (.function decl)).2

theorem Expr.mapLines_id (e : Expr) : e.mapLines id = e :=
  Node.expr.inj (Node.mapLines_laws id id (.expr e)).2

theorem Program.mapLines_mapLines (p : Program) :
    (p.mapLines f).mapLines g = p.mapLines (g ∘ f) :=
  Node.top.inj (Node.mapLines_laws f g (.top p)).1

theorem Program.mapLines_id (p : Program) : p.mapLines id = p :=
  Node.top.inj (Node.mapLines_laws id id (.top p)).2

@[simp] theorem Stmt.isFunction_mapLines (s : Stmt) : (s.mapLines f).isFunction = s.isFunction := by
  cases s with
  | var name value | ret line value => cases value <;> rfl
  | cond condition thenBranch elseBranch => cases elseBranch <;> rfl
  | classDecl name superclass methods => rcases superclass with _ | ⟨parent, slot⟩ <;> rfl
  | _ => rfl

theorem Stmt.mapLines_ne_function {s : Stmt} (hs : ∀ decl, s = .function decl → False)
    (decl : FunDecl) : s.mapLines f = .function decl → False := by
  intro hdecl
  have hfunction : s.isFunction = true := by
    rw [← s.isFunction_mapLines f, hdecl]
    rfl
  cases s with
  | function decl => exact hs decl rfl
  | _ => cases hfunction

@[simp] theorem Expr.line_mapLines (e : Expr) : (e.mapLines f).line = f e.line := by
  fun_induction Expr.line e with
  | case2 inner ih => exact ih
  | case13 decl => cases decl; rfl
  | _ => rfl

/-- The line of an empty block is not changed. -/
theorem Stmt.line_mapLines (hf : f 0 = 0) (s : Stmt) : (s.mapLines f).line = f s.line := by
  fun_induction Stmt.line s with
  | case1 value | case2 value => exact value.line_mapLines f
  | case3 name value | case9 line value => cases value <;> rfl
  | case4 => exact hf.symm
  | case5 first rest ih => exact ih
  | case6 condition thenBranch elseBranch =>
    cases elseBranch <;> exact condition.line_mapLines f
  | case7 condition body => exact condition.line_mapLines f
  | case8 decl => cases decl; rfl
  | case10 line => rfl
  | case11 name superclass methods => rcases superclass with _ | ⟨parent, slot⟩ <;> rfl

end Trees

end Lox
