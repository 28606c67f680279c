import Lox.Proofs.Scoping.Actions

/-!
# The walk over a program

The resolver walks over nodes of seven kinds. Whatever the tree, the walk closes the scopes, the
functions, the classes and the loops that it opens. In a regular tree no declaration is the branch of a
conditional or the body of a loop, and no name that is declared or looked up can be mistaken for a
receiver or a superclass. The walk over a node of a regular tree leaves behind what it found
open: expressions add errors only, and statements add names to the innermost scope at most.
-/

set_option autoImplicit false

namespace Lox

/-- What the resolver is called on. -/
inductive Node where
  | expr (e : Expr)
  | arguments (es : List Expr)
  | stmt (s : Stmt)
  /-- The statements of a body, whose functions have been declared. -/
  | body (ss : List Stmt)
  | function (decl : FunDecl)
  | methods (decls : List FunDecl)
  | top (ss : List Stmt)

/-- What is known after the walk over a node. -/
def Node.after (r : Scoping) : Node → Scoping
  | .expr e => e.resolve.after r
  | .arguments es => (resolveArguments es).after r
  | .stmt s => s.resolve.after r
  | .body ss => (resolveBody ss).after r
  | .function decl => decl.resolve.after r
  | .methods decls => (resolveMethods decls).after r
  | .top ss => (resolveTop ss).after r

/-- What the walk makes of a node. -/
def Node.outcome (r : Scoping) : Node → Node
  | .expr e => .expr (e.resolve.outcome r)
  | .arguments es => .arguments ((resolveArguments es).outcome r)
  | .stmt s => .stmt (s.resolve.outcome r)
  | .body ss => .body ((resolveBody ss).outcome r)
  | .function decl => .function (decl.resolve.outcome r)
  | .methods decls => .methods ((resolveMethods decls).outcome r)
  | .top ss => .top ((resolveTop ss).outcome r)

def Stmt.isDeclaration : Stmt → Bool
  | .var _ _ => true
  | .function _ => true
  | .classDecl _ _ _ => true
  | _ => false

/-- The name is not that of a receiver or of a superclass. -/
def Plain (name : String) : Prop :=
  name ≠ "this" ∧ name ≠ "super"

inductive Regular : Node → Prop where
  | literal (value : Literal) (line : Nat) : Regular (.expr (.literal value line))
  | group {inner : Expr} : Regular (.expr inner) → Regular (.expr (.group inner))
  | variable {name : Ident} (slot : Slot) :
      Plain name.name → Regular (.expr (.variable name slot))
  | assign {name : Ident} {value : Expr} (slot : Slot) :
      Plain name.name → Regular (.expr value) → Regular (.expr (.assign name value slot))
  | unary {operand : Expr} (op : UnaryOp) (line : Nat) :
      Regular (.expr operand) → Regular (.expr (.unary op operand line))
  | binary {left right : Expr} (op : BinaryOp) (line : Nat) :
      Regular (.expr left) → Regular (.expr right) → Regular (.expr (.binary op left right line))
  | logical {left right : Expr} (op : LogicalOp) (line : Nat) :
      Regular (.expr left) → Regular (.expr right) → Regular (.expr (.logical op left right line))
  | call {callee : Expr} {arguments : List Expr} (line : Nat) :
      Regular (.expr callee) → Regular (.arguments arguments) →
      Regular (.expr (.call callee arguments line))
  | get {object : Expr} (name : Ident) : Regular (.expr object) → Regular (.expr (.get object name))
  | set {object value : Expr} (name : Ident) :
      Regular (.expr object) → Regular (.expr value) → Regular (.expr (.set object name value))
  | this (line : Nat) (slot : Slot) : Regular (.expr (.this line slot))
  | super (line : Nat) (method : Ident) (slot : Slot) : Regular (.expr (.super line method slot))
  | lambda {decl : FunDecl} : Regular (.function decl) → Regular (.expr (.lambda decl))
  | noArgument : Regular (.arguments [])
  | argument {e : Expr} {es : List Expr} :
      Regular (.expr e) → Regular (.arguments es) → Regular (.arguments (e :: es))
  | expression {value : Expr} : Regular (.expr value) → Regular (.stmt (.expression value))
  | print {value : Expr} : Regular (.expr value) → Regular (.stmt (.print value))
  | var {name : Ident} : Plain name.name → Regular (.stmt (.var name none))
  | varWith {name : Ident} {value : Expr} :
      Plain name.name → Regular (.expr value) → Regular (.stmt (.var name (some value)))
  | block {body : List Stmt} : Regular (.body body) → Regular (.stmt (.block body))
  | cond {condition : Expr} {thenBranch : Stmt} :
      Regular (.expr condition) → Regular (.stmt thenBranch) → thenBranch.isDeclaration = false →
      Regular (.stmt (.cond condition thenBranch none))
  | condElse {condition : Expr} {thenBranch elseBranch : Stmt} :
      Regular (.expr condition) → Regular (.stmt thenBranch) → thenBranch.isDeclaration = false →
      Regular (.stmt elseBranch) → elseBranch.isDeclaration = false →
      Regular (.stmt (.cond condition thenBranch (some elseBranch)))
  | loop {condition : Expr} {body : Stmt} :
      Regular (.expr condition) → Regular (.stmt body) → body.isDeclaration = false →
      Regular (.stmt (.loop condition body))
  | functionDecl {decl : FunDecl} :
      (∀ name ∈ decl.name, Plain name.name) → Regular (.function decl) →
      Regular (.stmt (.function decl))
  | ret (line : Nat) : Regular (.stmt (.ret line none))
  | retWith {value : Expr} (line : Nat) :
      Regular (.expr value) → Regular (.stmt (.ret line (some value)))
  | brk (line : Nat) : Regular (.stmt (.brk line))
  | classDecl {name : Ident} {decls : List FunDecl} :
      Plain name.name → Regular (.methods decls) → Regular (.stmt (.classDecl name none decls))
  | subclassDecl {name : Ident} {decls : List FunDecl} (parent : Ident × Slot) :
      Plain name.name → Plain parent.1.name → Regular (.methods decls) →
      Regular (.stmt (.classDecl name (some parent) decls))
  | noStatement : Regular (.body [])
  | bodyFunction {decl : FunDecl} {rest : List Stmt} :
      (∀ name ∈ decl.name, Plain name.name) → Regular (.function decl) → Regular (.body rest) →
      Regular (.body (.function decl :: rest))
  | bodyStmt {s : Stmt} {rest : List Stmt} :
      s.isFunction = false → Regular (.stmt s) → Regular (.body rest) → Regular (.body (s :: rest))
  | code {params : List Ident} {body : List Stmt} (name : Option Ident) (line : Nat) :
      (∀ param ∈ params, Plain param.name) → Regular (.body body) →
      Regular (.function ⟨name, params, body, line⟩)
  | noMethod : Regular (.methods [])
  | method {decl : FunDecl} {decls : List FunDecl} :
      Regular (.function decl) → Regular (.methods decls) → Regular (.methods (decl :: decls))
  | noTop : Regular (.top [])
  | topStmt {s : Stmt} {rest : List Stmt} :
      Regular (.stmt s) → Regular (.top rest) → Regular (.top (s :: rest))

/-! ## Parts of a node -/

def Expr.parts : Expr → List Node
  | .literal _ _ | .variable _ _ | .this _ _ | .super _ _ _ => []
  | .group inner => [.expr inner]
  | .assign _ value _ => [.expr value]
  | .unary _ operand _ => [.expr operand]
  | .binary _ left right _ => [.expr left, .expr right]
  | .logical _ left right _ => [.expr left, .expr right]
  | .call callee arguments _ => [.expr callee, .arguments arguments]
  | .get object _ => [.expr object]
  | .set object _ value => [.expr object, .expr value]
  | .lambda decl => [.function decl]

def Stmt.parts : Stmt → List Node
  | .expression value | .print value | .var _ (some value) | .ret _ (some value) => [.expr value]
  | .var _ none | .ret _ none | .brk _ => []
  | .block body => [.body body]
  | .cond condition thenBranch none => [.expr condition, .stmt thenBranch]
  | .cond condition thenBranch (some elseBranch) =>
    [.expr condition, .stmt thenBranch, .stmt elseBranch]
  | .loop condition body => [.expr condition, .stmt body]
  | .function decl => [.function decl]
  | .classDecl _ _ methods => [.methods methods]

/-- The nodes that the walk over a node goes on to. -/
def Node.parts : Node → List Node
  | .expr e => e.parts
  | .stmt s => s.parts
  | .arguments [] | .body [] | .methods [] | .top [] => []
  | .arguments (e :: es) => [.expr e, .arguments es]
  | .body (.function decl :: rest) => [.function decl, .body rest]
  | .body (s :: rest) => [.stmt s, .body rest]
  | .function decl => [.body decl.body]
  | .methods (decl :: decls) => [.function decl, .methods decls]
  | .top (s :: rest) => [.stmt s, .top rest]

theorem Node.parts_body_cons {s : Stmt} (hs : s.isFunction = false) (rest : List Stmt) :
    (Node.body (s :: rest)).parts = [.stmt s, .body rest] := by
  cases s with
  | function decl => cases hs
  | _ => rfl

theorem Expr.sizeOf_part {e : Expr} {part : Node} (h : part ∈ e.parts) :
    sizeOf part < sizeOf (Node.expr e) := by
  cases e with
  | literal | «variable» | this | super => cases h
  | group | assign | unary | get | lambda =>
    obtain rfl := List.mem_singleton.1 h
    simp +arith
  | binary | logical | call | set =>
    rcases List.mem_cons.1 h with rfl | h
    · simp +arith
    · obtain rfl := List.mem_singleton.1 h
      simp +arith

theorem Stmt.sizeOf_part {s : Stmt} {part : Node} (h : part ∈ s.parts) :
    sizeOf part < sizeOf (Node.stmt s) := by
  cases s with
  | brk => cases h
  | expression | print | block | function | classDecl =>
    obtain rfl := List.mem_singleton.1 h
    simp +arith
  | var name value | ret line value =>
    cases value with
    | none => cases h
    | some value =>
      obtain rfl := List.mem_singleton.1 h
      simp +arith
  | loop =>
    rcases List.mem_cons.1 h with rfl | h
    · simp +arith
    · obtain rfl := List.mem_singleton.1 h
      simp +arith
  | cond condition thenBranch elseBranch =>
    cases elseBranch with
    | none =>
      rcases List.mem_cons.1 h with rfl | h
      · simp +arith
      · obtain rfl := List.mem_singleton.1 h
        simp +arith
    | some elseBranch =>
      rcases List.mem_cons.1 h with rfl | h
      · simp +arith
      rcases List.mem_cons.1 h with rfl | h
      · simp +arith
      · obtain rfl := List.mem_singleton.1 h
        simp +arith

theorem Node.sizeOf_part {node part : Node} (h : part ∈ node.parts) :
    sizeOf part < sizeOf node := by
  cases node with
  | expr e => exact e.sizeOf_part h
  | stmt s => exact s.sizeOf_part h
  | arguments parts | methods parts | top parts =>
    cases parts with
    | nil => cases h
    | cons first rest =>
      rcases List.mem_cons.1 h with rfl | h
      · simp +arith
      · obtain rfl := List.mem_singleton.1 h
        simp +arith
  | body ss =>
    cases ss with
    | nil => cases h
    | cons s rest =>
      cases s with
      | _ =>
        rcases List.mem_cons.1 h with rfl | h
        · simp +arith
        · obtain rfl := List.mem_singleton.1 h
          simp +arith
  | function decl =>
    obtain ⟨name, params, body, line⟩ := decl
    obtain rfl := List.mem_singleton.1 h
    simp +arith

/-- What holds of a node whenever it holds of its parts holds of every node. -/
theorem Node.parts_induction {P : Node → Prop}
    (h : ∀ node : Node, (∀ part ∈ node.parts, P part) → P node) (node : Node) : P node := by
  generalize hsize : sizeOf node = size
  induction size using Nat.strongRecOn generalizing node with
  | ind size ih =>
    subst hsize
    exact h node fun part hpart => ih (sizeOf part) (sizeOf_part hpart) part rfl

/-- The property holds of the node and of all that is in it. -/
inductive Node.Throughout (P : Node → Prop) : Node → Prop where
  | node {n : Node} : P n → (∀ part ∈ n.parts, Throughout P part) → Throughout P n

namespace Node.Throughout

variable {P : Node → Prop} {n a b c : Node}

theorem own (h : Throughout P n) : P n := by
  cases h with
  | node hn _ => exact hn

theorem part (h : Throughout P n) (ha : a ∈ n.parts) : Throughout P a := by
  cases h with
  | node _ hparts => exact hparts a ha

theorem mono {P' : Node → Prop} (h : Throughout P n) (hP : ∀ n, P n → P' n) : Throughout P' n := by
  induction h with
  | node hn _ ih => exact node (hP _ hn) ih

theorem leaf (hn : P n) (hparts : n.parts = []) : Throughout P n := by
  apply node hn
  rw [hparts]
  exact List.forall_mem_nil _

theorem one (ha : Throughout P a) (hn : P n) (hparts : n.parts = [a]) : Throughout P n := by
  apply node hn
  rw [hparts]
  exact List.forall_mem_singleton.2 ha

theorem two (ha : Throughout P a) (hb : Throughout P b) (hn : P n) (hparts : n.parts = [a, b]) :
    Throughout P n := by
  apply node hn
  rw [hparts]
  exact List.forall_mem_cons.2 ⟨ha, List.forall_mem_singleton.2 hb⟩

theorem three (ha : Throughout P a) (hb : Throughout P b) (hc : Throughout P c) (hn : P n)
    (hparts : n.parts = [a, b, c]) : Throughout P n := by
  apply node hn
  rw [hparts]
  exact List.forall_mem_cons.2 ⟨ha, List.forall_mem_cons.2 ⟨hb, List.forall_mem_singleton.2 hc⟩⟩

end Node.Throughout

/-! ## What the walk changes -/

open Scoping ResolveM

theorem resolveBody_cons {s : Stmt} (hs : s.isFunction = false) (rest : List Stmt) :
    resolveBody (s :: rest) = (do return (← s.resolve) :: (← resolveBody rest)) := by
  cases s with
  | function decl => cases hs
  | _ => rfl

/-- What the walk over a node may change, whatever the node. -/
def Node.Change (r : Scoping) (node : Node) : Prop :=
  match node with
  | .stmt _ | .body _ | .top _ => r.Grows (node.after r)
  | _ => r.Keeps (node.after r)

theorem Expr.change {e : Expr} (ih : ∀ part ∈ e.parts, ∀ r, part.Change r) (r : Scoping) :
    r.Keeps (e.resolve.after r) := by
  cases e with
  | literal | «variable» => exact .refl r
  | group inner => exact ih (.expr inner) (.head _) r
  | assign name value slot => exact ih (.expr value) (.head _) r
  | unary op operand line => exact ih (.expr operand) (.head _) r
  | get object name => exact ih (.expr object) (.head _) r
  | lambda decl => exact ih (.function decl) (.head _) r
  | binary op left right line | logical op left right line =>
    have hleft := ih (.expr left) (.head _) r
    exact hleft.trans (ih (.expr right) (.tail _ (.head _)) _)
  | call callee arguments line =>
    have hcallee := ih (.expr callee) (.head _) r
    exact hcallee.trans (ih (.arguments arguments) (.tail _ (.head _)) _)
  | set object name value =>
    have hvalue := ih (.expr value) (.tail _ (.head _)) r
    exact hvalue.trans (ih (.expr object) (.head _) _)
  | this line slot =>
    rw [Expr.resolve, after_get_bind]
    split
    · exact .of_report _
    · exact .refl r
  | super line method slot =>
    rw [Expr.resolve, after_get_bind]
    split
    · exact .of_report _
    · exact .of_report _
    · exact .refl r

theorem Stmt.change {s : Stmt} (ih : ∀ part ∈ s.parts, ∀ r, part.Change r) (r : Scoping) :
    r.Grows (s.resolve.after r) := by
  cases s with
  | expression value => exact (ih (.expr value) (.head _) r).grows
  | print value => exact (ih (.expr value) (.head _) r).grows
  | var name value =>
    cases value with
    | none => exact grows_declare r name
    | some value =>
      have hvalue := ih (.expr value) (.head _)
      rw [Stmt.resolve, after_bind, after_get_bind, after_ite]
      refine (grows_declare r name).trans ?_
      split
      · exact ((Keeps.of_report _).trans (hvalue _).initialized).grows
      · exact (hvalue _).initialized.grows
  | block body =>
    have hbody := ih (.body body) (.head _)
    exact ((grows_declareFunctions _ body).trans (hbody _)).exit.grows
  | cond condition thenBranch elseBranch =>
    cases elseBranch with
    | none =>
      have hcondition := ih (.expr condition) (.head _) r
      exact hcondition.grows.trans (ih (.stmt thenBranch) (.tail _ (.head _)) _)
    | some elseBranch =>
      have hcondition := ih (.expr condition) (.head _) r
      have hthen := ih (.stmt thenBranch) (.tail _ (.head _)) (condition.resolve.after r)
      exact (hcondition.grows.trans hthen).trans
        (ih (.stmt elseBranch) (.tail _ (.tail _ (.head _))) _)
  | loop condition body =>
    have hcondition := ih (.expr condition) (.head _) r
    have hbody := ih (.stmt body) (.tail _ (.head _)) (condition.resolve.after r).enterLoop
    exact hcondition.grows.trans hbody.exitLoop
  | function decl => exact (grows_declareAll r _).trans (ih (.function decl) (.head _) _).grows
  | ret line value =>
    cases value with
    | none =>
      rw [Stmt.resolve, after_get_bind, after_ite]
      split
      · exact (Keeps.of_report _).grows
      · exact .refl r
    | some value =>
      have hvalue := ih (.expr value) (.head _)
      rw [Stmt.resolve, after_get_bind, after_ite]
      split
      · exact ((Keeps.of_report _).trans (hvalue _)).grows
      · exact (hvalue r).grows
  | brk line =>
    rw [Stmt.resolve, after_get_bind, after_ite]
    split
    · exact (Keeps.of_report _).grows
    · exact .refl r
  | classDecl name superclass methods =>
    have hmethods := ih (.methods methods) (.head _)
    rcases superclass with _ | ⟨parent, slot⟩
    · exact (grows_declare r name).trans (hmethods _).grows.exit.exitClass.grows
    · rw [Stmt.resolve, after_bind, after_ite]
      refine (grows_declare r name).trans ?_
      split
      · exact ((Keeps.of_report _).trans (hmethods _).grows.exit.grows.exit.exitClass).grows
      · exact (hmethods _).grows.exit.grows.exit.exitClass.grows

theorem Node.change (node : Node) (r : Scoping) : node.Change r := by
  induction node using parts_induction generalizing r with
  | h node ih =>
    cases node with
    | expr e => exact Expr.change ih r
    | stmt s => exact Stmt.change ih r
    | arguments es =>
      cases es with
      | nil => exact .refl r
      | cons e es =>
        have he := ih (.expr e) (.head _) r
        exact he.trans (ih (.arguments es) (.tail _ (.head _)) _)
    | body ss =>
      rcases ss with _ | ⟨s, rest⟩
      · exact .refl r
      cases hs : s.isFunction with
      | true =>
        cases s with
        | function decl =>
          have hdecl := ih (.function decl) (.head _) r
          exact hdecl.grows.trans (ih (.body rest) (.tail _ (.head _)) _)
        | _ => cases hs
      | false =>
        rw [parts_body_cons hs] at ih
        have hstmt := ih (.stmt s) (.head _) r
        change r.Grows ((resolveBody (s :: rest)).after r)
        rw [resolveBody_cons hs]
        exact hstmt.trans (ih (.body rest) (.tail _ (.head _)) _)
    | function decl =>
      obtain ⟨name, params, body, line⟩ := decl
      have hbody := ih (.body body) (.head _)
      change r.Keeps ((FunDecl.resolve ⟨name, params, body, line⟩).after r)
      exact (((grows_declareAll _ params).trans (grows_declareFunctions _ body)).trans
        (hbody _)).exitFunction
    | methods decls =>
      cases decls with
      | nil => exact .refl r
      | cons decl decls =>
        have hdecl := ih (.function decl) (.head _) r
        exact hdecl.trans (ih (.methods decls) (.tail _ (.head _)) _)
    | top ss =>
      cases ss with
      | nil => exact .refl r
      | cons s rest =>
        have hs := ih (.stmt s) (.head _) r
        exact hs.trans (ih (.top rest) (.tail _ (.head _)) _)

theorem Expr.keeps (e : Expr) (r : Scoping) : r.Keeps (e.resolve.after r) :=
  Node.change (.expr e) r

theorem Stmt.grows (s : Stmt) (r : Scoping) : r.Grows (s.resolve.after r) :=
  Node.change (.stmt s) r

/-- In a regular tree only declarations add names to the scope around them. -/
theorem Regular.keeps {s : Stmt} (h : Regular (.stmt s)) (hs : s.isDeclaration = false)
    (r : Scoping) : r.Keeps (s.resolve.after r) := by
  generalize hnode : Node.stmt s = node at h
  induction h generalizing s r with
  | @expression value | @print value =>
    cases hnode
    exact value.keeps r
  | @block body =>
    cases hnode
    exact ((grows_declareFunctions _ body).trans (Node.change (.body body) _)).exit
  | @cond condition _ _ _ hthen _ ih =>
    cases hnode
    exact (condition.keeps r).trans (ih hthen _ rfl)
  | @condElse condition _ _ _ _ hthen _ helse _ ih ih' =>
    cases hnode
    exact ((condition.keeps r).trans (ih hthen _ rfl)).trans (ih' helse _ rfl)
  | @loop condition _ _ _ hbody _ ih =>
    cases hnode
    exact (condition.keeps r).trans (ih hbody _ rfl).exitLoop
  | ret line =>
    cases hnode
    rw [Stmt.resolve, after_get_bind, after_ite]
    split
    · exact .of_report _
    · exact .refl r
  | @retWith value line =>
    cases hnode
    rw [Stmt.resolve, after_get_bind, after_ite]
    split
    · exact (Keeps.of_report _).trans (value.keeps _)
    · exact value.keeps r
  | brk line =>
    cases hnode
    rw [Stmt.resolve, after_get_bind, after_ite]
    split
    · exact .of_report _
    · exact .refl r
  | var | varWith | functionDecl | classDecl | subclassDecl =>
    cases hnode
    cases hs
  | _ => cases hnode

/-- What the walk over a node of a regular tree may change. -/
def Node.Effect (r : Scoping) (node : Node) : Prop :=
  match node with
  | .stmt s => r.Grows (node.after r) ∧ (s.isDeclaration = false → r.Keeps (node.after r))
  | .body _ => r.Grows (node.after r)
  | .top _ => r.Grows (node.after r)
  | _ => r.Keeps (node.after r)

theorem Regular.effect {node : Node} (h : Regular node) (r : Scoping) : node.Effect r := by
  cases node with
  | stmt s => exact ⟨s.grows r, fun hs => h.keeps hs r⟩
  | expr e => exact e.keeps r
  | arguments es => exact Node.change (.arguments es) r
  | body ss => exact Node.change (.body ss) r
  | function decl => exact Node.change (.function decl) r
  | methods decls => exact Node.change (.methods decls) r
  | top ss => exact Node.change (.top ss) r

/-! ## Whole programs -/

theorem resolved_eq_ok {p q : Program} (h : p.resolved = .ok q) :
    ((resolveTop p).after .fresh).errors = [] ∧ q = (resolveTop p).outcome .fresh := by
  have hrun : ((Scoping.resolve p).run .fresh).1 =
      ((resolveTop p).outcome .fresh, ((resolveTop p).after .fresh).errors) := rfl
  unfold Program.resolved at h
  rw [hrun] at h
  split at h
  · rename_i p' heq
    obtain ⟨rfl, herrors⟩ := Prod.mk.inj heq
    exact ⟨herrors, (Except.ok.inj h).symm⟩
  · cases h

theorem resolved_of_quiet {p : Program} (h : ((resolveTop p).after .fresh).errors = []) :
    p.resolved = .ok ((resolveTop p).outcome .fresh) := by
  have hrun : ((Scoping.resolve p).run .fresh).1 =
      ((resolveTop p).outcome .fresh, ((resolveTop p).after .fresh).errors) := rfl
  unfold Program.resolved
  rw [hrun, h]

theorem resolveTop_append (p q : List Stmt) (r : Scoping) :
    (resolveTop (p ++ q)).outcome r =
        (resolveTop p).outcome r ++ (resolveTop q).outcome ((resolveTop p).after r) ∧
      (resolveTop (p ++ q)).after r = (resolveTop q).after ((resolveTop p).after r) := by
  induction p generalizing r with
  | nil => exact ⟨rfl, rfl⟩
  | cons s p ih =>
    obtain ⟨houtcome, hafter⟩ := ih (s.resolve.after r)
    exact ⟨congrArg (s.resolve.outcome r :: ·) houtcome, hafter⟩

/-- Nothing is tracked at top level, so a program without violations leaves no trace. -/
theorem Regular.after_top {p : Program} (h : Regular (.top p))
    (hquiet : ((resolveTop p).after .fresh).errors = []) :
    (resolveTop p).after .fresh = .fresh := by
  obtain ⟨scopes, new, hafter, -, hlength⟩ := h.effect .fresh
  change (resolveTop p).after .fresh = _ at hafter
  rw [hafter] at hquiet ⊢
  obtain rfl : scopes = [] := List.length_eq_zero_iff.1 hlength
  obtain rfl : new = [] := hquiet
  rfl

/-- One program after the other is resolved as each of them is. -/
theorem Regular.resolved_append {p p' q q' : Program} (h : Regular (.top p))
    (hp : p.resolved = .ok p') (hq : q.resolved = .ok q') : (p ++ q).resolved = .ok (p' ++ q') := by
  obtain ⟨hquiet, rfl⟩ := resolved_eq_ok hp
  obtain ⟨hquiet', rfl⟩ := resolved_eq_ok hq
  obtain ⟨houtcome, hafter⟩ := resolveTop_append p q .fresh
  rw [h.after_top hquiet] at houtcome hafter
  rw [← houtcome]
  apply resolved_of_quiet
  rw [hafter, hquiet']

end Lox
