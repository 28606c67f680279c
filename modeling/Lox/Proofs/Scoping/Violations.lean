import Lox.Proofs.Scoping.Sites

/-!
# The static rules

Each rule is about a position: something in a program together with what it is enclosed by. A rule
does not refer to other positions, so that the violations of a program are those of its positions
one by one. The resolver, which knows a position only by what it has met on its way there, reports
the same ones.
-/

set_option autoImplicit false

namespace Lox

/-! ## Positions -/

/-- What can enclose a position. -/
inductive Enclosure where
  | block
  /-- The parameters and the body of a function. -/
  | function
  | loopBody
  | classBody (derived : Bool)
  deriving DecidableEq

/-- What can stand at a position. -/
inductive Construct where
  | expr (e : Expr)
  | stmt (s : Stmt)
  | function (decl : FunDecl)

structure Position where
  /-- What encloses the position, innermost first. -/
  path : List Enclosure
  construct : Construct

/-- The expressions and functions directly in an expression. -/
def Expr.constructs : Expr → List Construct
  | .literal _ _ | .variable _ _ | .this _ _ | .super _ _ _ => []
  | .group inner => [.expr inner]
  | .assign _ value _ => [.expr value]
  | .unary _ operand _ => [.expr operand]
  | .binary _ left right _ | .logical _ left right _ => [.expr left, .expr right]
  | .call callee arguments _ => .expr callee :: arguments.map .expr
  | .get object _ => [.expr object]
  | .set object _ value => [.expr object, .expr value]
  | .lambda decl => [.function decl]

namespace Position

/-- The positions directly inside a position. -/
def inside : Position → List Position
  | ⟨path, .expr e⟩ => e.constructs.map (mk path)
  | ⟨path, .stmt (.expression value)⟩ | ⟨path, .stmt (.print value)⟩
  | ⟨path, .stmt (.var _ (some value))⟩ | ⟨path, .stmt (.ret _ (some value))⟩ =>
    [⟨path, .expr value⟩]
  | ⟨_, .stmt (.var _ none)⟩ | ⟨_, .stmt (.ret _ none)⟩ | ⟨_, .stmt (.brk _)⟩ => []
  | ⟨path, .stmt (.block body)⟩ => body.map fun s => ⟨.block :: path, .stmt s⟩
  | ⟨path, .stmt (.cond condition thenBranch elseBranch)⟩ =>
    ⟨path, .expr condition⟩ :: ⟨path, .stmt thenBranch⟩ ::
      elseBranch.toList.map fun s => ⟨path, .stmt s⟩
  | ⟨path, .stmt (.loop condition body)⟩ =>
    [⟨path, .expr condition⟩, ⟨.loopBody :: path, .stmt body⟩]
  | ⟨path, .stmt (.function decl)⟩ => [⟨path, .function decl⟩]
  | ⟨path, .stmt (.classDecl _ superclass methods)⟩ =>
    methods.map fun decl => ⟨.classBody superclass.isSome :: path, .function decl⟩
  | ⟨path, .function decl⟩ => decl.body.map fun s => ⟨.function :: path, .stmt s⟩

theorem sizeOf_constructs {e : Expr} {part : Construct} (h : part ∈ e.constructs) :
    sizeOf part < sizeOf (Construct.expr e) := by
  cases e with
  | literal | «variable» | this | super => cases h
  | group | assign | unary | get | lambda =>
    obtain rfl := List.mem_singleton.1 h
    simp +arith
  | binary | logical | set =>
    rcases List.mem_cons.1 h with rfl | h
    · simp +arith
    · obtain rfl := List.mem_singleton.1 h
      simp +arith
  | call callee arguments line =>
    rcases List.mem_cons.1 h with rfl | h
    · simp +arith
    · obtain ⟨argument, hargument, rfl⟩ := List.mem_map.1 h
      have hless := List.sizeOf_lt_of_mem hargument
      simp only [Construct.expr.sizeOf_spec, Expr.call.sizeOf_spec]
      omega

theorem sizeOf_inside {p q : Position} (h : q ∈ p.inside) :
    sizeOf q.construct < sizeOf p.construct := by
  obtain ⟨path, construct⟩ := p
  cases construct with
  | expr e =>
    obtain ⟨part, hpart, rfl⟩ := List.mem_map.1 h
    exact sizeOf_constructs hpart
  | function decl =>
    obtain ⟨s, hs, rfl⟩ := List.mem_map.1 h
    have hless := List.sizeOf_lt_of_mem hs
    obtain ⟨name, params, body, line⟩ := decl
    simp only [Construct.stmt.sizeOf_spec, Construct.function.sizeOf_spec,
      FunDecl.mk.sizeOf_spec] at hless ⊢
    omega
  | stmt s =>
    cases s with
    | brk => cases h
    | expression | print | function =>
      obtain rfl := List.mem_singleton.1 h
      simp +arith
    | var name value | ret line value =>
      cases value with
      | none => cases h
      | some value =>
        obtain rfl := List.mem_singleton.1 h
        simp +arith
    | loop =>
      rcases List.mem_cons.1 h with rfl | h
      · simp +arith
      · obtain rfl := List.mem_singleton.1 h
        simp +arith
    | cond condition thenBranch elseBranch =>
      rcases List.mem_cons.1 h with rfl | h
      · simp +arith
      rcases List.mem_cons.1 h with rfl | h
      · simp +arith
      obtain ⟨s, hs, rfl⟩ := List.mem_map.1 h
      obtain rfl := Option.mem_toList.1 hs
      simp +arith
    | block body =>
      obtain ⟨s, hs, rfl⟩ := List.mem_map.1 h
      have hless := List.sizeOf_lt_of_mem hs
      simp only [Construct.stmt.sizeOf_spec, Stmt.block.sizeOf_spec]
      omega
    | classDecl name superclass methods =>
      obtain ⟨decl, hdecl, rfl⟩ := List.mem_map.1 h
      have hless := List.sizeOf_lt_of_mem hdecl
      simp only [Construct.stmt.sizeOf_spec, Construct.function.sizeOf_spec,
        Stmt.classDecl.sizeOf_spec]
      omega

/-- The position and all positions inside it. -/
def within (p : Position) : List Position :=
  p :: p.inside.attach.flatMap fun q => q.1.within
termination_by sizeOf p.construct
decreasing_by exact sizeOf_inside q.2

theorem within_eq (p : Position) : p.within = p :: p.inside.flatMap within := by
  rw [within]
  simp

end Position

/-- Every position in a program. -/
def Program.positions (p : Program) : List Position :=
  p.flatMap fun s => Position.within ⟨[], .stmt s⟩

/-! ## Rules -/

/-- Whether the innermost class around a position has a superclass. -/
def innermostClass? (path : List Enclosure) : Option Bool :=
  path.findSome? fun
    | .classBody derived => some derived
    | _ => none

/-- A loop of the same function encloses the position. -/
def InLoop (path : List Enclosure) : Prop :=
  .loopBody ∈ path.takeWhile (· ≠ .function)

instance (path : List Enclosure) : Decidable (InLoop path) :=
  inferInstanceAs (Decidable (_ ∈ _))

/-- The position is in a scope other than that of the whole program. -/
def IsLocal (path : List Enclosure) : Prop :=
  ∃ e ∈ path, e ≠ .loopBody

instance (path : List Enclosure) : Decidable (IsLocal path) :=
  inferInstanceAs (Decidable (∃ e ∈ path, e ≠ .loopBody))

/-- The expression without parentheses around it. -/
def Expr.bare : Expr → Expr
  | .group inner => inner.bare
  | e => e

/-- The name that an expression is an occurrence of. -/
def Expr.name? : Expr → Option String
  | .variable x _ => some x.name
  | _ => none

/-- The name that a function declaration introduces. -/
def Stmt.functionName? : Stmt → Option Ident
  | .function decl => decl.name
  | _ => none

/-- The declarations of a scope in the order in which they count: parameters, then functions, then
variables and classes. -/
def scopeDeclarations (params : List Ident) (body : List Stmt) : List Ident :=
  params ++ (body.filterMap Stmt.functionName? ++ body.filterMap Stmt.introduced?)

/-- The declarations whose name an earlier one in the list has. -/
def redeclared (declared : List Ident) : List Ident :=
  (List.range declared.length).filterMap fun i =>
    declared[i]?.filter fun x => x.name ∈ (declared.take i).map Ident.name

def redeclaration (x : Ident) : ResolveError :=
  ⟨x.line, x.name, .redeclared⟩

/-- The violations at a position, apart from those inside it. -/
def Position.violations : Position → List ResolveError
  | ⟨path, .expr (.this line _)⟩ =>
    if innermostClass? path = none then [⟨line, "this", .thisOutsideClass⟩] else []
  | ⟨path, .expr (.super line _ _)⟩ =>
    match innermostClass? path with
    | none => [⟨line, "super", .superOutsideClass⟩]
    | some false => [⟨line, "super", .superWithoutSuperclass⟩]
    | some true => []
  | ⟨path, .stmt (.ret line _)⟩ =>
    if .function ∉ path then [⟨line, "return", .returnAtTopLevel⟩] else []
  | ⟨path, .stmt (.brk line)⟩ =>
    if ¬ InLoop path then [⟨line, "break", .breakOutsideLoop⟩] else []
  | ⟨_, .stmt (.classDecl name (some (parent, _)) _)⟩ =>
    if parent.name = name.name then [⟨parent.line, parent.name, .selfInheritance⟩] else []
  | ⟨path, .stmt (.var name (some value))⟩ =>
    if IsLocal path ∧ value.bare.name? = some name.name then
      [⟨name.line, name.name, .selfInitializer⟩]
    else []
  | ⟨_, .stmt (.block body)⟩ => (redeclared (scopeDeclarations [] body)).map redeclaration
  | ⟨_, .function decl⟩ => (redeclared (scopeDeclarations decl.params decl.body)).map redeclaration
  | _ => []

/-- All violations in a program. -/
def Program.violations (p : Program) : List ResolveError :=
  p.positions.flatMap Position.violations

/-- All violations at a position and inside it. -/
def Position.total (p : Position) : List ResolveError :=
  p.within.flatMap Position.violations

theorem Position.total_eq (p : Position) :
    p.total = p.violations ++ p.inside.flatMap Position.total := by
  unfold Position.total
  rw [within_eq, List.flatMap_cons, List.flatMap_assoc]

theorem Program.violations_eq (p : Program) :
    p.violations = p.flatMap fun s => Position.total ⟨[], .stmt s⟩ := by
  unfold Program.violations Program.positions
  rw [List.flatMap_assoc]
  rfl

end Lox
