import Lox.Proofs.Scoping.Visibility

/-!
# What the resolver makes of a site

At the sites of accepted programs the resolver reports nothing, so that what it makes of a node and
what it knows afterwards have a simple form: the parts of an expression are resolved with the same
knowledge, and a statement adds the name it declares at most.
-/

set_option autoImplicit false

namespace Lox

open Scoping ResolveM

theorem Scoping.binding_declaring_of_ne (r : Scoping) {x y : String} (h : y ≠ x) :
    (r.declaring x).binding y = r.binding y := by
  have hvisible : (r.declaring x).visible? y = r.visible? y := by
    unfold declaring visible?
    cases hscopes : r.scopes with
    | nil => simp [hscopes]
    | cons scope outer => simp [distance?, h]
  rw [binding, binding, hvisible]

/-- What is known before the initializer of a variable, which is not pending yet. -/
def Scoping.beforeInitializer (name : Ident) (value : Expr) (r : Scoping) : Scoping :=
  if (!((declare name).after r).scopes.isEmpty && value.isReferenceTo name.name) = true then
    ((declare name).after r).reporting ⟨name.line, name.name, .selfInitializer⟩
  else (declare name).after r

/-! ## What kind of statement the resolver makes of one -/

namespace Stmt

theorem outcome_var (name : Ident) (value : Expr) (r : Scoping) :
    (Stmt.var name (some value)).resolve.outcome r =
      .var name (some (value.resolve.outcome
        ((r.beforeInitializer name value).awaiting name.name))) := by
  rw [Stmt.resolve, outcome_bind, outcome_get_bind, outcome_report_if]
  rfl

theorem after_var (name : Ident) (value : Expr) (r : Scoping) :
    (Stmt.var name (some value)).resolve.after r =
      { value.resolve.after ((r.beforeInitializer name value).awaiting name.name) with
        pending := (r.beforeInitializer name value).pending } := by
  rw [Stmt.resolve, after_bind, after_get_bind, after_report_if]
  rfl

theorem after_ret (line : Nat) (value : Expr) (r : Scoping) :
    (Stmt.ret line (some value)).resolve.after r = value.resolve.after
      (if (!r.inFunction) = true then r.reporting ⟨line, "return", .returnAtTopLevel⟩ else r) := by
  rw [Stmt.resolve, after_get_bind, after_report_if]
  rfl

theorem after_subclass (name parent : Ident) (slot : Slot) (decls : List FunDecl) (r : Scoping) :
    (Stmt.classDecl name (some (parent, slot)) decls).resolve.after r =
      (inClass .derived (inScope ["super"] (inScope ["this"] (resolveMethods decls)))).after
        (if parent.name = name.name then
          ((declare name).after r).reporting ⟨parent.line, parent.name, .selfInheritance⟩
        else (declare name).after r) := by
  rw [Stmt.resolve, after_bind, after_report_if]
  rfl

theorem resolve_var (name : Ident) (value : Option Expr) (r : Scoping) :
    ∃ value', (Stmt.var name value).resolve.outcome r = .var name value' := by
  cases value with
  | none => exact ⟨none, rfl⟩
  | some value => exact ⟨_, outcome_var name value r⟩

theorem resolve_ret (line : Nat) (value : Option Expr) (r : Scoping) :
    ∃ value', (Stmt.ret line value).resolve.outcome r = .ret line value' := by
  cases value <;> rw [Stmt.resolve, outcome_get_bind, outcome_ite] <;> split <;> exact ⟨_, rfl⟩

theorem resolve_brk (line : Nat) (r : Scoping) : (Stmt.brk line).resolve.outcome r = .brk line := by
  rw [Stmt.resolve, outcome_get_bind, outcome_ite]
  split
  · rfl
  · rfl

theorem resolve_classDecl (name : Ident) (superclass : Option (Ident × Slot))
    (methods : List FunDecl) (r : Scoping) :
    ∃ superclass' methods', (Stmt.classDecl name superclass methods).resolve.outcome r =
      .classDecl name superclass' methods' := by
  rcases superclass with _ | ⟨parent, slot⟩
  · exact ⟨_, _, rfl⟩
  · rw [Stmt.resolve, outcome_bind, outcome_ite]
    split
    · exact ⟨_, _, rfl⟩
    · exact ⟨_, _, rfl⟩

end Stmt

theorem FunDecl.name_resolve (decl : FunDecl) (r : Scoping) :
    (decl.resolve.outcome r).name = decl.name := by
  obtain ⟨name, params, body, line⟩ := decl
  rfl

/-- The statements are of the same kind and declare the same name. -/
inductive Stmt.Resembles : Stmt → Stmt → Prop where
  | expression (value value' : Expr) : Resembles (.expression value) (.expression value')
  | print (value value' : Expr) : Resembles (.print value) (.print value')
  | var (name : Ident) (value value' : Option Expr) : Resembles (.var name value) (.var name value')
  | block (body body' : List Stmt) : Resembles (.block body) (.block body')
  | cond (condition condition' : Expr) (thenBranch thenBranch' : Stmt)
      (elseBranch elseBranch' : Option Stmt) :
      Resembles (.cond condition thenBranch elseBranch) (.cond condition' thenBranch' elseBranch')
  | loop (condition condition' : Expr) (body body' : Stmt) :
      Resembles (.loop condition body) (.loop condition' body')
  | function {decl decl' : FunDecl} :
      decl'.name = decl.name → Resembles (.function decl) (.function decl')
  | ret (line : Nat) (value value' : Option Expr) : Resembles (.ret line value) (.ret line value')
  | brk (line : Nat) : Resembles (.brk line) (.brk line)
  | classDecl (name : Ident) (superclass superclass' : Option (Ident × Slot))
      (methods methods' : List FunDecl) :
      Resembles (.classDecl name superclass methods) (.classDecl name superclass' methods')

namespace Stmt

theorem resembles_resolve (s : Stmt) (r : Scoping) : s.Resembles (s.resolve.outcome r) := by
  cases s with
  | var name value =>
    obtain ⟨value', h⟩ := resolve_var name value r
    rw [h]
    exact .var name value value'
  | ret line value =>
    obtain ⟨value', h⟩ := resolve_ret line value r
    rw [h]
    exact .ret line value value'
  | brk line =>
    rw [resolve_brk]
    exact .brk line
  | classDecl name superclass methods =>
    obtain ⟨superclass', methods', h⟩ := resolve_classDecl name superclass methods r
    rw [h]
    exact .classDecl name superclass superclass' methods methods'
  | function decl => exact .function (decl.name_resolve _)
  | cond condition thenBranch elseBranch => cases elseBranch <;> exact .cond _ _ _ _ _ _
  | expression value => exact .expression _ _
  | print value => exact .print _ _
  | block body => exact .block _ _
  | loop condition body => exact .loop _ _ _ _

/-- Loops are made of loops only. -/
theorem resolve_eq_loop {s : Stmt} {r : Scoping} {condition : Expr} {body : Stmt}
    (h : s.resolve.outcome r = .loop condition body) :
    ∃ condition' body', s = .loop condition' body' := by
  have hresembles := s.resembles_resolve r
  rw [h] at hresembles
  cases hresembles with
  | loop condition' _ body' _ => exact ⟨condition', body', rfl⟩

/-- Blocks are made of blocks only. -/
theorem resolve_eq_block {s : Stmt} {r : Scoping} {body : List Stmt}
    (h : s.resolve.outcome r = .block body) : ∃ body', s = .block body' := by
  have hresembles := s.resembles_resolve r
  rw [h] at hresembles
  cases hresembles with
  | block body' _ => exact ⟨body', rfl⟩

theorem isFunction_resolve (s : Stmt) (r : Scoping) :
    (s.resolve.outcome r).isFunction = s.isFunction := by
  have hresembles := s.resembles_resolve r
  generalize s.resolve.outcome r = s' at hresembles
  cases hresembles <;> rfl

theorem isDeclaration_resolve (s : Stmt) (r : Scoping) :
    (s.resolve.outcome r).isDeclaration = s.isDeclaration := by
  have hresembles := s.resembles_resolve r
  generalize s.resolve.outcome r = s' at hresembles
  cases hresembles <;> rfl

end Stmt

namespace KnownIn

variable {C : Corpus} {os : List ScopeOrigin} {r : Scoping}

/-- An expression and what follows it are resolved with the same knowledge. -/
theorem pair {node second : Node} {first : Expr} (h : KnownIn C ⟨os, r, node⟩)
    (hchildren : (⟨os, r, node⟩ : Site).children =
      [⟨os, r, .expr first⟩, ⟨os, first.resolve.after r, second⟩]) :
    KnownIn C ⟨os, r, .expr first⟩ ∧ KnownIn C ⟨os, r, second⟩ ∧ first.resolve.after r = r := by
  have hfirst : KnownIn C ⟨os, r, .expr first⟩ := h.child (by rw [hchildren]; simp)
  have hsecond : KnownIn C ⟨os, first.resolve.after r, second⟩ := h.child (by rw [hchildren]; simp)
  have hafter := hfirst.expr_after
  rw [hafter] at hsecond
  exact ⟨hfirst, hsecond, hafter⟩

theorem stmt_after {s : Stmt} (h : KnownIn C ⟨os, r, .stmt s⟩) (hs : s.introduced? = none) :
    s.resolve.after r = r := by
  rw [h.proper.after_stmt, hs]
  rfl

theorem ret {line : Nat} (h : KnownIn C ⟨os, r, .stmt (.ret line none)⟩) :
    r.inFunction = true ∧ (Stmt.ret line none).resolve.outcome r = .ret line none := by
  have hquiet : ((Stmt.ret line none).resolve.after r).errors = [] := h.proper.quiet
  rw [Stmt.resolve, after_get_bind, after_ite] at hquiet
  rw [Stmt.resolve, outcome_get_bind, outcome_ite]
  split at hquiet
  · exact absurd hquiet (reporting_ne_nil _ _)
  · rename_i hfunction
    exact ⟨by simpa using hfunction, if_neg hfunction⟩

theorem retWith {line : Nat} {value : Expr}
    (h : KnownIn C ⟨os, r, .stmt (.ret line (some value))⟩) :
    r.inFunction = true ∧
      (Stmt.ret line (some value)).resolve.outcome r = .ret line (some (value.resolve.outcome r)) := by
  have hquiet : ((Stmt.ret line (some value)).resolve.after r).errors = [] := h.proper.quiet
  have hvalue : KnownIn C ⟨os, r, .expr value⟩ := h.child List.mem_cons_self
  rw [Stmt.resolve, after_get_bind, after_ite] at hquiet
  rw [Stmt.resolve, outcome_get_bind, outcome_ite]
  split at hquiet
  · exact absurd ((hvalue.proper.regular.grows _).errors_nil hquiet) (reporting_ne_nil _ _)
  · rename_i hfunction
    exact ⟨by simpa using hfunction, if_neg hfunction⟩

theorem brk {line : Nat} (h : KnownIn C ⟨os, r, .stmt (.brk line)⟩) :
    r.loopDepth ≠ 0 ∧ (Stmt.brk line).resolve.outcome r = .brk line := by
  have hquiet : ((Stmt.brk line).resolve.after r).errors = [] := h.proper.quiet
  rw [Stmt.resolve, after_get_bind, after_ite] at hquiet
  rw [Stmt.resolve, outcome_get_bind, outcome_ite]
  split at hquiet
  · exact absurd hquiet (reporting_ne_nil _ _)
  · rename_i hdepth
    exact ⟨hdepth, if_neg hdepth⟩

/-- The condition and the body of a loop. -/
theorem loop {condition : Expr} {body : Stmt}
    (h : KnownIn C ⟨os, r, .stmt (.loop condition body)⟩) :
    KnownIn C ⟨os, r, .expr condition⟩ ∧ KnownIn C ⟨os, r.enterLoop, .stmt body⟩ ∧
      body.isDeclaration = false ∧ (Stmt.loop condition body).resolve.outcome r =
        .loop (condition.resolve.outcome r) (body.resolve.outcome r.enterLoop) := by
  have hcondition : KnownIn C ⟨os, r, .expr condition⟩ := h.child List.mem_cons_self
  have hbody : KnownIn C ⟨os, (condition.resolve.after r).enterLoop, .stmt body⟩ :=
    h.child (List.mem_cons_of_mem _ List.mem_cons_self)
  have hafter := hcondition.expr_after
  rw [hafter] at hbody
  refine ⟨hcondition, hbody, ?_, ?_⟩
  · cases h.proper.regular with
    | loop _ _ hdeclares => exact hdeclares
  · show Stmt.loop (condition.resolve.outcome r)
      (body.resolve.outcome (condition.resolve.after r).enterLoop) = _
    rw [hafter]

theorem condElse {condition : Expr} {thenBranch elseBranch : Stmt}
    (h : KnownIn C ⟨os, r, .stmt (.cond condition thenBranch (some elseBranch))⟩) :
    KnownIn C ⟨os, r, .expr condition⟩ ∧ KnownIn C ⟨os, r, .stmt thenBranch⟩ ∧
      KnownIn C ⟨os, r, .stmt elseBranch⟩ ∧
      (thenBranch.isDeclaration = false ∧ elseBranch.isDeclaration = false) ∧
      (Stmt.cond condition thenBranch (some elseBranch)).resolve.outcome r =
        .cond (condition.resolve.outcome r) (thenBranch.resolve.outcome r)
          (some (elseBranch.resolve.outcome r)) := by
  have hcondition : KnownIn C ⟨os, r, .expr condition⟩ := h.child List.mem_cons_self
  have hthen : KnownIn C ⟨os, condition.resolve.after r, .stmt thenBranch⟩ :=
    h.child (List.mem_cons_of_mem _ List.mem_cons_self)
  have helse :
      KnownIn C ⟨os, thenBranch.resolve.after (condition.resolve.after r), .stmt elseBranch⟩ :=
    h.child (List.mem_cons_of_mem _ (List.mem_cons_of_mem _ List.mem_cons_self))
  obtain ⟨hdeclares, hdeclares'⟩ :
      thenBranch.isDeclaration = false ∧ elseBranch.isDeclaration = false := by
    cases h.proper.regular with
    | condElse _ _ hdeclares _ hdeclares' => exact ⟨hdeclares, hdeclares'⟩
  have hafter := hcondition.expr_after
  rw [hafter] at hthen helse
  have hafter' := hthen.stmt_after (Stmt.of_not_declaration hdeclares).2
  rw [hafter'] at helse
  refine ⟨hcondition, hthen, helse, ⟨hdeclares, hdeclares'⟩, ?_⟩
  show Stmt.cond (condition.resolve.outcome r)
    (thenBranch.resolve.outcome (condition.resolve.after r)) (some (elseBranch.resolve.outcome
      (thenBranch.resolve.after (condition.resolve.after r)))) = _
  rw [hafter, hafter']

theorem classDecl {name : Ident} {decls : List FunDecl}
    (h : KnownIn C ⟨os, r, .stmt (.classDecl name none decls)⟩) :
    KnownIn C
        ⟨.receiver :: os, ((r.declaring name.name).within .plain).enter ["this"], .methods decls⟩ ∧
      (Stmt.classDecl name none decls).resolve.outcome r = .classDecl name none
        ((resolveMethods decls).outcome (((r.declaring name.name).within .plain).enter ["this"])) := by
  have hregular : Regular (.methods decls) := by
    cases h.proper.regular with
    | classDecl _ hdecls => exact hdecls
  obtain ⟨hdeclare, -, -, houtcome⟩ := class_quiet hregular h.proper.quiet
  refine ⟨?_, houtcome⟩
  rw [← hdeclare]
  exact h.child List.mem_cons_self

/-- The name of a superclass is looked up as if its class had not been declared. -/
theorem subclassDecl {name parent : Ident} {slot : Slot} {decls : List FunDecl}
    (h : KnownIn C ⟨os, r, .stmt (.classDecl name (some (parent, slot)) decls)⟩) :
    KnownIn C ⟨os, r, .expr (.variable parent slot)⟩ ∧
      KnownIn C ⟨.receiver :: .superclass :: os,
        (((r.declaring name.name).within .derived).enter ["super"]).enter ["this"],
        .methods decls⟩ ∧
      (Stmt.classDecl name (some (parent, slot)) decls).resolve.outcome r = .classDecl name
        (some (parent, some (r.binding parent.name))) ((resolveMethods decls).outcome
          ((((r.declaring name.name).within .derived).enter ["super"]).enter ["this"])) := by
  have hregular : Regular (.methods decls) := by
    cases h.proper.regular with
    | subclassDecl _ _ _ hdecls => exact hdecls
  obtain ⟨hne, hdeclare, -, -, houtcome⟩ := subclass_quiet hregular h.proper.quiet
  refine ⟨h.child List.mem_cons_self, ?_, ?_⟩
  · rw [← hdeclare]
    exact h.child (List.mem_cons_of_mem _ List.mem_cons_self)
  · rw [houtcome, binding_declaring_of_ne r hne]

theorem function_after {decl : FunDecl} (h : KnownIn C ⟨os, r, .function decl⟩) :
    decl.resolve.after r = r :=
  Keeps.eq (h.proper.regular.effect r) h.proper.quiet

theorem body_function {decl : FunDecl} {rest : List Stmt}
    (h : KnownIn C ⟨os, r, .body (.function decl :: rest)⟩) :
    KnownIn C ⟨os, r, .function decl⟩ ∧ KnownIn C ⟨os, r, .body rest⟩ ∧
      (resolveBody (.function decl :: rest)).outcome r =
        .function (decl.resolve.outcome r) :: (resolveBody rest).outcome r := by
  have hdecl : KnownIn C ⟨os, r, .function decl⟩ := h.child List.mem_cons_self
  have hrest : KnownIn C ⟨os, decl.resolve.after r, .body rest⟩ :=
    h.child (List.mem_cons_of_mem _ List.mem_cons_self)
  have hafter := hdecl.function_after
  rw [hafter] at hrest
  refine ⟨hdecl, hrest, ?_⟩
  show Stmt.function (decl.resolve.outcome r) ::
    (resolveBody rest).outcome (decl.resolve.after r) = _
  rw [hafter]

theorem body_stmt {s : Stmt} {rest : List Stmt} (h : KnownIn C ⟨os, r, .body (s :: rest)⟩)
    (hs : s.isFunction = false) :
    KnownIn C ⟨os, r, .stmt s⟩ ∧ KnownIn C ⟨os, s.resolve.after r, .body rest⟩ ∧
      (resolveBody (s :: rest)).outcome r =
        s.resolve.outcome r :: (resolveBody rest).outcome (s.resolve.after r) := by
  have hchildren := Site.children_body os r hs rest
  refine ⟨h.child ?_, h.child ?_, ?_⟩
  · rw [hchildren]
    exact List.mem_cons_self
  · rw [hchildren]
    exact List.mem_cons_of_mem _ List.mem_cons_self
  · rw [resolveBody_cons hs]
    rfl

/-- A superclass is looked up just outside the scope of a receiver. -/
theorem of_super {e : Expr} {line : Nat} {method : Ident} {slot : Slot}
    (h : KnownIn C ⟨os, r, .expr e⟩)
    (he : e.resolve.outcome r = .super line method slot) :
    ∃ d, slot = some (.atDistance (d + 1)) ∧ os[d + 1]? = some .superclass ∧
      os[d]? = some .receiver := by
  cases e with
  | super line₀ method₀ slot₀ =>
    obtain ⟨d, houtcome, -, hsuper, hthis⟩ := h.super
    rw [houtcome] at he
    cases he
    exact ⟨d, rfl, hsuper, hthis⟩
  | this line₀ slot₀ =>
    obtain ⟨d, houtcome, -⟩ := h.this
    rw [houtcome] at he
    cases he
  | literal | group | «variable» | assign | unary | binary | logical | call | get | set | lambda =>
    cases he

end KnownIn

end Lox
