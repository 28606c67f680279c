import Lox.Proofs.Scoping.Walk

/-!
# Places in a program

A site is a node together with what the resolver knows when it gets there and the origins of the
scopes that are open there. The sites within a site are those of the resolver's calls; a violation
that is reported on the way to one is left out, because no program with a violation is run. The
sites of a program are all that are reached in this way from its top level.
-/

set_option autoImplicit false

namespace Lox

open Scoping ResolveM

/-! ## Origins of scopes -/

/-- What a scope is opened for. -/
inductive ScopeOrigin where
  | block (body : List Stmt)
  | function (params : List Ident) (body : List Stmt)
  /-- The scope that holds the receiver of a method. -/
  | receiver
  /-- The scope that holds the superclass of a class. -/
  | superclass

/-- The name that a variable or class declaration introduces. -/
def Stmt.introduced? : Stmt → Option Ident
  | .var name _ => some name
  | .classDecl name _ _ => some name
  | _ => none

theorem functionNames_cons {s : Stmt} (hs : s.isFunction = false) (rest : List Stmt) :
    functionNames (s :: rest) = functionNames rest := by
  cases s with
  | function decl => cases hs
  | _ => rfl

theorem Stmt.of_not_declaration {s : Stmt} (hs : s.isDeclaration = false) :
    s.isFunction = false ∧ s.introduced? = none := by
  cases s <;> simp [isDeclaration, isFunction, introduced?] at hs ⊢

/-- The variables and classes that are declared directly in a body. -/
def introducedNames (body : List Stmt) : List String :=
  body.filterMap fun s => s.introduced?.map Ident.name

namespace ScopeOrigin

/-- The names that are bound as soon as the scope is in force. -/
def definite : ScopeOrigin → List String
  | .block body => functionNames body
  | .function params body => params.map Ident.name ++ functionNames body
  | .receiver => ["this"]
  | .superclass => ["super"]

/-- The names that variable and class statements of the body bind. -/
def introduced : ScopeOrigin → List String
  | .block body => introducedNames body
  | .function _ body => introducedNames body
  | .receiver => []
  | .superclass => []

/-- All names that are declared in the scope. -/
def names (o : ScopeOrigin) : List String :=
  o.definite ++ o.introduced

def isFunction : ScopeOrigin → Bool
  | .function _ _ => true
  | _ => false

def hasBody : ScopeOrigin → Bool
  | .block _ => true
  | .function _ _ => true
  | _ => false

end ScopeOrigin

/-! ## Sites -/

structure Site where
  /-- What the open scopes are for, innermost first. -/
  origins : List ScopeOrigin
  state : Scoping
  node : Node

namespace Site

def inExpr (os : List ScopeOrigin) (r : Scoping) : Expr → List Site
  | .literal _ _ | .variable _ _ | .this _ _ | .super _ _ _ => []
  | .group inner => [⟨os, r, .expr inner⟩]
  | .assign _ value _ => [⟨os, r, .expr value⟩]
  | .unary _ operand _ => [⟨os, r, .expr operand⟩]
  | .binary _ left right _ | .logical _ left right _ =>
    [⟨os, r, .expr left⟩, ⟨os, left.resolve.after r, .expr right⟩]
  | .call callee arguments _ =>
    [⟨os, r, .expr callee⟩, ⟨os, callee.resolve.after r, .arguments arguments⟩]
  | .get object _ => [⟨os, r, .expr object⟩]
  | .set object _ value => [⟨os, r, .expr value⟩, ⟨os, value.resolve.after r, .expr object⟩]
  | .lambda decl => [⟨os, r, .function decl⟩]

/-- A class is not visible to the name of its superclass, which must differ from its own. -/
def inStmt (os : List ScopeOrigin) (r : Scoping) : Stmt → List Site
  | .expression value | .print value | .ret _ (some value) => [⟨os, r, .expr value⟩]
  | .var _ none | .ret _ none | .brk _ => []
  | .var name (some value) =>
    [⟨os, ((declare name).after r).awaiting name.name, .expr value⟩]
  | .block body => [⟨.block body :: os, (declareFunctions body).after (r.enter []), .body body⟩]
  | .cond condition thenBranch none =>
    [⟨os, r, .expr condition⟩, ⟨os, condition.resolve.after r, .stmt thenBranch⟩]
  | .cond condition thenBranch (some elseBranch) =>
    [⟨os, r, .expr condition⟩, ⟨os, condition.resolve.after r, .stmt thenBranch⟩,
      ⟨os, thenBranch.resolve.after (condition.resolve.after r), .stmt elseBranch⟩]
  | .loop condition body =>
    [⟨os, r, .expr condition⟩, ⟨os, (condition.resolve.after r).enterLoop, .stmt body⟩]
  | .function decl => [⟨os, (declareAll decl.name.toList).after r, .function decl⟩]
  | .classDecl name none decls =>
    [⟨.receiver :: os, (((declare name).after r).within .plain).enter ["this"], .methods decls⟩]
  | .classDecl name (some (parent, slot)) decls =>
    [⟨os, r, .expr (.variable parent slot)⟩,
      ⟨.receiver :: .superclass :: os,
        ((((declare name).after r).within .derived).enter ["super"]).enter ["this"],
        .methods decls⟩]

/-- The sites of the calls that the resolver makes at a site. -/
def children : Site → List Site
  | ⟨os, r, .expr e⟩ => inExpr os r e
  | ⟨os, r, .stmt s⟩ => inStmt os r s
  | ⟨_, _, .arguments []⟩ | ⟨_, _, .body []⟩ | ⟨_, _, .methods []⟩ | ⟨_, _, .top []⟩ => []
  | ⟨os, r, .arguments (e :: es)⟩ =>
    [⟨os, r, .expr e⟩, ⟨os, e.resolve.after r, .arguments es⟩]
  | ⟨os, r, .body (.function decl :: rest)⟩ =>
    [⟨os, r, .function decl⟩, ⟨os, decl.resolve.after r, .body rest⟩]
  | ⟨os, r, .body (s :: rest)⟩ => [⟨os, r, .stmt s⟩, ⟨os, s.resolve.after r, .body rest⟩]
  | ⟨os, r, .function ⟨_, params, body, _⟩⟩ =>
    [⟨.function params body :: os,
      (declareFunctions body).after ((declareAll params).after r.enterFunction), .body body⟩]
  | ⟨os, r, .methods (decl :: decls)⟩ =>
    [⟨os, r, .function decl⟩, ⟨os, decl.resolve.after r, .methods decls⟩]
  | ⟨os, r, .top (s :: rest)⟩ => [⟨os, r, .stmt s⟩, ⟨os, s.resolve.after r, .top rest⟩]

theorem children_body (os : List ScopeOrigin) (r : Scoping) {s : Stmt} (hs : s.isFunction = false)
    (rest : List Stmt) : children ⟨os, r, .body (s :: rest)⟩ =
      [⟨os, r, .stmt s⟩, ⟨os, s.resolve.after r, .body rest⟩] := by
  cases s with
  | function decl => cases hs
  | _ => rfl

end Site

/-- The sites of a program. -/
inductive Visited (p : Program) : Site → Prop where
  | top : Visited p ⟨[], .fresh, .top p⟩
  | child {s c : Site} : Visited p s → c ∈ s.children → Visited p c

/-! ## What holds at every site -/

/-- The scopes that are open have these origins. -/
inductive Describes : List ScopeOrigin → List (List String) → Prop where
  | top : Describes [] []
  | scope {o : ScopeOrigin} {names : List String} {os : List ScopeOrigin}
      {scopes : List (List String)} :
      names ⊆ o.names → (o.hasBody = false → names = o.names) → Describes os scopes →
      Describes (o :: os) (names :: scopes)

/-- The scope of a superclass holds nothing but the scope of a receiver, and no body declares a name
that is bound in such scopes. -/
inductive Nested : List ScopeOrigin → Prop where
  | top : Nested []
  | body {o : ScopeOrigin} {os : List ScopeOrigin} :
      o.hasBody = true → (∀ x ∈ o.names, Plain x) → Nested os → Nested (o :: os)
  | plain {os : List ScopeOrigin} : Nested os → Nested (.receiver :: os)
  | derived {os : List ScopeOrigin} : Nested os → Nested (.receiver :: .superclass :: os)

/-- What a node declares is declared in the scope that it stands in. -/
def Node.FitsIn (os : List ScopeOrigin) : Node → Prop
  | .stmt s => (s.isFunction = true → os = []) ∧
      ∀ o ∈ os.head?, ∀ x ∈ s.introduced?, x.name ∈ o.introduced
  | .body ss => ∃ o ∈ os.head?, ∀ s ∈ ss, ∀ x ∈ s.introduced?, x.name ∈ o.introduced
  | .top _ => os = []
  | _ => True

/-- Whether the node is not part of an expression. -/
def Node.isStatement : Node → Bool
  | .stmt _ | .body _ | .methods _ | .top _ => true
  | _ => false

structure Site.Proper (s : Site) : Prop where
  regular : Regular s.node
  noError : s.state.errors = []
  quiet : (s.node.after s.state).errors = []
  describes : Describes s.origins s.state.scopes
  nested : Nested s.origins
  receiver : s.state.classContext ≠ .outside → .receiver ∈ s.origins
  superclass : s.state.classContext = .derived → .superclass ∈ s.origins
  plain : ∀ x, s.state.pending = some x → Plain x
  settled : s.node.isStatement = true → s.state.pending = none
  fits : s.node.FitsIn s.origins

section Declaring
variable (r : Scoping) (x : String)

@[simp] theorem Scoping.errors_declaring : (r.declaring x).errors = r.errors := by
  unfold declaring
  split <;> rfl

@[simp] theorem Scoping.classContext_declaring :
    (r.declaring x).classContext = r.classContext := by
  unfold declaring
  split <;> rfl

@[simp] theorem Scoping.pending_declaring : (r.declaring x).pending = r.pending := by
  unfold declaring
  split <;> rfl

@[simp] theorem Scoping.inFunction_declaring : (r.declaring x).inFunction = r.inFunction := by
  unfold declaring
  split <;> rfl

@[simp] theorem Scoping.loopDepth_declaring : (r.declaring x).loopDepth = r.loopDepth := by
  unfold declaring
  split <;> rfl

end Declaring

theorem Describes.length_eq {os : List ScopeOrigin} {scopes : List (List String)}
    (h : Describes os scopes) : os.length = scopes.length := by
  induction h with
  | top => rfl
  | scope _ _ _ ih => simp [ih]

theorem Describes.nil {os : List ScopeOrigin} {scopes : List (List String)} (h : Describes os scopes)
    (hos : os = []) : scopes = [] := by
  subst hos
  cases h
  rfl

theorem Describes.declaring {os : List ScopeOrigin} {r : Scoping} {x : String}
    (h : Describes os r.scopes) (hx : ∀ o ∈ os.head?, x ∈ o.introduced) :
    Describes os (r.declaring x).scopes := by
  cases hscopes : r.scopes with
  | nil =>
    rw [hscopes] at h
    cases h
    rw [Scoping.declaring, hscopes]
    simp only [hscopes]
    exact .top
  | cons scope outer =>
    rw [hscopes] at h
    cases h with
    | @scope o _ _ _ hnames hspecial houter =>
      have hmem : x ∈ o.introduced := hx o rfl
      simp only [Scoping.declaring, hscopes]
      refine .scope ?_ ?_ houter
      · exact List.cons_subset.2 ⟨List.mem_append_right _ hmem, hnames⟩
      · intro hbody
        cases o <;> simp [ScopeOrigin.introduced, ScopeOrigin.hasBody] at hmem hbody

theorem Regular.grows {node : Node} (h : Regular node) (r : Scoping) : r.Grows (node.after r) := by
  have heffect := h.effect r
  cases node with
  | stmt => exact heffect.1
  | body | top => exact heffect
  | expr | arguments | function | methods => exact Keeps.grows heffect

/-! ## Declarations without an error -/

section Quiet
variable {r : Scoping} {name : Ident} {decls : List FunDecl}

theorem reporting_ne_nil (r : Scoping) (error : ResolveError) : (r.reporting error).errors ≠ [] := by
  simp [reporting]

/-- An initializer is resolved where its variable is declared and pending. -/
theorem var_quiet {value : Expr} (hvalue : Regular (.expr value))
    (hquiet : ((Stmt.var name (some value)).resolve.after r).errors = []) :
    (declare name).after r = r.declaring name.name ∧
      (value.resolve.after ((r.declaring name.name).awaiting name.name)).errors = [] ∧
      (Stmt.var name (some value)).resolve.after r = r.declaring name.name ∧
      (Stmt.var name (some value)).resolve.outcome r =
        .var name (some (value.resolve.outcome ((r.declaring name.name).awaiting name.name))) := by
  have hkeeps (r : Scoping) : (r.awaiting name.name).Keeps
      (value.resolve.after (r.awaiting name.name)) := hvalue.effect _
  rw [Stmt.resolve, after_bind, after_get_bind, after_ite] at hquiet
  split at hquiet
  · have hreport := ((hkeeps _).initialized.grows).errors_nil hquiet
    exact absurd hreport (reporting_ne_nil _ _)
  · rename_i hself
    have hdeclare : (declare name).after r = r.declaring name.name :=
      (declare_quiet r ((hkeeps _).initialized.grows.errors_nil hquiet)).1
    rw [Stmt.resolve, after_bind, after_get_bind, after_ite, outcome_bind, outcome_get_bind,
      outcome_ite, if_neg hself, if_neg hself, hdeclare]
    rw [hdeclare] at hquiet
    have hinit := (hkeeps (r.declaring name.name)).eq hquiet
    refine ⟨rfl, hquiet, ?_, rfl⟩
    simp only [after_bind, after_initializing, after_pure, hinit]
    rfl

theorem class_quiet (hdecls : Regular (.methods decls))
    (hquiet : ((Stmt.classDecl name none decls).resolve.after r).errors = []) :
    (declare name).after r = r.declaring name.name ∧
      ((resolveMethods decls).after
        (((r.declaring name.name).within .plain).enter ["this"])).errors = [] ∧
      (Stmt.classDecl name none decls).resolve.after r = r.declaring name.name ∧
      (Stmt.classDecl name none decls).resolve.outcome r = .classDecl name none
        ((resolveMethods decls).outcome (((r.declaring name.name).within .plain).enter ["this"])) := by
  have hkeeps (r : Scoping) : ((r.within .plain).enter ["this"]).Keeps
      ((resolveMethods decls).after ((r.within .plain).enter ["this"])) := hdecls.effect _
  have hdeclare : (declare name).after r = r.declaring name.name :=
    (declare_quiet r ((hkeeps _).grows.exit.exitClass.grows.errors_nil hquiet)).1
  rw [Stmt.resolve, after_bind, hdeclare] at hquiet
  have hmethods := (hkeeps (r.declaring name.name)).eq hquiet
  rw [Stmt.resolve, after_bind, outcome_bind, hdeclare]
  refine ⟨rfl, hquiet, ?_, rfl⟩
  simp only [after_bind, after_inClass, after_inScope, after_pure, hmethods]
  rfl

theorem subclass_quiet {parent : Ident} {slot : Slot} (hdecls : Regular (.methods decls))
    (hquiet : ((Stmt.classDecl name (some (parent, slot)) decls).resolve.after r).errors = []) :
    parent.name ≠ name.name ∧ (declare name).after r = r.declaring name.name ∧
      ((resolveMethods decls).after
        ((((r.declaring name.name).within .derived).enter ["super"]).enter ["this"])).errors = [] ∧
      (Stmt.classDecl name (some (parent, slot)) decls).resolve.after r = r.declaring name.name ∧
      (Stmt.classDecl name (some (parent, slot)) decls).resolve.outcome r = .classDecl name
        (some (parent, some ((r.declaring name.name).binding parent.name)))
        ((resolveMethods decls).outcome
          ((((r.declaring name.name).within .derived).enter ["super"]).enter ["this"])) := by
  have hkeeps (r : Scoping) : (((r.within .derived).enter ["super"]).enter ["this"]).Keeps
      ((resolveMethods decls).after (((r.within .derived).enter ["super"]).enter ["this"])) :=
    hdecls.effect _
  have hgrows (r : Scoping) := ((hkeeps r).grows.exit.grows.exit.exitClass).grows
  rw [Stmt.resolve, after_bind, after_ite] at hquiet
  split at hquiet
  · exact absurd ((hgrows _).errors_nil hquiet) (reporting_ne_nil _ _)
  · rename_i hself
    have hdeclare : (declare name).after r = r.declaring name.name :=
      (declare_quiet r ((hgrows _).errors_nil hquiet)).1
    rw [hdeclare] at hquiet
    have hmethods := (hkeeps (r.declaring name.name)).eq hquiet
    rw [Stmt.resolve, after_bind, after_ite, outcome_bind, outcome_ite, if_neg hself, if_neg hself,
      hdeclare]
    refine ⟨hself, rfl, hquiet, ?_, rfl⟩
    simp only [after_bind, after_bindingOf, after_inClass, after_inScope, after_pure, hmethods]
    rfl

/-- The functions of a block are declared. -/
def blockState (body : List Stmt) (r : Scoping) : Scoping :=
  { r with scopes := (functionNames body).reverse :: r.scopes }

/-- The parameters and the functions in the body of a function are declared. -/
def functionState (params : List Ident) (body : List Stmt) (r : Scoping) : Scoping :=
  { r.enterFunction with
    scopes := ((functionNames body).reverse ++ (params.map Ident.name).reverse) :: r.scopes }

theorem block_quiet {body : List Stmt} (hbody : Regular (.body body))
    (hquiet : ((Stmt.block body).resolve.after r).errors = []) :
    (declareFunctions body).after (r.enter []) = blockState body r ∧
      ((resolveBody body).after (blockState body r)).errors = [] ∧
      (Stmt.block body).resolve.outcome r =
        .block ((resolveBody body).outcome (blockState body r)) := by
  have hgrows (r : Scoping) : r.Grows ((resolveBody body).after r) := hbody.effect r
  have hquiet' : ((resolveBody body).after
      ((declareFunctions body).after (r.enter []))).errors = [] := hquiet
  have hdeclare : (declareFunctions body).after (r.enter []) = blockState body r := by
    rw [declareFunctions_quiet _ rfl ((hgrows _).errors_nil hquiet'), List.append_nil]
    rfl
  rw [hdeclare] at hquiet'
  refine ⟨hdeclare, hquiet', ?_⟩
  rw [← hdeclare]
  rfl

theorem function_quiet {name : Option Ident} {params : List Ident} {body : List Stmt} {line : Nat}
    (hbody : Regular (.body body))
    (hquiet : ((FunDecl.resolve ⟨name, params, body, line⟩).after r).errors = []) :
    (declareFunctions body).after ((declareAll params).after r.enterFunction) =
        functionState params body r ∧
      ((resolveBody body).after (functionState params body r)).errors = [] ∧
      (FunDecl.resolve ⟨name, params, body, line⟩).outcome r =
        ⟨name, params, (resolveBody body).outcome (functionState params body r), line⟩ := by
  have hgrows (r : Scoping) : r.Grows ((resolveBody body).after r) := hbody.effect r
  have hquiet' : ((resolveBody body).after ((declareFunctions body).after
      ((declareAll params).after r.enterFunction))).errors = [] := hquiet
  have hfunctions := (hgrows _).errors_nil hquiet'
  have hparams := declareAll_quiet r.enterFunction rfl
    ((grows_declareFunctions _ body).errors_nil hfunctions)
  have hdeclare : (declareFunctions body).after ((declareAll params).after r.enterFunction) =
      functionState params body r := by
    rw [declareFunctions_quiet _ (by rw [hparams]) hfunctions, hparams, List.append_nil]
    rfl
  rw [hdeclare] at hquiet'
  refine ⟨hdeclare, hquiet', ?_⟩
  rw [← hdeclare]
  rfl

end Quiet

namespace Site.Proper

variable {os : List ScopeOrigin} {r : Scoping} {node node' : Node}

/-- Another node at the same place. -/
theorem same (h : Proper ⟨os, r, node⟩) (hregular : Regular node')
    (hquiet : (node'.after r).errors = []) (hsettled : node'.isStatement = true → r.pending = none)
    (hfits : node'.FitsIn os) : Proper ⟨os, r, node'⟩ :=
  ⟨hregular, h.noError, hquiet, h.describes, h.nested, h.receiver, h.superclass, h.plain, hsettled,
    hfits⟩

theorem expr (h : Proper ⟨os, r, node⟩) {e : Expr} (hregular : Regular (.expr e))
    (hquiet : (e.resolve.after r).errors = []) : Proper ⟨os, r, .expr e⟩ :=
  h.same hregular hquiet (by simp [Node.isStatement]) trivial

/-- Two parts one after the other, of which the first changes nothing but the errors. -/
theorem pair (h : Proper ⟨os, r, node⟩) {first second : Node} (hfirst : Regular first)
    (hsecond : Regular second) (hkeeps : r.Keeps (first.after r))
    (hquiet : (second.after (first.after r)).errors = [])
    (hsettled : first.isStatement = true ∨ second.isStatement = true → r.pending = none)
    (hfits : first.FitsIn os ∧ second.FitsIn os) :
    Proper ⟨os, r, first⟩ ∧ Proper ⟨os, first.after r, second⟩ := by
  have hnone := (hsecond.grows _).errors_nil hquiet
  have heq := hkeeps.eq hnone
  refine ⟨h.same hfirst hnone (fun hs => hsettled (.inl hs)) hfits.1, ?_⟩
  rw [heq] at hquiet ⊢
  exact h.same hsecond hquiet (fun hs => hsettled (.inr hs)) hfits.2

theorem parts (h : Proper ⟨os, r, node⟩) {first second : Node} (hfirst : Regular first)
    (hsecond : Regular second) (hkeeps : r.Keeps (first.after r))
    (hquiet : (second.after (first.after r)).errors = [])
    (hparts : first.isStatement = false ∧ second.isStatement = false) :
    Proper ⟨os, r, first⟩ ∧ Proper ⟨os, first.after r, second⟩ := by
  have hfits {node : Node} (hnode : node.isStatement = false) : node.FitsIn os := by
    cases node with
    | stmt | body | methods | top => cases hnode
    | _ => trivial
  refine h.pair hfirst hsecond hkeeps hquiet ?_ ⟨hfits hparts.1, hfits hparts.2⟩
  simp [hparts]

/-- A statement declares the name of its variable or class, and nothing else. -/
theorem after_stmt {s : Stmt} (h : Proper ⟨os, r, .stmt s⟩) :
    s.resolve.after r = (s.introduced?.map Ident.name).elim r (r.declaring ·) := by
  have hregular : Regular (.stmt s) := h.regular
  have hquiet : (s.resolve.after r).errors = [] := h.quiet
  by_cases hs : s.isDeclaration = false
  · rw [(Stmt.of_not_declaration hs).2]
    exact ((hregular.effect r).2 hs).eq hquiet
  · cases hregular with
    | var => exact (declare_quiet r hquiet).1
    | varWith _ hvalue => exact (var_quiet hvalue hquiet).2.2.1
    | functionDecl _ hdecl =>
      have hdeclare := declareAll_top r ‹FunDecl›.name.toList (h.describes.nil (h.fits.1 rfl))
      rw [Stmt.resolve, after_bind, hdeclare] at hquiet ⊢
      exact Keeps.eq (hdecl.effect r) hquiet
    | classDecl _ hdecls => exact (class_quiet hdecls hquiet).2.2.1
    | subclassDecl parent _ _ hdecls => exact (subclass_quiet hdecls hquiet).2.2.2.1
    | _ => exact absurd rfl hs

/-- Another node in the same scopes, after a declaration in the innermost one. -/
theorem declared (h : Proper ⟨os, r, node⟩) {x : String} (hx : ∀ o ∈ os.head?, x ∈ o.introduced)
    (hregular : Regular node') (hquiet : (node'.after (r.declaring x)).errors = [])
    (hsettled : node'.isStatement = true → r.pending = none) (hfits : node'.FitsIn os) :
    Proper ⟨os, r.declaring x, node'⟩ where
  regular := hregular
  noError := by simpa using h.noError
  quiet := hquiet
  describes := h.describes.declaring hx
  nested := h.nested
  receiver := by simpa using h.receiver
  superclass := by simpa using h.superclass
  plain := by simpa using h.plain
  settled := by simpa using hsettled
  fits := hfits

theorem describes_block (h : Describes os r.scopes) (body : List Stmt) :
    Describes (.block body :: os) (blockState body r).scopes := by
  refine .scope ?_ (by simp [ScopeOrigin.hasBody]) h
  intro x hx
  exact List.mem_append_left _ (List.mem_reverse.1 hx)

theorem describes_function (h : Describes os r.scopes) (params : List Ident) (body : List Stmt) :
    Describes (.function params body :: os) (functionState params body r).scopes := by
  refine .scope ?_ (by simp [ScopeOrigin.hasBody]) h
  intro x hx
  refine List.mem_append_left _ ?_
  simp only [List.mem_append, List.mem_reverse] at hx
  exact List.mem_append.2 hx.symm

theorem plain_variable {s : Stmt} (h : Regular (.stmt s)) {x : Ident} (hx : s.introduced? = some x) :
    Plain x.name := by
  cases h with
  | var hname | varWith hname | classDecl hname | subclassDecl _ hname =>
    obtain rfl := Option.some.inj hx
    exact hname
  | _ => cases hx

theorem plain_names {body : List Stmt} (h : Regular (.body body)) :
    (∀ x ∈ functionNames body, Plain x) ∧ ∀ x ∈ introducedNames body, Plain x := by
  induction body with
  | nil => simp [functionNames, introducedNames]
  | cons s rest ih =>
    cases h with
    | @bodyFunction decl _ hname _ hrest =>
      refine ⟨?_, (ih hrest).2⟩
      intro x hx
      rcases List.mem_append.1 hx with hx | hx
      · obtain ⟨name, hmem, rfl⟩ := List.mem_map.1 hx
        exact hname name (Option.mem_toList.1 hmem)
      · exact (ih hrest).1 x hx
    | bodyStmt hfunction hs hrest =>
      refine ⟨?_, ?_⟩
      · rw [functionNames_cons hfunction]
        exact (ih hrest).1
      · intro x hx
        rcases List.mem_filterMap.1 hx with ⟨s', hmem, hs'⟩
        obtain ⟨name, hname, rfl⟩ := Option.map_eq_some_iff.1 hs'
        rcases List.mem_cons.1 hmem with rfl | hmem
        · exact plain_variable hs hname
        · exact (ih hrest).2 _ (List.mem_filterMap.2 ⟨s', hmem, by rw [hname]; rfl⟩)

theorem fits_body (o : ScopeOrigin) (os : List ScopeOrigin) {body : List Stmt}
    (ho : o.introduced = introducedNames body) : (Node.body body).FitsIn (o :: os) := by
  refine ⟨o, rfl, fun s hs x hx => ?_⟩
  rw [ho]
  exact List.mem_filterMap.2 ⟨s, hs, by simp [Option.mem_def.1 hx]⟩

/-- The node after a statement in the same scopes. -/
theorem next {s : Stmt} (h : Proper ⟨os, r, .stmt s⟩) (hregular : Regular node')
    (hquiet : (node'.after (s.resolve.after r)).errors = [])
    (hsettled : node'.isStatement = true → r.pending = none) (hfits : node'.FitsIn os) :
    Proper ⟨os, s.resolve.after r, node'⟩ := by
  rw [h.after_stmt] at hquiet ⊢
  cases hs : s.introduced? with
  | none =>
    rw [hs] at hquiet
    exact h.same hregular hquiet hsettled hfits
  | some x =>
    rw [hs] at hquiet
    exact h.declared (fun o ho => h.fits.2 o ho x hs) hregular hquiet hsettled hfits

/-- A branch of a conditional or the body of a loop declares nothing. -/
theorem branch_fits (os : List ScopeOrigin) {s : Stmt} (hs : s.isDeclaration = false) :
    (Node.stmt s).FitsIn os := by
  obtain ⟨hfunction, hvariable⟩ := Stmt.of_not_declaration hs
  simp [Node.FitsIn, hfunction, hvariable]

theorem child {c : Site} (h : Proper ⟨os, r, node⟩) (hc : c ∈ (⟨os, r, node⟩ : Site).children) :
    Proper c := by
  have hregular : Regular node := h.regular
  have hquiet : (node.after r).errors = [] := h.quiet
  cases hregular with
  | literal | «variable» | this | super | noArgument | var | ret | brk | noStatement | noMethod
  | noTop => exact absurd hc List.not_mem_nil
  | group he | unary _ _ he | get _ he | assign _ _ he | expression he | print he =>
    obtain rfl := List.mem_singleton.1 hc
    exact h.expr he hquiet
  | binary _ _ hfirst hsecond | logical _ _ hfirst hsecond | call _ hfirst hsecond
  | set _ hsecond hfirst | argument hfirst hsecond =>
    have hparts := h.parts hfirst hsecond (hfirst.effect r) hquiet ⟨rfl, rfl⟩
    rcases List.mem_cons.1 hc with rfl | hc
    · exact hparts.1
    · obtain rfl := List.mem_singleton.1 hc
      exact hparts.2
  | lambda hdecl =>
    obtain rfl := List.mem_singleton.1 hc
    exact h.same hdecl hquiet (by simp [Node.isStatement]) trivial
  | @varWith name value hname hvalue =>
    obtain ⟨hdeclare, hquiet', -⟩ := var_quiet hvalue hquiet
    obtain rfl := List.mem_singleton.1 hc
    rw [hdeclare]
    refine ⟨hvalue, by simpa [awaiting] using h.noError, hquiet', ?_, h.nested, ?_, ?_, ?_, ?_, trivial⟩
    · exact h.describes.declaring fun o ho => h.fits.2 o ho name rfl
    · simpa [awaiting] using h.receiver
    · simpa [awaiting] using h.superclass
    · rintro x hx
      obtain rfl := Option.some.inj hx
      exact hname
    · simp [Node.isStatement]
  | @retWith value line hvalue =>
    obtain rfl := List.mem_singleton.1 hc
    refine h.expr hvalue ?_
    change ((Stmt.ret line (some value)).resolve.after r).errors = [] at hquiet
    rw [Stmt.resolve, after_get_bind, after_ite] at hquiet
    split at hquiet
    · exact absurd ((hvalue.grows _).errors_nil hquiet) (reporting_ne_nil _ _)
    · exact hquiet
  | @block body hbody =>
    obtain ⟨hdeclare, hquiet', -⟩ := block_quiet hbody hquiet
    obtain rfl := List.mem_singleton.1 hc
    rw [hdeclare]
    have hnames : ∀ x ∈ (ScopeOrigin.block body).names, Plain x :=
      List.forall_mem_append.2 (plain_names hbody)
    refine ⟨hbody, h.noError, hquiet', describes_block h.describes body, .body rfl hnames h.nested,
      ?_, ?_, h.plain, fun _ => h.settled rfl, fits_body _ _ rfl⟩
    · exact fun hcontext => List.mem_cons_of_mem _ (h.receiver hcontext)
    · exact fun hcontext => List.mem_cons_of_mem _ (h.superclass hcontext)
  | cond hcondition hthen hdeclares =>
    have hbranch := branch_fits os hdeclares
    have hparts := h.pair hcondition hthen (hcondition.effect r) hquiet (fun _ => h.settled rfl)
      ⟨trivial, hbranch⟩
    rcases List.mem_cons.1 hc with rfl | hc
    · exact hparts.1
    · obtain rfl := List.mem_singleton.1 hc
      exact hparts.2
  | condElse hcondition hthen hdeclares helse hdeclares' =>
    have hthenQuiet := (helse.grows _).errors_nil hquiet
    obtain ⟨hfirst, hsecond⟩ := h.pair hcondition hthen (hcondition.effect r) hthenQuiet
      (fun _ => h.settled rfl) ⟨trivial, branch_fits os hdeclares⟩
    rcases List.mem_cons.1 hc with rfl | hc
    · exact hfirst
    rcases List.mem_cons.1 hc with rfl | hc
    · exact hsecond
    · obtain rfl := List.mem_singleton.1 hc
      exact (hsecond.pair hthen helse ((hthen.effect _).2 hdeclares) hquiet
        (fun _ => hsecond.settled rfl) ⟨branch_fits os hdeclares, branch_fits os hdeclares'⟩).2
  | @loop condition body hcondition hbody hdeclares =>
    have hbodyQuiet : (body.resolve.after (condition.resolve.after r).enterLoop).errors = [] := hquiet
    have hnone : (condition.resolve.after r).errors = [] :=
      (hbody.grows (condition.resolve.after r).enterLoop).errors_nil hbodyQuiet
    have heq : condition.resolve.after r = r := Keeps.eq (hcondition.effect r) hnone
    rcases List.mem_cons.1 hc with rfl | hc
    · exact h.expr hcondition hnone
    · obtain rfl := List.mem_singleton.1 hc
      rw [heq] at hbodyQuiet ⊢
      exact ⟨hbody, h.noError, hbodyQuiet, h.describes, h.nested, h.receiver, h.superclass, h.plain,
        fun _ => h.settled rfl, branch_fits os hdeclares⟩
  | @functionDecl decl _ hdecl =>
    have hdeclare := declareAll_top r decl.name.toList (h.describes.nil (h.fits.1 rfl))
    obtain rfl := List.mem_singleton.1 hc
    change ((Stmt.function decl).resolve.after r).errors = [] at hquiet
    rw [Stmt.resolve, after_bind, hdeclare] at hquiet
    rw [hdeclare]
    exact h.same hdecl hquiet (by simp [Node.isStatement]) trivial
  | @classDecl name decls hname hdecls =>
    obtain ⟨hdeclare, hquiet', -⟩ := class_quiet hdecls hquiet
    have hdeclared := h.describes.declaring fun o ho => h.fits.2 o ho name rfl
    obtain rfl := List.mem_singleton.1 hc
    rw [hdeclare]
    refine ⟨hdecls, by simpa [enter, within] using h.noError, hquiet', ?_, .plain h.nested, ?_, ?_,
      ?_, ?_, trivial⟩
    · exact .scope (List.Subset.refl _) (fun _ => rfl) hdeclared
    · exact fun _ => List.mem_cons_self
    · exact fun hcontext => by cases hcontext
    · simpa [enter, within] using h.plain
    · simpa [enter, within] using fun _ => h.settled rfl
  | @subclassDecl name decls parent hname hparent hdecls =>
    obtain ⟨parent, slot⟩ := parent
    obtain ⟨-, hdeclare, hquiet', -⟩ := subclass_quiet hdecls hquiet
    have hdeclared := h.describes.declaring fun o ho => h.fits.2 o ho name rfl
    rcases List.mem_cons.1 hc with rfl | hc
    · exact h.expr (.variable slot hparent) h.noError
    · obtain rfl := List.mem_singleton.1 hc
      rw [hdeclare]
      refine ⟨hdecls, by simpa [enter, within] using h.noError, hquiet', ?_, .derived h.nested,
        ?_, ?_, ?_, ?_, trivial⟩
      · exact .scope (List.Subset.refl _) (fun _ => rfl)
          (.scope (List.Subset.refl _) (fun _ => rfl) hdeclared)
      · exact fun _ => List.mem_cons_self
      · exact fun _ => List.mem_cons_of_mem _ List.mem_cons_self
      · simpa [enter, within] using h.plain
      · simpa [enter, within] using fun _ => h.settled rfl
  | bodyFunction _ hdecl hrest =>
    obtain ⟨o, ho, hintroduced⟩ := h.fits
    have hparts := h.pair hdecl hrest (hdecl.effect r) hquiet (fun _ => h.settled rfl)
      ⟨trivial, o, ho, fun s hs => hintroduced s (List.mem_cons_of_mem _ hs)⟩
    rcases List.mem_cons.1 hc with rfl | hc
    · exact hparts.1
    · obtain rfl := List.mem_singleton.1 hc
      exact hparts.2
  | @bodyStmt s rest hfunction hs hrest =>
    obtain ⟨o, ho, hintroduced⟩ := h.fits
    change ((resolveBody (s :: rest)).after r).errors = [] at hquiet
    rw [resolveBody_cons hfunction] at hquiet
    rw [children_body os r hfunction] at hc
    have hfits : (Node.stmt s).FitsIn os := by
      refine ⟨by simp [hfunction], fun o' ho' x hx => ?_⟩
      obtain rfl := Option.some.inj (ho.symm.trans ho')
      exact hintroduced s List.mem_cons_self x hx
    have hstmt : Proper ⟨os, r, .stmt s⟩ :=
      h.same hs ((hrest.grows _).errors_nil hquiet) (fun _ => h.settled rfl) hfits
    have hfits' : (Node.body rest).FitsIn os :=
      ⟨o, ho, fun s hs => hintroduced s (List.mem_cons_of_mem _ hs)⟩
    rcases List.mem_cons.1 hc with rfl | hc
    · exact hstmt
    · obtain rfl := List.mem_singleton.1 hc
      exact hstmt.next hrest hquiet (fun _ => h.settled rfl) hfits'
  | @code params body name line hparams hbody =>
    obtain ⟨hdeclare, hquiet', -⟩ := function_quiet hbody hquiet
    obtain rfl := List.mem_singleton.1 hc
    rw [hdeclare]
    have hnames : ∀ x ∈ (ScopeOrigin.function params body).names, Plain x := by
      refine List.forall_mem_append.2 ⟨List.forall_mem_append.2 ⟨?_, (plain_names hbody).1⟩,
        (plain_names hbody).2⟩
      exact List.forall_mem_map.2 hparams
    refine ⟨hbody, h.noError, hquiet', describes_function h.describes params body,
      .body rfl hnames h.nested, ?_, ?_, ?_, fun _ => rfl, fits_body _ _ rfl⟩
    · exact fun hcontext => List.mem_cons_of_mem _ (h.receiver hcontext)
    · exact fun hcontext => List.mem_cons_of_mem _ (h.superclass hcontext)
    · intro x hx
      cases hx
  | method hdecl hdecls =>
    have hparts := h.pair hdecl hdecls (hdecl.effect r) hquiet (fun _ => h.settled rfl)
      ⟨trivial, trivial⟩
    rcases List.mem_cons.1 hc with rfl | hc
    · exact hparts.1
    · obtain rfl := List.mem_singleton.1 hc
      exact hparts.2
  | topStmt hs hrest =>
    obtain rfl : os = [] := h.fits
    have hstmt : Proper ⟨[], r, .stmt _⟩ := h.same hs ((hrest.grows _).errors_nil hquiet)
      (fun _ => h.settled rfl) ⟨fun _ => rfl, by simp⟩
    rcases List.mem_cons.1 hc with rfl | hc
    · exact hstmt
    · obtain rfl := List.mem_singleton.1 hc
      exact hstmt.next hrest hquiet (fun _ => h.settled rfl) rfl

end Site.Proper

/-- The sites of a regular program without violations are proper. -/
theorem Visited.proper {p : Program} {s : Site} (hvisited : Visited p s) (hregular : Regular (.top p))
    (hquiet : ((resolveTop p).after .fresh).errors = []) : s.Proper := by
  induction hvisited with
  | top =>
    refine ⟨hregular, rfl, hquiet, .top, .top, fun h => absurd rfl h, ?_, ?_, fun _ => rfl, rfl⟩
    · intro hcontext
      cases hcontext
    · intro x hx
      cases hx
  | @child s c _ hc ih =>
    obtain ⟨os, r, node⟩ := s
    exact ih.child hc

end Lox
