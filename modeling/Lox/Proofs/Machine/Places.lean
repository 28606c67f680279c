import Lox.Proofs.Machine.Shapes

/-!
# Places in a running program

A place is a site of an accepted program together with the scopes in force there. The scopes in
force were made for those that are open at the site, and every name that is visible without
leaving the function is bound. Frames remember the places at which they go on, and how far a
completion that is not normal may travel.
-/

set_option autoImplicit false

namespace Lox

open Scoping ResolveM

structure Place where
  origins : List ScopeOrigin
  state : Scoping
  env : Env

/-- The scopes in force are those that are open at the place, and what is visible there within the
same function is bound. -/
structure Here (shapes : Shapes) (σ : Store) (p : Place) : Prop where
  fits : Fits shapes p.env p.origins
  bound : ∀ {d x}, (∀ o ∈ p.origins.take d, o.isFunction = false) → p.state.Shows d x →
    ∃ id ∈ p.env[d]?, σ.Binds id x

/-- Scopes and bindings have only been added. -/
structure Extends (shapes : Shapes) (σ : Store) (shapes' : Shapes) (σ' : Store) : Prop where
  shapes : shapes <+: shapes'
  grows : σ.Grows σ'

namespace Extends

variable {shapes shapes' shapes'' : Shapes} {σ σ' σ'' : Store}

theorem refl (shapes : Shapes) (σ : Store) : Extends shapes σ shapes σ :=
  ⟨List.prefix_refl _, .refl σ⟩

theorem trans (h : Extends shapes σ shapes' σ') (h' : Extends shapes' σ' shapes'' σ'') :
    Extends shapes σ shapes'' σ'' :=
  ⟨h.shapes.trans h'.shapes, h.grows.trans h'.grows⟩

theorem of_grows (h : σ.Grows σ') : Extends shapes σ shapes σ' :=
  ⟨List.prefix_refl _, h⟩

theorem here {p : Place} (h : Extends shapes σ shapes' σ') (hp : Here shapes σ p) :
    Here shapes' σ' p := by
  refine ⟨hp.fits.mono h.shapes, ?_⟩
  intro d x hinside hx
  obtain ⟨id, hid, hbinds⟩ := hp.bound hinside hx
  exact ⟨id, hid, h.grows id x hbinds⟩

end Extends

/-! ## Visibility after a declaration -/

namespace Scoping

variable {r : Scoping} {d : Nat} {x y : String}

theorem Shows.of_declaring (h : (r.declaring x).Shows d y) : (d = 0 ∧ y = x) ∨ r.Shows d y := by
  obtain ⟨⟨names, hnames, hmem⟩, hpending⟩ := h
  rw [pending_declaring] at hpending
  unfold declaring at hnames
  split at hnames
  · exact Or.inr ⟨⟨names, hnames, hmem⟩, hpending⟩
  · rename_i scope outer hscopes
    cases d with
    | zero =>
      obtain rfl := Option.some.inj hnames
      rcases List.mem_cons.1 hmem with rfl | hmem
      · exact Or.inl ⟨rfl, rfl⟩
      · exact Or.inr ⟨⟨scope, by simp [hscopes], hmem⟩, hpending⟩
    | succ d => exact Or.inr ⟨⟨names, by simpa [hscopes] using hnames, hmem⟩, by simp⟩

/-- A variable is not visible to its own initializer. -/
theorem Shows.of_awaiting (h : ((r.declaring x).awaiting x).Shows d y) (hr : r.pending = none) :
    r.Shows d y := by
  have hdeclaring : (r.declaring x).Shows d y := by
    refine ⟨h.1, fun _ => ?_⟩
    rw [pending_declaring, hr]
    simp
  rcases hdeclaring.of_declaring with ⟨rfl, rfl⟩ | hr
  · exact absurd rfl (h.2 rfl)
  · exact hr

theorem Shows.awaiting_of_declaring (h : (r.declaring x).Shows d y) :
    (d = 0 ∧ y = x) ∨ ((r.declaring x).awaiting x).Shows d y := by
  by_cases heq : d = 0 ∧ y = x
  · exact Or.inl heq
  · refine Or.inr ⟨h.1, fun hd hpending => heq ⟨hd, ?_⟩⟩
    exact (Option.some.inj hpending).symm

end Scoping

namespace Here

variable {shapes : Shapes} {σ : Store} {os : List ScopeOrigin} {r r' : Scoping} {env : Env}

/-- What is visible in a place with other knowledge may be less. -/
theorem narrow (h : Here shapes σ ⟨os, r, env⟩)
    (hshows : ∀ {d x}, r'.Shows d x → r.Shows d x) : Here shapes σ ⟨os, r', env⟩ :=
  ⟨h.fits, fun hinside hx => h.bound hinside (hshows hx)⟩

/-- One more name is visible once it is bound in the innermost scope. -/
theorem declared {id : ScopeId} {x : String} (h : Here shapes σ ⟨os, r, env⟩)
    (hid : env[0]? = some id) (hx : σ.Binds id x)
    (hshows : ∀ {d y}, r'.Shows d y → (d = 0 ∧ y = x) ∨ r.Shows d y) :
    Here shapes σ ⟨os, r', env⟩ := by
  refine ⟨h.fits, ?_⟩
  intro d y hinside hy
  rcases hshows hy with ⟨rfl, rfl⟩ | hy
  · exact ⟨id, hid, hx⟩
  · exact h.bound hinside hy

/-- In a block, all that is visible outside it still is. -/
theorem block {body : List Stmt} {id : ScopeId} (h : Here shapes σ ⟨os, r, env⟩)
    (hr : r.pending = none) (hid : shapes.origin? id = some (.block body))
    (hdefinite : σ.Definite shapes) :
    Here shapes σ ⟨.block body :: os, blockState body r, id :: env⟩ := by
  refine ⟨.scope hid h.fits, ?_⟩
  intro d x hinside hx
  obtain ⟨⟨names, hnames, hmem⟩, -⟩ := hx
  cases d with
  | zero =>
    obtain rfl := Option.some.inj hnames
    exact ⟨id, rfl, hdefinite id _ x hid (List.mem_reverse.1 hmem)⟩
  | succ d =>
    apply h.bound
    · intro o ho
      exact hinside o (List.mem_cons_of_mem _ ho)
    · exact ⟨⟨names, hnames, hmem⟩, fun _ => by simp [hr]⟩

/-- In the body of a function, nothing need be bound but its parameters and functions. -/
theorem function {params : List Ident} {body : List Stmt} {id : ScopeId}
    (hfits : Fits shapes env os) (hid : shapes.origin? id = some (.function params body))
    (hdefinite : σ.Definite shapes) :
    Here shapes σ ⟨.function params body :: os, functionState params body r, id :: env⟩ := by
  refine ⟨.scope hid hfits, ?_⟩
  intro d x hinside hx
  obtain ⟨⟨names, hnames, hmem⟩, -⟩ := hx
  cases d with
  | zero =>
    obtain rfl := Option.some.inj hnames
    refine ⟨id, rfl, hdefinite id _ x hid ?_⟩
    simp only [List.mem_append, List.mem_reverse] at hmem
    exact List.mem_append.2 hmem.symm
  | succ d => exact absurd (hinside _ List.mem_cons_self) (by simp [ScopeOrigin.isFunction])

end Here

/-! ## Waiting frames -/

/-- What frames wait for: a value, or a completion of which it is said whether it may be that of a
`break` or of a `return`. -/
inductive Awaited where
  | value
  | completion (mayBreak mayReturn : Bool)

/-- The statements of a place may complete in all the ways that the resolver allows there. -/
def Allows (r : Scoping) (mayBreak mayReturn : Bool) : Prop :=
  (r.loopDepth ≠ 0 → mayBreak = true) ∧ (r.inFunction = true → mayReturn = true)

/-- The frames go on as the resolver expects with what they wait for, which is handed to them at
the place. -/
inductive Waits (C : Corpus) (shapes : Shapes) (σ : Store) :
    Place → Awaited → List Frame → Prop where
  | ended {r : Scoping} {env : Env} : env = World.topEnv → Waits C shapes σ ⟨[], r, env⟩ .value []
  | assign {os : List ScopeOrigin} {r : Scoping} {env : Env} {name : Ident} {value : Expr}
      {slot : Slot} {frames : List Frame} :
      KnownIn C ⟨os, r, .expr (.assign name value slot)⟩ →
      Waits C shapes σ ⟨os, r, env⟩ .value frames →
      Waits C shapes σ ⟨os, r, env⟩ .value (.assign name (some (r.binding name.name)) :: frames)
  | unary {p : Place} {frames : List Frame} (op : UnaryOp) (line : Nat) :
      Waits C shapes σ p .value frames → Waits C shapes σ p .value (.unary op line :: frames)
  | left {os : List ScopeOrigin} {r : Scoping} {env : Env} {right : Expr} {frames : List Frame}
      (op : BinaryOp) (line : Nat) :
      KnownIn C ⟨os, r, .expr right⟩ → Waits C shapes σ ⟨os, r, env⟩ .value frames →
      Waits C shapes σ ⟨os, r, env⟩ .value (.left op (right.resolve.outcome r) line :: frames)
  | right {p : Place} {frames : List Frame} (op : BinaryOp) (left : Value) (line : Nat) :
      Waits C shapes σ p .value frames → Waits C shapes σ p .value (.right op left line :: frames)
  | logical {os : List ScopeOrigin} {r : Scoping} {env : Env} {right : Expr} {frames : List Frame}
      (op : LogicalOp) :
      KnownIn C ⟨os, r, .expr right⟩ → Waits C shapes σ ⟨os, r, env⟩ .value frames →
      Waits C shapes σ ⟨os, r, env⟩ .value (.logical op (right.resolve.outcome r) :: frames)
  | callee {os : List ScopeOrigin} {r : Scoping} {env : Env} {arguments : List Expr}
      {frames : List Frame} (line : Nat) :
      KnownIn C ⟨os, r, .arguments arguments⟩ → Waits C shapes σ ⟨os, r, env⟩ .value frames →
      Waits C shapes σ ⟨os, r, env⟩ .value
        (.callee ((resolveArguments arguments).outcome r) line :: frames)
  | argument {os : List ScopeOrigin} {r : Scoping} {env : Env} {callee : Value}
      {before : List Value} {arguments : List Expr} {frames : List Frame} (line : Nat) :
      ValueFits C shapes callee → (∀ v ∈ before, ValueFits C shapes v) →
      KnownIn C ⟨os, r, .arguments arguments⟩ → Waits C shapes σ ⟨os, r, env⟩ .value frames →
      Waits C shapes σ ⟨os, r, env⟩ .value
        (.argument callee before ((resolveArguments arguments).outcome r) line :: frames)
  | get {p : Place} {frames : List Frame} (name : Ident) :
      Waits C shapes σ p .value frames → Waits C shapes σ p .value (.get name :: frames)
  | setTarget {os : List ScopeOrigin} {r : Scoping} {env : Env} {value : Expr} {frames : List Frame}
      (name : Ident) :
      KnownIn C ⟨os, r, .expr value⟩ → Waits C shapes σ ⟨os, r, env⟩ .value frames →
      Waits C shapes σ ⟨os, r, env⟩ .value (.setTarget name (value.resolve.outcome r) :: frames)
  | setField {p : Place} {frames : List Frame} (object : ObjectId) (name : Ident) :
      Waits C shapes σ p .value frames → Waits C shapes σ p .value (.setField object name :: frames)
  | discard {p : Place} {frames : List Frame} {b c : Bool} :
      Waits C shapes σ p (.completion b c) frames → Waits C shapes σ p .value (.discard :: frames)
  | print {p : Place} {frames : List Frame} {b c : Bool} :
      Waits C shapes σ p (.completion b c) frames → Waits C shapes σ p .value (.print :: frames)
  | define {os : List ScopeOrigin} {r : Scoping} {env : Env} {name : Ident} {value : Expr}
      {frames : List Frame} {b c : Bool} :
      KnownIn C ⟨os, r, .stmt (.var name (some value))⟩ →
      Waits C shapes σ ⟨os, r.declaring name.name, env⟩ (.completion b c) frames →
      Waits C shapes σ ⟨os, (r.declaring name.name).awaiting name.name, env⟩ .value
        (.define name :: frames)
  | branch {os : List ScopeOrigin} {r : Scoping} {env : Env} {frames : List Frame} {b c : Bool}
      (thenBranch : Stmt) (elseBranch : Option Stmt) :
      (∀ s, s = thenBranch ∨ s ∈ elseBranch →
        KnownIn C ⟨os, r, .stmt s⟩ ∧ s.isDeclaration = false) →
      Allows r b c → Waits C shapes σ ⟨os, r, env⟩ (.completion b c) frames →
      Waits C shapes σ ⟨os, r, env⟩ .value
        (.branch (thenBranch.resolve.outcome r) (elseBranch.map (·.resolve.outcome r)) :: frames)
  | test {os : List ScopeOrigin} {r : Scoping} {env : Env} {condition : Expr} {body : Stmt}
      {frames : List Frame} {b c : Bool} :
      KnownIn C ⟨os, r, .stmt (.loop condition body)⟩ → Allows r b c →
      Waits C shapes σ ⟨os, r, env⟩ (.completion b c) frames →
      Waits C shapes σ ⟨os, r, env⟩ .value
        (.test (condition.resolve.outcome r) (body.resolve.outcome r.enterLoop) :: frames)
  | again {os : List ScopeOrigin} {r : Scoping} {env : Env} {condition : Expr} {body : Stmt}
      {frames : List Frame} {b c : Bool} :
      KnownIn C ⟨os, r, .stmt (.loop condition body)⟩ → Allows r b c →
      Waits C shapes σ ⟨os, r, env⟩ (.completion b c) frames →
      Waits C shapes σ ⟨os, r.enterLoop, env⟩ (.completion true c)
        (.again (condition.resolve.outcome r) (body.resolve.outcome r.enterLoop) :: frames)
  | ret {p : Place} {frames : List Frame} {b : Bool} :
      Waits C shapes σ p (.completion b true) frames → Waits C shapes σ p .value (.ret :: frames)
  | inherit {os : List ScopeOrigin} {r : Scoping} {env : Env} {name parent : Ident} {slot : Slot}
      {decls : List FunDecl} {frames : List Frame} {b c : Bool} (line : Nat) :
      KnownIn C ⟨os, r, .stmt (.classDecl name (some (parent, slot)) decls)⟩ →
      Waits C shapes σ ⟨os, r.declaring name.name, env⟩ (.completion b c) frames →
      Waits C shapes σ ⟨os, r, env⟩ .value (.inherit name line ((resolveMethods decls).outcome
        ((((r.declaring name.name).within .derived).enter ["super"]).enter ["this"])) :: frames)
  /-- A body may be left at any of its statements. -/
  | sequence {os : List ScopeOrigin} {r : Scoping} {env : Env} {rest : List Stmt}
      {frames : List Frame} {b c : Bool} :
      KnownIn C ⟨os, r, .body rest⟩ → Allows r b c →
      (∀ r', Waits C shapes σ ⟨os, r', env⟩ (.completion b c) frames) →
      Waits C shapes σ ⟨os, r, env⟩ (.completion b c)
        (.sequence ((resolveBody rest).outcome r) :: frames)
  | restore {p q : Place} {frames : List Frame} {b c : Bool} :
      Here shapes σ q → Waits C shapes σ q (.completion b c) frames →
      Waits C shapes σ p (.completion b c) (.restore q.env :: frames)
  | finish {p : Place} {closure : Closure} {frames : List Frame} :
      FunctionFits C shapes closure → Waits C shapes σ p .value frames →
      Waits C shapes σ p (.completion false true) (.finish closure :: frames)
  | created {p : Place} {object : Value} {frames : List Frame} :
      ValueFits C shapes object → Waits C shapes σ p .value frames →
      Waits C shapes σ p .value (.created object :: frames)
  | leave {p : Place} {frames : List Frame} :
      Waits C shapes σ p .value frames → Waits C shapes σ p .value (.leave :: frames)
  | top {r : Scoping} {env : Env} {rest : List Stmt} (line : Nat) :
      env = World.topEnv → KnownIn C ⟨[], r, .top rest⟩ → Allows r false false →
      Waits C shapes σ ⟨[], r, env⟩ (.completion false false)
        [.top line ((resolveTop rest).outcome r)]
  /-- The last statement of a program has completed. -/
  | done {r : Scoping} {env : Env} :
      env = World.topEnv → Waits C shapes σ ⟨[], r, env⟩ (.completion false false) []

theorem Waits.mono {C : Corpus} {shapes shapes' : Shapes} {σ σ' : Store}
    (h : Extends shapes σ shapes' σ') {p : Place} {awaited : Awaited} {frames : List Frame}
    (hwaits : Waits C shapes σ p awaited frames) :
    Waits C shapes' σ' p awaited frames := by
  induction hwaits with
  | ended henv => exact .ended henv
  | done henv => exact .done henv
  | top line henv hknown hallows => exact .top line henv hknown hallows
  | assign hknown _ ih => exact .assign hknown ih
  | unary op line _ ih => exact .unary op line ih
  | left op line hknown _ ih => exact .left op line hknown ih
  | right op left line _ ih => exact .right op left line ih
  | logical op hknown _ ih => exact .logical op hknown ih
  | callee line hknown _ ih => exact .callee line hknown ih
  | argument line hcallee hbefore hknown _ ih =>
    exact .argument line (hcallee.mono h.shapes) (fun v hv => (hbefore v hv).mono h.shapes) hknown ih
  | get name _ ih => exact .get name ih
  | setTarget name hknown _ ih => exact .setTarget name hknown ih
  | setField object name _ ih => exact .setField object name ih
  | discard _ ih => exact .discard ih
  | print _ ih => exact .print ih
  | define hknown _ ih => exact .define hknown ih
  | branch _ _ hbranches hallows _ ih => exact .branch _ _ hbranches hallows ih
  | test hknown hallows _ ih => exact .test hknown hallows ih
  | again hknown hallows _ ih => exact .again hknown hallows ih
  | ret _ ih => exact .ret ih
  | inherit line hknown _ ih => exact .inherit line hknown ih
  | sequence hknown hallows _ ih => exact .sequence hknown hallows ih
  | restore hhere _ ih => exact .restore (h.here hhere) ih
  | finish hclosure _ ih => exact .finish (hclosure.mono h.shapes) ih
  | created hobject _ ih => exact .created (hobject.mono h.shapes) ih
  | leave _ ih => exact .leave ih

end Lox
