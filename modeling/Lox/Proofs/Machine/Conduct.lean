import Lox.Proofs.Machine.Basic

/-!
# What every step keeps to

A step never changes the limit on open calls and opens no call beyond it. It raises errors of a
running program only: those of the stages before a run do not arise in one. All three are said
at once, function by function, and then hold along every run.
-/

set_option autoImplicit false

namespace Lox

/-- Whether the error is one of the stages before a run. -/
def Error.isStatic : Error → Bool
  | .lex _ | .parse _ | .resolve _ | .batch _ => true
  | _ => false

/-- The computation does not fail with a static error. -/
def FailsInRun {α : Type} (result : Except Error α) : Prop :=
  ∀ e, result = .error e → e.isStatic = false

namespace FailsInRun
variable {α : Type}

theorem ok (a : α) : FailsInRun (.ok a) := by
  intro e he
  cases he

theorem error {e : Error} (h : e.isStatic = false) : FailsInRun (.error e : Except Error α) := by
  intro e' he'
  cases he'
  exact h

theorem get (σ : Store) (env : Env) (name : String) (line : Nat) :
    FailsInRun (σ.get env name line) := by
  induction env with
  | nil => exact error rfl
  | cons id outer ih =>
    unfold Store.get
    split
    · exact ok _
    · exact ih

theorem getAt (σ : Store) (env : Env) (distance : Nat) (name : String) (line : Nat) :
    FailsInRun (σ.getAt env distance name line) := by
  unfold Store.getAt
  split
  · exact error rfl
  split
  · exact ok _
  · exact error rfl

theorem assign (σ : Store) (env : Env) (name : String) (v : Value) (line : Nat) :
    FailsInRun (σ.assign env name v line).1 := by
  induction env with
  | nil => exact error rfl
  | cons id outer ih =>
    unfold Store.assign
    split
    · exact ok _
    · exact ih

theorem assignAt (σ : Store) (env : Env) (distance : Nat) (name : String) (v : Value)
    (line : Nat) : FailsInRun (σ.assignAt env distance name v line).1 := by
  unfold Store.assignAt
  split
  · exact error rfl
  split
  · exact ok _
  · exact error rfl

theorem read (w : World) (name : String) (line : Nat) (slot : Slot) :
    FailsInRun (w.read name line slot) := by
  unfold World.read
  split
  · apply getAt
  · apply get
  · exact error rfl

theorem assignSlot (w : World) (name : Ident) (v : Value) (slot : Slot) :
    FailsInRun (w.assign name v slot).1 := by
  unfold World.assign
  split
  · apply assignAt
  · apply assign
  · exact error rfl

theorem unary (op : UnaryOp) (v : Value) (line : Nat) : FailsInRun (op.apply v line) := by
  unfold UnaryOp.apply
  split
  · exact ok _
  · exact ok _
  · exact error rfl

theorem numbers (op : BinaryOp) (a b : Float) (line : Nat) :
    FailsInRun (op.applyNumbers a b line) := by
  cases op with
  | divide =>
    unfold BinaryOp.applyNumbers
    dsimp only
    split
    · exact error rfl
    · exact ok _
  | _ => exact ok _

theorem binary (op : BinaryOp) (a b : Value) (line : Nat) : FailsInRun (op.apply a b line) := by
  unfold BinaryOp.apply
  split
  · exact ok _
  · exact ok _
  · exact ok _
  · apply numbers
  · exact error rfl
  · exact error rfl

theorem functionResult (closure : Closure) (c : Completion) (w : World) :
    FailsInRun (Machine.functionResult closure c w) := by
  unfold Machine.functionResult
  split
  · apply getAt
  split
  · exact ok _
  · exact ok _
  · exact error rfl

theorem bind {β : Type} {result : Except Error α} {f : α → Except Error β}
    (h : FailsInRun result) (hf : ∀ a, FailsInRun (f a)) : FailsInRun (result >>= f) := by
  cases result with
  | ok a => exact hf a
  | error e => exact error (h e rfl)

theorem superParts (line : Nat) (slot : Slot) (w : World) :
    FailsInRun (Machine.superParts line slot w) := by
  unfold Machine.superParts
  split
  · apply (getAt _ _ _ _ _).bind
    intro v
    split
    · split
      · exact error rfl
      · apply (getAt _ _ _ _ _).bind
        intro v'
        split
        · exact ok _
        · exact error rfl
    · exact error rfl
  · exact error rfl

end FailsInRun

namespace World
variable (w : World)

@[simp] theorem maxDepth_defineFunction (decl : FunDecl) :
    (w.defineFunction decl).maxDepth = w.maxDepth := by
  unfold defineFunction
  split <;> rfl

@[simp] theorem maxDepth_defineFunctions (body : List Stmt) :
    (w.defineFunctions body).maxDepth = w.maxDepth := by
  fun_induction defineFunctions w body with
  | case1 => rfl
  | case2 w decl rest ih => rw [ih, maxDepth_defineFunction]
  | case3 w s rest _ ih => exact ih

@[simp] theorem maxDepth_assign (name : Ident) (v : Value) (slot : Slot) :
    (w.assign name v slot).2.maxDepth = w.maxDepth := by
  unfold assign
  split <;> rfl

end World

namespace Machine

/-- A focus that is not a static error. -/
def InRun : Focus → Prop
  | .failed e => e.isStatic = false
  | _ => True

/-- What the machine that a step leads to keeps of the world before the step. -/
structure Conducts (w : World) (m : Machine) : Prop where
  maxDepth : m.world.maxDepth = w.maxDepth
  depth : m.world.depth ≤ max w.depth w.maxDepth
  focus : InRun m.focus

section Functions
variable {w w' : World} {frames : List Frame}

theorem conducts_of_same {focus : Focus} (hmax : w'.maxDepth = w.maxDepth)
    (hdepth : w'.depth = w.depth) (hfocus : InRun focus) : Conducts w ⟨focus, frames, w'⟩ :=
  ⟨hmax, hdepth ▸ Nat.le_max_left _ _, hfocus⟩

theorem conducts_ofResult {result : Except Error Value} (h : FailsInRun result) :
    Conducts w (ofResult result frames w) := by
  cases result with
  | ok v => exact conducts_of_same rfl rfl trivial
  | error e => exact conducts_of_same rfl rfl (h e rfl)

theorem conducts_enterFunction (closure : Closure) (arguments : List Value) :
    Conducts w (enterFunction closure arguments frames w) := by
  apply conducts_of_same
  · exact World.maxDepth_defineFunctions _ _
  · exact World.depth_defineFunctions _ _
  · trivial

theorem conducts_callNative (native : Native) (arguments : List Value) (line : Nat) :
    Conducts w (callNative native arguments line frames w) := by
  unfold callNative
  split <;> exact conducts_of_same rfl rfl (by trivial)

theorem conducts_instantiate (cls : Class) (arguments : List Value) :
    Conducts w (instantiate cls arguments frames w) := by
  unfold instantiate
  dsimp only
  split
  · exact conducts_of_same rfl rfl trivial
  · rename_i initializer _
    generalize hbind : w.newObject.2.bind initializer (.object w.newObject.1 cls) = bound
    have hmax : bound.2.maxDepth = w.maxDepth := by rw [← hbind]; rfl
    have hdepth : bound.2.depth = w.depth := by rw [← hbind]; rfl
    have h := @conducts_enterFunction bound.2 (.created (.object w.newObject.1 cls) :: frames)
      bound.1 arguments
    exact ⟨h.maxDepth.trans hmax, hmax ▸ hdepth ▸ h.depth, h.focus⟩

theorem conducts_invoke (callee : Value) (arguments : List Value) (line : Nat) :
    Conducts w (invoke callee arguments line frames w) := by
  unfold invoke
  split
  · apply conducts_enterFunction
  · apply conducts_enterFunction
  · apply conducts_callNative
  · apply conducts_instantiate
  · exact conducts_of_same rfl rfl trivial

/-- A call is opened only if that leaves the number of open calls within the limit. -/
theorem conducts_call (callee : Value) (arguments : List Value) (line : Nat) :
    Conducts w (call callee arguments line frames w) := by
  unfold call
  split
  · exact conducts_of_same rfl rfl rfl
  split
  · exact conducts_of_same rfl rfl rfl
  split
  · exact conducts_of_same rfl rfl rfl
  · rename_i hroom
    have h := @conducts_invoke { w with depth := w.depth + 1 } (.leave :: frames) callee arguments
      line
    refine ⟨h.maxDepth, ?_, h.focus⟩
    have hdepth := h.depth
    simp only at hdepth
    omega

theorem conducts_makeClass (name : Ident) (superclass : Option Class) (methods : List FunDecl) :
    Conducts w (makeClass name superclass methods frames w) := by
  unfold makeClass
  cases superclass with
  | none =>
    dsimp only
    split
    · exact conducts_of_same rfl rfl trivial
    · rename_i e he
      exact conducts_of_same rfl rfl (FailsInRun.assign _ _ _ _ _ e he)
  | some parent =>
    dsimp only
    split
    · exact conducts_of_same rfl rfl trivial
    · rename_i e he
      exact conducts_of_same rfl rfl (FailsInRun.assign _ _ _ _ _ e he)

theorem conducts_getProperty (id : ObjectId) (cls : Class) (name : Ident) :
    Conducts w (getProperty id cls name frames w) := by
  unfold getProperty
  split
  · exact conducts_of_same rfl rfl trivial
  split
  · exact conducts_of_same rfl rfl trivial
  · exact conducts_of_same rfl rfl rfl

theorem conducts_evaluateSuper (line : Nat) (method : Ident) (slot : Slot) :
    Conducts w (evaluateSuper line method slot frames w) := by
  unfold evaluateSuper
  split
  · rename_i e he
    exact conducts_of_same rfl rfl (FailsInRun.superParts line slot w e he)
  split
  · exact conducts_of_same rfl rfl trivial
  · exact conducts_of_same rfl rfl rfl

theorem conducts_evaluate (e : Expr) : Conducts w (evaluate e frames w) := by
  cases e with
  | «variable» name slot => exact conducts_ofResult (.read w _ _ slot)
  | this line slot => exact conducts_ofResult (.read w _ _ slot)
  | super line method slot => apply conducts_evaluateSuper
  | _ => exact conducts_of_same rfl rfl trivial

theorem conducts_execute (s : Stmt) : Conducts w (execute s frames w) := by
  cases s with
  | var name initializer => cases initializer <;> exact conducts_of_same rfl rfl trivial
  | block body =>
    apply conducts_of_same
    · exact World.maxDepth_defineFunctions _ _
    · exact World.depth_defineFunctions _ _
    · trivial
  | function decl =>
    apply conducts_of_same
    · exact World.maxDepth_defineFunction _ _
    · exact World.depth_defineFunction _ _
    · trivial
  | ret line value => cases value <;> exact conducts_of_same rfl rfl trivial
  | classDecl name superclass methods =>
    cases superclass with
    | none => exact conducts_makeClass name none methods
    | some parent => exact conducts_of_same rfl rfl trivial
  | _ => exact conducts_of_same rfl rfl trivial

theorem conducts_passValue (v : Value) (frame : Frame) :
    Conducts w (passValue v frame frames w) := by
  cases frame with
  | assign name slot =>
    unfold passValue
    dsimp only
    split
    · exact conducts_of_same (w.maxDepth_assign _ _ _) (w.depth_assign _ _ _) trivial
    · rename_i e he
      exact conducts_of_same (w.maxDepth_assign _ _ _) (w.depth_assign _ _ _)
        (FailsInRun.assignSlot w name v slot e he)
  | unary op line => exact conducts_ofResult (.unary op v line)
  | right op left line => exact conducts_ofResult (.binary op left v line)
  | logical op right =>
    unfold passValue
    dsimp only
    split <;> exact conducts_of_same rfl rfl trivial
  | callee arguments line =>
    cases arguments with
    | nil => apply conducts_call
    | cons first rest => exact conducts_of_same rfl rfl trivial
  | argument callee before after line =>
    cases after with
    | nil => apply conducts_call
    | cons next rest => exact conducts_of_same rfl rfl trivial
  | get name =>
    cases v with
    | object id cls => apply conducts_getProperty
    | _ => exact conducts_of_same rfl rfl rfl
  | setTarget name value =>
    cases v with
    | object id cls => exact conducts_of_same rfl rfl trivial
    | _ => exact conducts_of_same rfl rfl rfl
  | print =>
    unfold passValue
    dsimp only
    split
    · exact conducts_of_same rfl rfl trivial
    · exact conducts_of_same rfl rfl rfl
  | branch thenBranch elseBranch =>
    unfold passValue
    dsimp only
    split
    · exact conducts_of_same rfl rfl trivial
    split <;> exact conducts_of_same rfl rfl trivial
  | test condition body =>
    unfold passValue
    dsimp only
    split <;> exact conducts_of_same rfl rfl trivial
  | inherit name line methods =>
    cases v with
    | classRef cls => exact conducts_makeClass name (some cls) methods
    | _ => exact conducts_of_same rfl rfl rfl
  | leave => exact ⟨rfl, Nat.le_trans (Nat.sub_le _ _) (Nat.le_max_left _ _), trivial⟩
  | _ => exact conducts_of_same rfl rfl trivial

theorem conducts_passCompletion (c : Completion) (frame : Frame) :
    Conducts w (passCompletion c frame frames w) := by
  cases frame with
  | sequence rest =>
    cases rest with
    | nil => cases c <;> exact conducts_of_same rfl rfl trivial
    | cons s rest =>
      cases c with
      | normal => cases s <;> exact conducts_of_same rfl rfl trivial
      | returned v => cases s <;> exact conducts_of_same rfl rfl trivial
      | broken => cases s <;> exact conducts_of_same rfl rfl trivial
  | again condition body => cases c <;> exact conducts_of_same rfl rfl trivial
  | finish closure => exact conducts_ofResult (.functionResult closure c w)
  | top line rest =>
    cases c with
    | normal => cases rest <;> exact conducts_of_same rfl rfl trivial
    | returned v => cases rest <;> exact conducts_of_same rfl rfl rfl
    | broken => cases rest <;> exact conducts_of_same rfl rfl rfl
  | _ => cases c <;> exact conducts_of_same rfl rfl trivial

theorem conducts_passError {e : Error} (he : e.isStatic = false) (frame : Frame) :
    Conducts w (passError e frame frames w) := by
  cases frame with
  | leave => exact ⟨rfl, Nat.le_trans (Nat.sub_le _ _) (Nat.le_max_left _ _), he⟩
  | top line rest => exact ⟨rfl, Nat.zero_le _, he⟩
  | _ => exact conducts_of_same rfl rfl he

end Functions

/-! ## Steps and runs -/

theorem conducts_step {m : Machine} (h : InRun m.focus) : Conducts m.world m.step := by
  obtain ⟨focus, frames, w⟩ := m
  cases focus with
  | evaluate e => apply conducts_evaluate
  | execute s => apply conducts_execute
  | value v =>
    cases frames with
    | nil => exact conducts_of_same rfl rfl trivial
    | cons frame frames => apply conducts_passValue
  | completed c =>
    cases frames with
    | nil => exact conducts_of_same rfl rfl trivial
    | cons frame frames => apply conducts_passCompletion
  | failed e =>
    cases frames with
    | nil => exact conducts_of_same rfl rfl h
    | cons frame frames => exact conducts_passError h frame

theorem Conducts.step {w : World} {m : Machine} (h : Conducts w m) : Conducts w m.step := by
  have hstep := conducts_step h.focus
  refine ⟨hstep.maxDepth.trans h.maxDepth, ?_, hstep.focus⟩
  have hdepth := hstep.depth
  have hbefore := h.depth
  rw [h.maxDepth] at hdepth
  omega

/-- What one step keeps to, a run keeps to. -/
theorem conducts_after {m : Machine} (h : InRun m.focus) (n : Nat) :
    Conducts m.world (m.after n) :=
  after_invariant (P := Conducts m.world) (fun _ hm => hm.step) (conducts_of_same rfl rfl h) n

end Machine

end Lox
