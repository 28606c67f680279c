import Lox.Proofs.Machine.Environments
import Lox.Proofs.Machine.Restoration

/-!
# Which scopes gain names

A scope gains a name only by a declaration that is executed in it. Work that is started in a world
executes declarations of its own in the innermost scope in force, and all others in scopes that it
makes itself: a block, a call and a class make one. `Confined` says this of a machine in the middle
of its work. Every kind of step keeps it, so it holds when the work is done, whatever ends it.
-/

set_option autoImplicit false

namespace Lox

/-- The names that a statement declares in the scope that it is executed in. Declarations within a
block, a function or a class are in scopes of their own. -/
def Stmt.exposed : Stmt → List String
  | .var name _ => [name.name]
  | .function decl => decl.name.toList.map Ident.name
  | .classDecl name _ _ => [name.name]
  | .cond _ thenBranch none => thenBranch.exposed
  | .cond _ thenBranch (some elseBranch) => thenBranch.exposed ++ elseBranch.exposed
  | .loop _ body => body.exposed
  | .expression _ | .print _ | .block _ | .ret _ _ | .brk _ => []

/-- The names that are declared where a frame stands, once what it waits for is there. -/
def Frame.exposed : Frame → List String
  | .define name => [name.name]
  | .inherit name _ _ => [name.name]
  | .branch thenBranch none => thenBranch.exposed
  | .branch thenBranch (some elseBranch) => thenBranch.exposed ++ elseBranch.exposed
  | .test _ body | .again _ body => body.exposed
  | .sequence rest => rest.flatMap Stmt.exposed
  | _ => []

def Focus.exposed : Focus → List String
  | .execute s => s.exposed
  | _ => []

/-! ## Stores that gain only allowed names -/

/-- The scopes bind what they did, and what else they bind is allowed. -/
structure Store.Gains (allowed : ScopeId → String → Prop) (σ σ' : Store) : Prop where
  grows : σ.Grows σ'
  only : ∀ id x, σ'.Binds id x → σ.Binds id x ∨ allowed id x
  size : σ.scopes.size ≤ σ'.scopes.size

/-- The names may be bound in the innermost scope of the environment. -/
def Admits (allowed : ScopeId → String → Prop) (env : Env) (names : List String) : Prop :=
  ∀ x ∈ names, ∀ id ∈ env.head?, allowed id x

section
variable {allowed : ScopeId → String → Prop} {env : Env} {names more : List String}

theorem admits_nil (env : Env) : Admits allowed env [] := by
  intro x hx
  cases hx

theorem Admits.mono (h : Admits allowed env names) (hsubset : more ⊆ names) :
    Admits allowed env more :=
  fun x hx => h x (hsubset hx)

/-- Every name may be bound in a scope that was not there before. -/
theorem admits_fresh {σ σ' : Store} (hfresh : ∀ id x, σ.scopes.size ≤ id → allowed id x)
    (h : σ.Gains allowed σ') (outer : Env) (names : List String) :
    Admits allowed (σ'.scopes.size :: outer) names := by
  intro x _ id hid
  obtain rfl := Option.some.inj hid
  exact hfresh _ x h.size

end

namespace Store.Gains

variable {allowed : ScopeId → String → Prop} {σ σ' : Store}

theorem refl (σ : Store) : σ.Gains allowed σ :=
  ⟨.refl σ, fun _ _ h => Or.inl h, Nat.le_refl _⟩

/-- Objects and identities are no concern of scopes. -/
theorem same {τ : Store} (h : σ.Gains allowed σ') (hscopes : τ.scopes = σ'.scopes) :
    σ.Gains allowed τ := by
  have hbinds (id : ScopeId) (x : String) : τ.Binds id x ↔ σ'.Binds id x := by
    unfold Binds find?
    rw [hscopes]
  refine ⟨fun id x hx => (hbinds id x).2 (h.grows id x hx), ?_, hscopes ▸ h.size⟩
  intro id x hx
  exact h.only id x ((hbinds id x).1 hx)

/-- A name is bound that is bound already or may be. -/
theorem put {id : ScopeId} {x : String} (h : σ.Gains allowed σ')
    (hx : σ'.Binds id x ∨ allowed id x) (v : Value) : σ.Gains allowed (σ'.put id x v) := by
  refine ⟨h.grows.trans (grows_put σ' id x v), ?_, ?_⟩
  · intro id' y hy
    by_cases heq : id = id' ∧ x = y
    · obtain ⟨rfl, rfl⟩ := heq
      rcases hx with hx | hx
      · exact h.only id x hx
      · exact Or.inr hx
    · rw [Binds, find?_put, if_neg heq] at hy
      exact h.only id' y hy
  · simpa [Store.put] using h.size

theorem newScope (hfresh : ∀ id x, σ.scopes.size ≤ id → allowed id x) (h : σ.Gains allowed σ')
    (bindings : Bindings Value) : σ.Gains allowed (σ'.newScope bindings).2 := by
  refine ⟨h.grows.trans (grows_newScope σ' bindings), ?_, ?_⟩
  · intro id x hx
    rw [Binds, find?_newScope] at hx
    split at hx
    · rename_i heq
      exact Or.inr (hfresh id x (heq ▸ h.size))
    · exact h.only id x hx
  · have hsize : (σ'.newScope bindings).2.scopes.size = σ'.scopes.size + 1 := Array.size_push _
    rw [hsize]
    exact Nat.le_succ_of_le h.size

theorem define {env : Env} {x : String} (h : σ.Gains allowed σ') (hx : Admits allowed env [x])
    (v : Value) : σ.Gains allowed (σ'.define env x v) := by
  cases env with
  | nil => exact h
  | cons id outer => exact h.put (Or.inr (hx x List.mem_cons_self id rfl)) v

/-- Assignment overwrites what is bound. -/
theorem assign (h : σ.Gains allowed σ') (env : Env) (x : String) (v : Value) (line : Nat) :
    σ.Gains allowed (σ'.assign env x v line).2 :=
  writeBy_keeps (σ.Gains allowed) h (fun _ hx => h.put (Or.inl hx) v) env line .byName

theorem assignAt (h : σ.Gains allowed σ') (env : Env) (d : Nat) (x : String) (v : Value)
    (line : Nat) : σ.Gains allowed (σ'.assignAt env d x v line).2 :=
  writeBy_keeps (σ.Gains allowed) h (fun _ hx => h.put (Or.inl hx) v) env line (.atDistance d)

theorem assignSlot {w : World} (h : σ.Gains allowed w.store) (name : Ident) (v : Value)
    (slot : Slot) : σ.Gains allowed (w.assign name v slot).2.store := by
  unfold World.assign
  split
  · exact h.assignAt _ _ _ _ _
  · exact h.assign _ _ _ _
  · exact h

theorem defineFunction {w : World} {decl : FunDecl} (h : σ.Gains allowed w.store)
    (hname : Admits allowed w.env (decl.name.toList.map Ident.name)) :
    σ.Gains allowed (w.defineFunction decl).store := by
  unfold World.defineFunction
  split
  · exact h
  · rename_i name heq
    rw [heq] at hname
    have hid : σ.Gains allowed (w.makeFunction decl).2.store := h.same rfl
    exact hid.define hname _

theorem defineFunctions {w : World} (h : σ.Gains allowed w.store)
    (hnames : ∀ names, Admits allowed w.env names) (body : List Stmt) :
    σ.Gains allowed (w.defineFunctions body).store := by
  fun_induction World.defineFunctions w body with
  | case1 => exact h
  | case2 w decl rest ih =>
    apply ih (h.defineFunction (hnames _))
    intro names
    rw [World.env_defineFunction]
    exact hnames names
  | case3 w s rest _ ih => exact ih h hnames

end Store.Gains

/-! ## Machines that bind only allowed names -/

namespace Machine

/-- Whatever is declared where the frames stand may be bound there. -/
def Admitted (allowed : ScopeId → String → Prop) : Env → List Frame → Prop
  | _, [] => True
  | env, frame :: frames =>
    Admits allowed env frame.exposed ∧ Admitted allowed (frame.outerEnv env) frames

/-- The machine works on top of `base`, has bound nothing but allowed names since the store was
`σ`, and will not. Going back to `base` leads to `env`. -/
def Confined (allowed : ScopeId → String → Prop) (σ : Store) (base : List Frame) (env : Env)
    (m : Machine) : Prop :=
  ∃ inner, m.frames = inner ++ base ∧ unwindEnv inner m.world.env = env ∧
    Admits allowed m.world.env m.focus.exposed ∧ Admitted allowed m.world.env inner ∧
    σ.Gains allowed m.world.store

section
variable {allowed : ScopeId → String → Prop} {σ : Store} {base : List Frame} {w : World}

theorem Admitted.append {inner outer : List Frame} {env : Env} (h : Admitted allowed env inner)
    (houter : Admitted allowed (unwindEnv inner env) outer) :
    Admitted allowed env (inner ++ outer) := by
  induction inner generalizing env with
  | nil => exact houter
  | cons frame inner ih => exact ⟨h.1, ih h.2 houter⟩

/-- Work on top of further frames is work on top of what lies below them. -/
theorem Confined.lower {m : Machine} {env env₀ : Env} (outer : List Frame)
    (h : Confined allowed σ (outer ++ base) env m) (houter : Admitted allowed env outer)
    (henv : unwindEnv outer env = env₀) : Confined allowed σ base env₀ m := by
  obtain ⟨inner, hframes, hinner, hfocus, hadmitted, hgains⟩ := h
  refine ⟨inner ++ outer, by rw [hframes, List.append_assoc], ?_, hfocus, ?_, hgains⟩
  · rw [unwindEnv_append, hinner, henv]
  · apply hadmitted.append
    rw [hinner]
    exact houter

/-! ### Where work starts -/

theorem confined_base {focus : Focus} (h : σ.Gains allowed w.store)
    (hfocus : Admits allowed w.env focus.exposed) :
    Confined allowed σ base w.env ⟨focus, base, w⟩ :=
  ⟨[], rfl, rfl, hfocus, trivial, h⟩

/-- A machine that is not about to execute a statement. -/
theorem confined_plain {focus : Focus} (h : σ.Gains allowed w.store)
    (hfocus : focus.exposed = []) : Confined allowed σ base w.env ⟨focus, base, w⟩ := by
  apply confined_base h
  rw [hfocus]
  exact admits_nil w.env

theorem confined_push {focus : Focus} {frame : Frame} (h : σ.Gains allowed w.store)
    (hfocus : Admits allowed w.env focus.exposed) (hframe : Admits allowed w.env frame.exposed)
    (henv : frame.outerEnv w.env = w.env) :
    Confined allowed σ base w.env ⟨focus, frame :: base, w⟩ :=
  ⟨[frame], rfl, henv, hfocus, ⟨hframe, trivial⟩, h⟩

/-- A machine that evaluates an expression for a frame that declares nothing. -/
theorem confined_operand (e : Expr) {frame : Frame} (h : σ.Gains allowed w.store)
    (hframe : frame.exposed = []) (henv : frame.outerEnv w.env = w.env) :
    Confined allowed σ base w.env ⟨.evaluate e, frame :: base, w⟩ := by
  apply confined_push h (admits_nil w.env) _ henv
  rw [hframe]
  exact admits_nil w.env

theorem confined_ofResult (h : σ.Gains allowed w.store) (result : Except Error Value) :
    Confined allowed σ base w.env (ofResult result base w) := by
  cases result with
  | ok v => exact confined_plain h rfl
  | error e => exact confined_plain h rfl

end

/-! ### Bodies and calls -/

section
variable {allowed : ScopeId → String → Prop} {σ : Store} {w : World}
  (hfresh : ∀ id x, σ.scopes.size ≤ id → allowed id x) (h : σ.Gains allowed w.store)
  (base : List Frame)
include hfresh h

/-- A body declares what it does in the scope that is made for it. -/
theorem confined_enterScope (bindings : Bindings Value) (outer : Env) (body : List Stmt) :
    Confined allowed σ base w.env (enterScope bindings outer body base w) := by
  have hadmits (names : List String) := admits_fresh hfresh h outer names
  have hgains : σ.Gains allowed
      (World.defineFunctions
        { (w.newScope bindings).2 with env := w.store.scopes.size :: outer } body).store :=
    Store.Gains.defineFunctions (h.newScope hfresh bindings) hadmits body
  have henv : (enterScope bindings outer body base w).world.env = w.store.scopes.size :: outer :=
    World.env_defineFunctions _ body
  refine ⟨[.sequence body, .restore w.env], rfl, rfl, admits_nil _, ⟨?_, admits_nil _, trivial⟩,
    hgains⟩
  rw [henv]
  exact hadmits _

theorem confined_enterFunction (closure : Closure) (arguments : List Value) :
    Confined allowed σ base w.env (enterFunction closure arguments base w) := by
  have hbody := confined_enterScope hfresh h (.finish closure :: base)
    (Bindings.empty.putAll (closure.decl.params.map Ident.name) arguments) closure.env
    closure.decl.body
  exact Confined.lower [.finish closure] hbody ⟨admits_nil w.env, trivial⟩ rfl

theorem confined_instantiate (cls : Class) (arguments : List Value) :
    Confined allowed σ base w.env (instantiate cls arguments base w) := by
  unfold instantiate
  dsimp only
  have hobject : σ.Gains allowed w.newObject.2.store := h.same rfl
  split
  · exact confined_plain (w := w.newObject.2) hobject rfl
  · rename_i initializer _
    have hbound : σ.Gains allowed
        (w.newObject.2.bind initializer (.object w.newObject.1 cls)).2.store :=
      hobject.newScope hfresh _
    have hbody := confined_enterFunction hfresh hbound
      (.created (.object w.newObject.1 cls) :: base)
      (w.newObject.2.bind initializer (.object w.newObject.1 cls)).1 arguments
    exact Confined.lower [.created _] hbody ⟨admits_nil w.env, trivial⟩ rfl

omit hfresh in
theorem confined_callNative (native : Native) (arguments : List Value) (line : Nat) :
    Confined allowed σ base w.env (callNative native arguments line base w) := by
  unfold callNative
  split
  · exact confined_plain (w := w.readClock.2) h rfl
  all_goals exact confined_plain h rfl

theorem confined_invoke (callee : Value) (arguments : List Value) (line : Nat) :
    Confined allowed σ base w.env (invoke callee arguments line base w) := by
  unfold invoke
  split
  · exact confined_enterFunction hfresh h base _ arguments
  · exact confined_enterFunction hfresh h base _ arguments
  · exact confined_callNative h base _ arguments line
  · exact confined_instantiate hfresh h base _ arguments
  · exact confined_plain h rfl

theorem confined_call (callee : Value) (arguments : List Value) (line : Nat) :
    Confined allowed σ base w.env (call callee arguments line base w) := by
  unfold call
  split
  · exact confined_plain h rfl
  split
  · exact confined_plain h rfl
  split
  · exact confined_plain h rfl
  · have hopen : σ.Gains allowed { w with depth := w.depth + 1 }.store := h
    have hcall := confined_invoke hfresh hopen (.leave :: base) callee arguments line
    exact Confined.lower [.leave] hcall ⟨admits_nil w.env, trivial⟩ rfl

/-! ### Classes and instances -/

omit hfresh in
theorem confined_finishClass (name : Ident) (env : Env) (inherited : List Layer)
    (methods : List FunDecl) :
    Confined allowed σ base w.env (finishClass name env inherited methods base w) := by
  have hid : σ.Gains allowed w.newId.2.store := h.same rfl
  unfold finishClass
  dsimp only
  split
  · exact ⟨[], rfl, rfl, admits_nil _, trivial, hid.assign _ _ _ _⟩
  · exact ⟨[], rfl, rfl, admits_nil _, trivial, hid.assign _ _ _ _⟩

/-- A class declares its name, and its superclass in a scope of its own. -/
theorem confined_makeClass (name : Ident) (superclass : Option Class) (methods : List FunDecl)
    (hname : Admits allowed w.env [name.name]) :
    Confined allowed σ base w.env (makeClass name superclass methods base w) := by
  have hdefined : σ.Gains allowed (w.define name.name .nil).store := h.define hname .nil
  cases superclass with
  | none =>
    rw [makeClass_none]
    exact confined_finishClass hdefined base name _ _ _
  | some parent =>
    rw [makeClass_some]
    have hscope : σ.Gains allowed
        ((w.define name.name .nil).newScope (.single "super" (.classRef parent))).2.store :=
      hdefined.newScope hfresh _
    exact confined_finishClass hscope base name _ _ _

theorem confined_boundMethod (method : Closure) (receiver : Value) :
    Confined allowed σ base w.env
      ⟨.value (w.boundMethod method receiver).1, base, (w.boundMethod method receiver).2⟩ := by
  have hscope : σ.Gains allowed (w.bind method receiver).2.store := h.newScope hfresh _
  exact confined_plain (w := (w.boundMethod method receiver).2) (hscope.same rfl) rfl

theorem confined_getProperty (id : ObjectId) (cls : Class) (name : Ident) :
    Confined allowed σ base w.env (getProperty id cls name base w) := by
  unfold getProperty
  split
  · exact confined_plain h rfl
  split
  · exact confined_boundMethod hfresh h base _ _
  · exact confined_plain h rfl

theorem confined_evaluateSuper (line : Nat) (method : Ident) (slot : Slot) :
    Confined allowed σ base w.env (evaluateSuper line method slot base w) := by
  unfold evaluateSuper
  split
  · exact confined_plain h rfl
  split
  · exact confined_boundMethod hfresh h base _ _
  · exact confined_plain h rfl

/-! ### The kinds of steps -/

theorem confined_evaluate (e : Expr) : Confined allowed σ base w.env (evaluate e base w) := by
  cases e with
  | literal value line => exact confined_plain h rfl
  | group inner => exact confined_plain h rfl
  | «variable» name slot => exact confined_ofResult h _
  | this line slot => exact confined_ofResult h _
  | super line method slot => exact confined_evaluateSuper hfresh h base line method slot
  | lambda decl => exact confined_plain (w := (w.makeFunction decl).2) (h.same rfl) rfl
  | _ => exact confined_operand _ h rfl rfl

theorem confined_execute (s : Stmt) (hs : Admits allowed w.env s.exposed) :
    Confined allowed σ base w.env (execute s base w) := by
  cases s with
  | expression value => exact confined_operand value h rfl rfl
  | print value => exact confined_operand value h rfl rfl
  | var name initializer =>
    cases initializer with
    | none => exact confined_plain (w := w.define name.name .nil) (h.define hs .nil) rfl
    | some value => exact confined_push h (admits_nil w.env) hs rfl
  | block body => exact confined_enterScope hfresh h base .empty w.env body
  | cond condition thenBranch elseBranch =>
    refine confined_push h (admits_nil w.env) ?_ rfl
    cases elseBranch with
    | none => exact hs
    | some elseBranch => exact hs
  | loop condition body => exact confined_push h (admits_nil w.env) hs rfl
  | function decl =>
    refine ⟨[], rfl, ?_, admits_nil _, trivial, h.defineFunction hs⟩
    exact w.env_defineFunction decl
  | ret line value =>
    cases value with
    | none => exact confined_plain h rfl
    | some value => exact confined_operand value h rfl rfl
  | brk line => exact confined_plain h rfl
  | classDecl name superclass methods =>
    cases superclass with
    | none => exact confined_makeClass hfresh h base name none methods hs
    | some parent => exact confined_push h (admits_nil w.env) hs rfl

theorem confined_passValue (v : Value) (frame : Frame) (htakes : frame.takes = .value)
    (hframe : Admits allowed w.env frame.exposed) :
    Confined allowed σ base (frame.outerEnv w.env) (passValue v frame base w) := by
  cases frame with
  | assign name slot =>
    have hassigned := h.assignSlot name v slot
    have henv : (w.assign name v slot).2.env = w.env := w.env_assign name v slot
    unfold passValue
    dsimp only
    split
    · exact ⟨[], rfl, henv, admits_nil _, trivial, hassigned⟩
    · exact ⟨[], rfl, henv, admits_nil _, trivial, hassigned⟩
  | unary op line => exact confined_ofResult h _
  | left op right line => exact confined_operand right h rfl rfl
  | right op left line => exact confined_ofResult h _
  | logical op right =>
    unfold passValue
    dsimp only
    split
    · exact confined_plain h rfl
    · exact confined_plain h rfl
  | callee arguments line =>
    cases arguments with
    | nil => exact confined_call hfresh h base v [] line
    | cons first rest => exact confined_operand first h rfl rfl
  | argument callee before after line =>
    cases after with
    | nil => exact confined_call hfresh h base callee _ line
    | cons next rest => exact confined_operand next h rfl rfl
  | get name =>
    cases v with
    | object id cls => exact confined_getProperty hfresh h base id cls name
    | _ => exact confined_plain h rfl
  | setTarget name value =>
    cases v with
    | object id cls => exact confined_operand value h rfl rfl
    | _ => exact confined_plain h rfl
  | setField id name => exact confined_plain (w := w.setField id name.name v) (h.same rfl) rfl
  | print =>
    unfold passValue
    dsimp only
    split
    · exact confined_plain (w := (w.print v.display).2) h rfl
    · exact confined_plain (w := (w.print v.display).2) h rfl
  | define name => exact confined_plain (w := w.define name.name v) (h.define hframe v) rfl
  | branch thenBranch elseBranch =>
    unfold passValue
    dsimp only
    split
    · apply confined_base h
      cases elseBranch with
      | none => exact hframe
      | some elseBranch => exact hframe.mono (List.subset_append_left _ _)
    split
    · apply confined_base h
      exact hframe.mono (List.subset_append_right _ _)
    · exact confined_plain h rfl
  | test condition body =>
    unfold passValue
    dsimp only
    split
    · exact confined_push h hframe hframe rfl
    · exact confined_plain h rfl
  | inherit name line methods =>
    cases v with
    | classRef cls => exact confined_makeClass hfresh h base name (some cls) methods hframe
    | _ => exact confined_plain h rfl
  | leave => exact confined_plain (w := { w with depth := w.depth - 1 }) h rfl
  | discard | ret | created => exact confined_plain h rfl
  | sequence | again | restore | finish | top => cases htakes

omit hfresh in
theorem confined_passCompletion (c : Completion) (frame : Frame)
    (htakes : frame.takes = .completion) (htop : frame.isTop = false)
    (hframe : Admits allowed w.env frame.exposed) :
    Confined allowed σ base (frame.outerEnv w.env) (passCompletion c frame base w) := by
  cases frame with
  | sequence rest =>
    cases c with
    | normal =>
      cases rest with
      | nil => exact confined_plain h rfl
      | cons s rest =>
        have hrest : Admits allowed w.env (rest.flatMap Stmt.exposed) :=
          hframe.mono (List.subset_append_right s.exposed _)
        cases s with
        | function decl => exact confined_push h (admits_nil w.env) hrest rfl
        | _ => exact confined_push h (hframe.mono (List.subset_append_left _ _)) hrest rfl
    | returned v =>
      rw [passCompletion_sequence_of_ne (by simp)]
      exact confined_plain h rfl
    | broken =>
      rw [passCompletion_sequence_of_ne (by simp)]
      exact confined_plain h rfl
  | again condition body =>
    cases c with
    | normal => exact confined_push h (admits_nil w.env) hframe rfl
    | returned v => exact confined_plain h rfl
    | broken => exact confined_plain h rfl
  | restore env => exact confined_plain (w := { w with env := env }) h rfl
  | finish closure => exact confined_ofResult h _
  | top line rest => cases htop
  | _ => cases htakes

end

/-! ### Runs -/

section
variable {allowed : ScopeId → String → Prop} {σ : Store} {base : List Frame} {env : Env}
  {wanted : Handed} {depth : Nat} {m m' : Machine}

/-- One step binds nothing but allowed names, unless the work above `base` is done. -/
theorem Confined.step (hfresh : ∀ id x, σ.scopes.size ≤ id → allowed id x)
    (h : Confined allowed σ base env m) (habove : Above base wanted env depth m)
    (hbusy : ¬ HandsOver base m) : Confined allowed σ base env m.step := by
  obtain ⟨focus, frames, w⟩ := m
  obtain ⟨inner, rfl, henv, hfocus, hadmitted, hgains⟩ := h
  obtain ⟨inner', hframes, htop, hyields, -⟩ := habove
  obtain rfl : inner = inner' := List.append_cancel_right hframes
  cases focus with
  | evaluate e => exact (confined_evaluate hfresh hgains (inner ++ base) e).lower inner hadmitted henv
  | execute s =>
    exact (confined_execute hfresh hgains (inner ++ base) s hfocus).lower inner hadmitted henv
  | value v =>
    cases inner with
    | nil => exact absurd ⟨rfl, trivial⟩ hbusy
    | cons frame inner =>
      have hpass := confined_passValue hfresh hgains (inner ++ base) v frame hyields.1 hadmitted.1
      exact hpass.lower inner hadmitted.2 henv
  | completed c =>
    cases inner with
    | nil => exact absurd ⟨rfl, trivial⟩ hbusy
    | cons frame inner =>
      have hpass := confined_passCompletion hgains (inner ++ base) c frame hyields.1
        (htop frame List.mem_cons_self) hadmitted.1
      exact hpass.lower inner hadmitted.2 henv
  | failed e =>
    cases inner with
    | nil => exact absurd ⟨rfl, trivial⟩ hbusy
    | cons frame inner =>
      change Confined allowed σ base env (passError e frame (inner ++ base) w)
      rw [passError_eq (inner ++ base) w e frame (htop frame List.mem_cons_self)]
      exact ⟨inner, rfl, henv, admits_nil _, hadmitted.2, hgains⟩

/-- When the work is done, nothing but allowed names has been bound. -/
theorem Confined.returned (hfresh : ∀ id x, σ.scopes.size ≤ id → allowed id x)
    (h : Confined allowed σ base env m) (habove : Above base wanted env depth m)
    (hreturns : Returns base m m') : σ.Gains allowed m'.world.store := by
  induction hreturns with
  | here hover =>
    obtain ⟨_, _, _, _, _, hgains⟩ := h
    exact hgains
  | next hbusy _ ih => exact ih (h.step hfresh habove hbusy) (habove.step hbusy)

end

end Machine

end Lox
