import Lox.Proofs.Session.Reachable

/-!
# Scopes and open calls on the way out

Frames above a given stack remember what has to be undone: a scope that was entered, a call that
was opened. `Above` says that a machine works on top of a stack of frames and that undoing what
its further frames remember leads back to a given environment and number of open calls. Every
kind of step keeps this, whatever ends it, so a result handed to the stack finds the environment
and the number of open calls that the work started with.
-/

set_option autoImplicit false

namespace Lox

/-- What is handed from one frame to the next, errors apart. -/
inductive Handed where
  | value
  | completion
  deriving DecidableEq

namespace Frame

/-- What a frame waits for. -/
def takes : Frame → Handed
  | .sequence _ | .again _ _ | .restore _ | .finish _ | .top _ _ => .completion
  | _ => .value

/-- What a frame hands on once its own work is done. -/
def gives : Frame → Handed
  | .discard | .print | .define _ | .branch _ _ | .test _ _ | .ret | .inherit _ _ _ => .completion
  | .sequence _ | .again _ _ | .restore _ | .top _ _ => .completion
  | _ => .value

def isTop : Frame → Bool
  | .top _ _ => true
  | _ => false

/-- The environment outside a frame, given the one inside it. -/
def outerEnv : Frame → Env → Env
  | .restore env, _ => env
  | _, env => env

/-- How many calls a frame stands for. -/
def calls : Frame → Nat
  | .leave => 1
  | _ => 0

end Frame

namespace Machine

/-- The environment outside several frames, innermost first. -/
def unwindEnv : List Frame → Env → Env
  | [], env => env
  | frame :: frames, env => unwindEnv frames (frame.outerEnv env)

/-- How many calls end within several frames. -/
def openCalls : List Frame → Nat
  | [] => 0
  | frame :: frames => frame.calls + openCalls frames

/-- Each frame waits for what the one before it gives. -/
def Linked : Handed → List Frame → Handed → Prop
  | given, [], wanted => given = wanted
  | given, frame :: frames, wanted => frame.takes = given ∧ Linked frame.gives frames wanted

/-- The frames lead from what the focus will yield to what is wanted outside. -/
def Yields (focus : Focus) (frames : List Frame) (wanted : Handed) : Prop :=
  match focus with
  | .evaluate _ | .value _ => Linked .value frames wanted
  | .execute _ | .completed _ => Linked .completion frames wanted
  | .failed _ => True

/-- The machine works on top of `base`, for which it prepares a result of kind `wanted`; undoing
what its further frames remember leads to `env` and `depth`. -/
def Above (base : List Frame) (wanted : Handed) (env : Env) (depth : Nat) (m : Machine) : Prop :=
  ∃ inner, m.frames = inner ++ base ∧ (∀ frame ∈ inner, frame.isTop = false) ∧
    Yields m.focus inner wanted ∧ unwindEnv inner m.world.env = env ∧
    m.world.depth = depth + openCalls inner

theorem unwindEnv_append (inner outer : List Frame) (env : Env) :
    unwindEnv (inner ++ outer) env = unwindEnv outer (unwindEnv inner env) := by
  induction inner generalizing env with
  | nil => rfl
  | cons frame inner ih => exact ih _

theorem openCalls_append (inner outer : List Frame) :
    openCalls (inner ++ outer) = openCalls inner + openCalls outer := by
  induction inner with
  | nil => simp [openCalls]
  | cons frame inner ih => simp [openCalls, ih, Nat.add_assoc]

theorem Linked.append {given middle wanted : Handed} {inner outer : List Frame}
    (hinner : Linked given inner middle) (houter : Linked middle outer wanted) :
    Linked given (inner ++ outer) wanted := by
  induction inner generalizing given with
  | nil => cases hinner; exact houter
  | cons frame inner ih => exact ⟨hinner.1, ih hinner.2⟩

theorem Yields.append {focus : Focus} {middle wanted : Handed} {inner outer : List Frame}
    (hinner : Yields focus inner middle) (houter : Linked middle outer wanted) :
    Yields focus (inner ++ outer) wanted := by
  cases focus with
  | failed e => trivial
  | evaluate e => exact Linked.append hinner houter
  | value v => exact Linked.append hinner houter
  | execute s => exact Linked.append hinner houter
  | completed c => exact Linked.append hinner houter

/-- Work on top of further frames is work on top of what lies below them. -/
theorem Above.lower {base : List Frame} {middle wanted : Handed} {env : Env} {depth : Nat}
    {m : Machine} (outer : List Frame) (h : Above (outer ++ base) middle env depth m)
    (hlinked : Linked middle outer wanted) (htop : ∀ frame ∈ outer, frame.isTop = false)
    {env₀ : Env} {depth₀ : Nat} (henv : unwindEnv outer env = env₀)
    (hdepth : depth = depth₀ + openCalls outer) : Above base wanted env₀ depth₀ m := by
  obtain ⟨inner, hframes, hinner, hyields, henv', hdepth'⟩ := h
  refine ⟨inner ++ outer, by rw [hframes, List.append_assoc], ?_, hyields.append hlinked, ?_, ?_⟩
  · intro frame hframe
    rcases List.mem_append.mp hframe with hframe | hframe
    · exact hinner frame hframe
    · exact htop frame hframe
  · rw [unwindEnv_append, henv', henv]
  · rw [openCalls_append]
    omega

/-! ## Where work starts -/

section Start
variable {base : List Frame} {wanted : Handed} {w : World}

/-- A machine whose frames are just the base. -/
theorem above_base {focus : Focus} (h : Yields focus [] wanted) :
    Above base wanted w.env w.depth ⟨focus, base, w⟩ :=
  ⟨[], rfl, by simp, h, rfl, rfl⟩

/-- A machine with one further frame that neither enters a scope nor opens a call. -/
theorem above_push {focus : Focus} {frame : Frame} (h : Yields focus [frame] wanted)
    (henv : frame.outerEnv w.env = w.env) (hcalls : frame.calls = 0)
    (htop : frame.isTop = false) :
    Above base wanted w.env w.depth ⟨focus, frame :: base, w⟩ :=
  ⟨[frame], rfl, by simpa using htop, h, henv, by simp [openCalls, hcalls]⟩

theorem above_failing (e : Error) : Above base wanted w.env w.depth (failing e base w) :=
  above_base trivial

theorem above_ofResult (result : Except Error Value) :
    Above base .value w.env w.depth (ofResult result base w) := by
  cases result with
  | ok v => exact above_base rfl
  | error e => exact above_base trivial

end Start

/-! ## Bodies and calls -/

section Calls
variable (base : List Frame) (w : World)

/-- A body runs in any environment and goes back to the one in force before. -/
theorem above_enterBody (env : Env) (body : List Stmt) :
    Above base .completion w.env w.depth
      (enterBody body (.restore w.env :: base) { w with env := env }) := by
  refine ⟨[.sequence body, .restore w.env], rfl, by simp [Frame.isTop], ⟨rfl, rfl, rfl⟩, rfl, ?_⟩
  simp [enterBody, openCalls, Frame.calls]

theorem above_enterFunction (closure : Closure) (arguments : List Value) :
    Above base .value w.env w.depth (enterFunction closure arguments base w) := by
  have h := above_enterBody (.finish closure :: base)
    (w.newScope (Bindings.empty.putAll (closure.decl.params.map Ident.name) arguments)).2
    (w.store.scopes.size :: closure.env) closure.decl.body
  exact Above.lower [.finish closure] h ⟨rfl, rfl⟩ (by simp [Frame.isTop]) rfl rfl

theorem above_callNative (native : Native) (arguments : List Value) (line : Nat) :
    Above base .value w.env w.depth (callNative native arguments line base w) := by
  unfold callNative
  split
  · exact above_base (w := w.readClock.2) rfl
  · exact above_base rfl
  · exact above_base rfl
  · exact above_base rfl
  · exact above_failing _
  · exact above_failing _

theorem above_instantiate (cls : Class) (arguments : List Value) :
    Above base .value w.env w.depth (instantiate cls arguments base w) := by
  unfold instantiate
  dsimp only
  split
  · exact above_base (w := w.newObject.2) rfl
  · rename_i initializer _
    have h := above_enterFunction (.created (.object w.newObject.1 cls) :: base)
      (w.newObject.2.bind initializer (.object w.newObject.1 cls)).2
      (w.newObject.2.bind initializer (.object w.newObject.1 cls)).1 arguments
    exact Above.lower [.created _] h ⟨rfl, rfl⟩ (by simp [Frame.isTop]) rfl rfl

theorem above_invoke (callee : Value) (arguments : List Value) (line : Nat) :
    Above base .value w.env w.depth (invoke callee arguments line base w) := by
  unfold invoke
  split
  · exact above_enterFunction base w _ arguments
  · exact above_enterFunction base w _ arguments
  · exact above_callNative base w _ arguments line
  · exact above_instantiate base w _ arguments
  · exact above_base rfl

theorem above_call (callee : Value) (arguments : List Value) (line : Nat) :
    Above base .value w.env w.depth (call callee arguments line base w) := by
  unfold call
  split
  · exact above_failing _
  split
  · exact above_failing _
  split
  · exact above_failing _
  · have h := above_invoke (.leave :: base) { w with depth := w.depth + 1 } callee arguments line
    exact Above.lower [.leave] h ⟨rfl, rfl⟩ (by simp [Frame.isTop]) rfl rfl

end Calls

/-! ## Classes and instances -/

section Classes
variable (base : List Frame) (w : World)

theorem above_makeClass (name : Ident) (superclass : Option Class) (methods : List FunDecl) :
    Above base .completion w.env w.depth (makeClass name superclass methods base w) := by
  unfold makeClass
  cases superclass with
  | none =>
    dsimp only
    split
    · exact ⟨[], rfl, by simp, rfl, rfl, rfl⟩
    · exact ⟨[], rfl, by simp, trivial, rfl, rfl⟩
  | some parent =>
    dsimp only
    split
    · exact ⟨[], rfl, by simp, rfl, rfl, rfl⟩
    · exact ⟨[], rfl, by simp, trivial, rfl, rfl⟩

theorem above_getProperty (id : ObjectId) (cls : Class) (name : Ident) :
    Above base .value w.env w.depth (getProperty id cls name base w) := by
  unfold getProperty
  split
  · exact above_base rfl
  split
  · rename_i method _
    exact above_base (w := (w.boundMethod method (.object id cls)).2) rfl
  · exact above_failing _

theorem above_evaluateSuper (line : Nat) (method : Ident) (slot : Slot) :
    Above base .value w.env w.depth (evaluateSuper line method slot base w) := by
  unfold evaluateSuper
  split
  · exact above_failing _
  split
  · rename_i receiver _ _ found _
    exact above_base (w := (w.boundMethod found receiver).2) rfl
  · exact above_failing _

end Classes

/-! ## The kinds of steps -/

section Steps
variable (base : List Frame) (w : World)

theorem above_evaluate (e : Expr) : Above base .value w.env w.depth (evaluate e base w) := by
  cases e with
  | literal value line => exact above_base rfl
  | group inner => exact above_base rfl
  | «variable» name slot => exact above_ofResult _
  | assign name value slot => exact above_push ⟨rfl, rfl⟩ rfl rfl rfl
  | unary op operand line => exact above_push ⟨rfl, rfl⟩ rfl rfl rfl
  | binary op left right line => exact above_push ⟨rfl, rfl⟩ rfl rfl rfl
  | logical op left right line => exact above_push ⟨rfl, rfl⟩ rfl rfl rfl
  | call callee arguments line => exact above_push ⟨rfl, rfl⟩ rfl rfl rfl
  | get object name => exact above_push ⟨rfl, rfl⟩ rfl rfl rfl
  | set object name value => exact above_push ⟨rfl, rfl⟩ rfl rfl rfl
  | this line slot => exact above_ofResult _
  | super line method slot => exact above_evaluateSuper base w line method slot
  | lambda decl => exact above_base (w := (w.makeFunction decl).2) rfl

theorem above_execute (s : Stmt) : Above base .completion w.env w.depth (execute s base w) := by
  cases s with
  | expression value => exact above_push ⟨rfl, rfl⟩ rfl rfl rfl
  | print value => exact above_push ⟨rfl, rfl⟩ rfl rfl rfl
  | var name initializer =>
    cases initializer with
    | none => exact above_base (w := w.define name.name .nil) rfl
    | some value => exact above_push ⟨rfl, rfl⟩ rfl rfl rfl
  | block body => exact above_enterBody base (w.newScope .empty).2 _ body
  | cond condition thenBranch elseBranch => exact above_push ⟨rfl, rfl⟩ rfl rfl rfl
  | loop condition body => exact above_push ⟨rfl, rfl⟩ rfl rfl rfl
  | function decl =>
    refine ⟨[], rfl, by simp, rfl, ?_, ?_⟩
    · exact w.env_defineFunction decl
    · exact w.depth_defineFunction decl
  | ret line value =>
    cases value with
    | none => exact above_base rfl
    | some value => exact above_push ⟨rfl, rfl⟩ rfl rfl rfl
  | brk line => exact above_base rfl
  | classDecl name superclass methods =>
    cases superclass with
    | none => exact above_makeClass base w name none methods
    | some parent => exact above_push ⟨rfl, rfl⟩ rfl rfl rfl

/-- A value passes a frame: nothing changes but the number of open calls, if the frame ends
one. -/
theorem above_passValue (v : Value) (frame : Frame) (htakes : frame.takes = .value) :
    Above base frame.gives (frame.outerEnv w.env) (w.depth - frame.calls)
      (passValue v frame base w) := by
  cases frame with
  | assign name slot =>
    have henv : (w.assign name v slot).2.env = w.env := w.env_assign name v slot
    have hdepth : (w.assign name v slot).2.depth = w.depth := w.depth_assign name v slot
    unfold passValue
    dsimp only
    split
    · exact ⟨[], rfl, by simp, rfl, henv, hdepth⟩
    · exact ⟨[], rfl, by simp, trivial, henv, hdepth⟩
  | unary op line => exact above_ofResult _
  | left op right line => exact above_push ⟨rfl, rfl⟩ rfl rfl rfl
  | right op left line => exact above_ofResult _
  | logical op right =>
    unfold passValue
    dsimp only
    split
    · exact above_base rfl
    · exact above_base rfl
  | callee arguments line =>
    cases arguments with
    | nil => exact above_call base w v [] line
    | cons first rest => exact above_push ⟨rfl, rfl⟩ rfl rfl rfl
  | argument callee before after line =>
    cases after with
    | nil => exact above_call base w callee _ line
    | cons next rest => exact above_push ⟨rfl, rfl⟩ rfl rfl rfl
  | get name =>
    cases v with
    | object id cls => exact above_getProperty base w id cls name
    | _ => exact above_failing _
  | setTarget name value =>
    cases v with
    | object id cls => exact above_push ⟨rfl, rfl⟩ rfl rfl rfl
    | _ => exact above_failing _
  | setField id name => exact above_base (w := w.setField id name.name v) rfl
  | discard => exact above_base rfl
  | print =>
    unfold passValue
    dsimp only
    split
    · exact above_base (w := (w.print v.display).2) rfl
    · exact above_failing (w := (w.print v.display).2) _
  | define name => exact above_base (w := w.define name.name v) rfl
  | branch thenBranch elseBranch =>
    unfold passValue
    dsimp only
    split
    · exact above_base rfl
    split
    · exact above_base rfl
    · exact above_base rfl
  | test condition body =>
    unfold passValue
    dsimp only
    split
    · exact above_push ⟨rfl, rfl⟩ rfl rfl rfl
    · exact above_base rfl
  | ret => exact above_base rfl
  | inherit name line methods =>
    cases v with
    | classRef cls => exact above_makeClass base w name (some cls) methods
    | _ => exact above_failing _
  | created object => exact above_base rfl
  | leave => exact above_base (w := { w with depth := w.depth - 1 }) rfl
  | sequence _ => cases htakes
  | again _ _ => cases htakes
  | restore _ => cases htakes
  | finish _ => cases htakes
  | top _ _ => cases htakes

/-- A completion passes a frame: nothing changes but the environment, if the frame goes back to
one. -/
theorem above_passCompletion (c : Completion) (frame : Frame) (htakes : frame.takes = .completion)
    (htop : frame.isTop = false) :
    Above base frame.gives (frame.outerEnv w.env) w.depth (passCompletion c frame base w) := by
  cases frame with
  | sequence rest =>
    cases rest with
    | nil => cases c <;> exact above_base rfl
    | cons s rest =>
      cases c with
      | normal => cases s <;> exact above_push ⟨rfl, rfl⟩ rfl rfl rfl
      | returned v => cases s <;> exact above_base rfl
      | broken => cases s <;> exact above_base rfl
  | again condition body =>
    cases c with
    | normal => exact above_push ⟨rfl, rfl⟩ rfl rfl rfl
    | returned v => exact above_base rfl
    | broken => exact above_base rfl
  | restore env => exact above_base (w := { w with env := env }) rfl
  | finish closure => exact above_ofResult _
  | top line rest => cases htop
  | _ => cases htakes

/-- An error takes a frame away, and with it the scope or the call that the frame stands for. -/
theorem passError_eq (e : Error) (frame : Frame) (htop : frame.isTop = false) :
    passError e frame base w = ⟨.failed e, base,
      { w with env := frame.outerEnv w.env, depth := w.depth - frame.calls }⟩ := by
  cases frame with
  | top line rest => cases htop
  | _ => rfl

end Steps

/-! ## Runs -/

/-- The machine has a result for the frames of `base`, with no further frame above them. -/
def HandsOver (base : List Frame) (m : Machine) : Prop :=
  m.frames = base ∧ match m.focus with
    | .value _ | .completed _ | .failed _ => True
    | _ => False

theorem isFinal_of_handsOver {m : Machine} (h : HandsOver [] m) : m.isFinal = true := by
  obtain ⟨focus, frames, w⟩ := m
  obtain ⟨rfl, hfocus⟩ := h
  cases focus with
  | evaluate e => cases hfocus
  | execute s => cases hfocus
  | value v => rfl
  | completed c => rfl
  | failed e => rfl

/-- One step keeps what going back to `base` leads to, unless the work above `base` is done. -/
theorem Above.step {base : List Frame} {wanted : Handed} {env : Env} {depth : Nat} {m : Machine}
    (h : Above base wanted env depth m) (hbusy : ¬ HandsOver base m) :
    Above base wanted env depth m.step := by
  obtain ⟨focus, frames, w⟩ := m
  obtain ⟨inner, rfl, htop, hyields, henv, hdepth⟩ := h
  cases focus with
  | evaluate e => exact (above_evaluate (inner ++ base) w e).lower inner hyields htop henv hdepth
  | execute s => exact (above_execute (inner ++ base) w s).lower inner hyields htop henv hdepth
  | value v =>
    cases inner with
    | nil => exact absurd ⟨rfl, trivial⟩ hbusy
    | cons frame inner =>
      obtain ⟨htakes, hlinked⟩ := hyields
      have hpass := above_passValue (inner ++ base) w v frame htakes
      refine hpass.lower inner hlinked (fun f hf => htop f (List.mem_cons_of_mem frame hf)) henv ?_
      simp only [openCalls] at hdepth
      omega
  | completed c =>
    cases inner with
    | nil => exact absurd ⟨rfl, trivial⟩ hbusy
    | cons frame inner =>
      obtain ⟨htakes, hlinked⟩ := hyields
      have hpass := above_passCompletion (inner ++ base) w c frame htakes
        (htop frame List.mem_cons_self)
      refine hpass.lower inner hlinked (fun f hf => htop f (List.mem_cons_of_mem frame hf)) henv ?_
      -- A call never ends by a completion.
      have hcalls : frame.calls = 0 := by
        cases frame with
        | leave => cases htakes
        | _ => rfl
      simp only [openCalls, hcalls] at hdepth
      omega
  | failed e =>
    cases inner with
    | nil => exact absurd ⟨rfl, trivial⟩ hbusy
    | cons frame inner =>
      change Above base wanted env depth (passError e frame (inner ++ base) w)
      rw [passError_eq (inner ++ base) w e frame (htop frame List.mem_cons_self)]
      refine ⟨inner, rfl, fun f hf => htop f (List.mem_cons_of_mem frame hf), trivial, henv, ?_⟩
      simp only [openCalls] at hdepth
      change w.depth - frame.calls = depth + openCalls inner
      omega

/-- `m'` is the first machine on the way from `m` that hands a result to `base`. -/
inductive Returns (base : List Frame) : Machine → Machine → Prop where
  | here {m : Machine} : HandsOver base m → Returns base m m
  | next {m m' : Machine} : ¬ HandsOver base m → Returns base m.step m' → Returns base m m'

theorem Above.returned {base : List Frame} {wanted : Handed} {env : Env} {depth : Nat}
    {m m' : Machine} (h : Above base wanted env depth m) (hreturns : Returns base m m') :
    m'.world.env = env ∧ m'.world.depth = depth := by
  induction hreturns with
  | here hover =>
    obtain ⟨inner, hframes, -, -, henv, hdepth⟩ := h
    have hnil : inner = [] := by simpa [hover.1] using hframes
    subst hnil
    exact ⟨henv, hdepth⟩
  | next hbusy _ ih => exact ih (h.step hbusy)

/-- Where work on top of `base` in the world `w` starts: an expression, a statement, a body in
some environment, or a call. -/
inductive Starts (base : List Frame) (w : World) : Machine → Prop where
  | evaluate (e : Expr) : Starts base w ⟨.evaluate e, base, w⟩
  | execute (s : Stmt) : Starts base w ⟨.execute s, base, w⟩
  | body (env : Env) (body : List Stmt) :
      Starts base w (enterBody body (.restore w.env :: base) { w with env := env })
  | call (callee : Value) (arguments : List Value) (line : Nat) :
      Starts base w (call callee arguments line base w)

theorem Starts.above {base : List Frame} {w : World} {m : Machine} (h : Starts base w m) :
    ∃ wanted, Above base wanted w.env w.depth m := by
  cases h with
  | evaluate e => exact ⟨.value, above_base rfl⟩
  | execute s => exact ⟨.completion, above_base rfl⟩
  | body env body => exact ⟨.completion, above_enterBody base w env body⟩
  | call callee arguments line => exact ⟨.value, above_call base w callee arguments line⟩

/-! ## Sessions -/

/-- A machine that runs a program or has run it: going back to the top level leads to the top
level's environment with no call open. -/
def AtTop (m : Machine) : Prop :=
  (∃ line rest, Above [.top line rest] .completion World.topEnv 0 m) ∨
    (m.isFinal = true ∧ m.world.env = World.topEnv ∧ m.world.depth = 0)

theorem atTop_running (p : Program) {w : World} (henv : w.env = World.topEnv)
    (hdepth : w.depth = 0) : AtTop (running p w) :=
  Or.inl ⟨0, p, [], rfl, by simp, rfl, henv, hdepth⟩

theorem Above.of_handsOver {base : List Frame} {wanted : Handed} {env : Env} {depth : Nat}
    {m : Machine} (h : Above base wanted env depth m) (hover : HandsOver base m) :
    m.world.env = env ∧ m.world.depth = depth :=
  h.returned (.here hover)

/-- Work on the top level goes on until its last statement has completed or something fails. -/
theorem Above.step_top {line : Nat} {rest : List Stmt} {m : Machine}
    (h : Above [.top line rest] .completion World.topEnv 0 m) :
    (∃ line' rest', Above [.top line' rest'] .completion World.topEnv 0 m.step) ∨
      m.step.isFinal = true ∧ m.step.world.env = World.topEnv ∧ m.step.world.depth = 0 ∧
        (m.AtEnd ∨ ∃ e, m.step.focus = .failed e) := by
  by_cases hover : HandsOver [.top line rest] m
  · obtain ⟨henv, hdepth⟩ := h.of_handsOver hover
    obtain ⟨inner, hframes, -, hyields, -, -⟩ := h
    have hnil : inner = [] := by simpa [hover.1] using hframes
    subst hnil
    obtain ⟨focus, frames, w⟩ := m
    obtain ⟨rfl, hfocus⟩ := hover
    cases focus with
    | evaluate e => cases hfocus
    | execute s => cases hfocus
    | value v => cases hyields
    | failed e => exact Or.inr ⟨rfl, rfl, rfl, Or.inr ⟨e, rfl⟩⟩
    | completed c =>
      by_cases hc : c = .normal
      · subst hc
        cases rest with
        | nil => exact Or.inr ⟨rfl, henv, hdepth, Or.inl ⟨line, [], w, rfl⟩⟩
        | cons s rest => exact Or.inl ⟨s.line, rest, [], rfl, by simp, rfl, henv, hdepth⟩
      · have hstep : (Machine.mk (.completed c) [.top line rest] w).step =
            failing (.internal (.signalAtTop (inspectCompletion w c) line)) [] w :=
          passCompletion_top_of_ne hc line rest [] w
        rw [hstep]
        exact Or.inr ⟨rfl, henv, hdepth, Or.inr ⟨_, rfl⟩⟩
  · exact Or.inl ⟨line, rest, h.step hover⟩

theorem AtTop.step {m : Machine} (h : AtTop m) : AtTop m.step := by
  rcases h with ⟨line, rest, h⟩ | ⟨hfinal, henv, hdepth⟩
  · rcases h.step_top with h | ⟨hfinal, henv, hdepth, -⟩
    · exact Or.inl h
    · exact Or.inr ⟨hfinal, henv, hdepth⟩
  · rw [step_eq_self_of_isFinal hfinal]
    exact Or.inr ⟨hfinal, henv, hdepth⟩

/-- What meets the top level's frame has already gone back to the top level. -/
theorem AtTop.reset_eq {m : Machine} (h : AtTop m) {line : Nat} {rest : List Stmt}
    {frames : List Frame} (hframes : m.frames = .top line rest :: frames) :
    m.world.reset = m.world := by
  rcases h with ⟨line', rest', h⟩ | ⟨_, henv, hdepth⟩
  · obtain ⟨inner, hinner, htop, -, henv, hdepth⟩ := h
    rw [hframes] at hinner
    cases inner with
    | nil => exact m.world.reset_eq_self henv hdepth
    | cons frame inner =>
      obtain ⟨rfl, -⟩ := List.cons.inj hinner
      exact absurd (htop _ List.mem_cons_self) (by simp [Frame.isTop])
  · exact m.world.reset_eq_self henv hdepth

/-- With nothing left to do, the machine is at the top level with no call open. -/
theorem AtTop.of_isFinal {m : Machine} (h : AtTop m) (hfinal : m.isFinal = true) :
    m.world.env = World.topEnv ∧ m.world.depth = 0 := by
  rcases h with ⟨line, rest, inner, hframes, -⟩ | ⟨_, henv, hdepth⟩
  · obtain ⟨focus, frames, w⟩ := m
    cases frames with
    | nil => exact absurd hframes (by simp)
    | cons frame frames => cases focus <;> cases hfinal
  · exact ⟨henv, hdepth⟩

theorem above_nil_after (e : Expr) (w : World) (n : Nat) :
    Above [] .value w.env w.depth ((evaluating e w).after n) := by
  have hstart : Above [] .value w.env w.depth (evaluating e w) :=
    ⟨[], rfl, by simp, rfl, rfl, rfl⟩
  refine after_invariant (P := Above [] .value w.env w.depth) ?_ hstart n
  intro m h
  by_cases hover : HandsOver [] m
  · rwa [step_eq_self_of_isFinal (isFinal_of_handsOver hover)]
  · exact h.step hover

theorem handsOver_of_isFinal {m : Machine} (hfinal : m.isFinal = true) : HandsOver [] m := by
  obtain ⟨focus, frames, w⟩ := m
  cases frames with
  | nil =>
    cases focus with
    | evaluate | execute => cases hfinal
    | value | completed | failed => exact ⟨rfl, trivial⟩
  | cons frame frames => cases focus <;> cases hfinal

/-- A run to its end returns to an empty stack of frames. -/
theorem returns_of_isFinal {m : Machine} {n : Nat} (hfinal : (m.after n).isFinal = true) :
    Returns [] m (m.after n) := by
  induction n generalizing m with
  | zero => exact .here (handsOver_of_isFinal hfinal)
  | succ n ih =>
    by_cases hover : HandsOver [] m
    · rw [after_eq_self_of_isFinal (isFinal_of_handsOver hover)]
      exact .here hover
    · rw [after_succ] at hfinal ⊢
      exact .next hover (ih hfinal)

/-- Work on top of `base` is done by the time that some frame of `base` is gone. -/
theorem Above.exists_returns {base : List Frame} {wanted : Handed} {env : Env} {depth : Nat}
    {m : Machine} (h : Above base wanted env depth m) {n : Nat}
    (hgone : (m.after n).frames.length < base.length) : ∃ m', Returns base m m' := by
  induction n generalizing m with
  | zero =>
    obtain ⟨inner, hframes, -⟩ := h
    rw [after, hframes, List.length_append] at hgone
    omega
  | succ n ih =>
    by_cases hover : HandsOver base m
    · exact ⟨m, .here hover⟩
    · rw [after_succ] at hgone
      obtain ⟨m', hreturns⟩ := ih (h.step hover) hgone
      exact ⟨m', .next hover hreturns⟩

/-! ## Runs that return -/

theorem Above.of_returns {base : List Frame} {wanted : Handed} {env : Env} {depth : Nat}
    {m m' : Machine} (h : Above base wanted env depth m) (hreturns : Returns base m m') :
    Above base wanted env depth m' ∧ HandsOver base m' := by
  induction hreturns with
  | here hover => exact ⟨h, hover⟩
  | next hbusy _ ih => exact ih (h.step hbusy)

theorem Returns.eq_of_handsOver {base : List Frame} {m m' : Machine} (h : Returns base m m')
    (hover : HandsOver base m) : m' = m := by
  cases h with
  | here => rfl
  | next hbusy => exact absurd hover hbusy

/-- A machine with further frames has not returned yet. -/
theorem Returns.step_of_lt {base : List Frame} {m m' : Machine} (h : Returns base m m')
    (hlength : base.length < m.frames.length) : Returns base m.step m' := by
  cases h with
  | here hover =>
    rw [hover.1] at hlength
    exact absurd hlength (Nat.lt_irrefl _)
  | next _ hstep => exact hstep

/-- Work on top of further frames is handed to them before it goes back to what lies below. -/
theorem Returns.through {outer base : List Frame} {wanted : Handed} {env : Env} {depth : Nat}
    {m m' : Machine} (h : Returns base m m') (habove : Above (outer ++ base) wanted env depth m)
    (houter : 0 < outer.length) :
    ∃ m'', Returns (outer ++ base) m m'' ∧ Returns base m'' m' := by
  induction h with
  | @here m hover =>
    obtain ⟨inner, hframes, -⟩ := habove
    have hlength := congrArg List.length (hover.1.symm.trans hframes)
    simp only [List.length_append] at hlength
    omega
  | @next m m' hbusy hreturns ih =>
    by_cases hover : HandsOver (outer ++ base) m
    · exact ⟨m, .here hover, .next hbusy hreturns⟩
    · obtain ⟨m'', hfirst, hsecond⟩ := ih (habove.step hover)
      exact ⟨m'', .next hover hfirst, hsecond⟩

/-- An error is not lost on the way. -/
theorem Returns.failed {base : List Frame} {m m' : Machine} (h : Returns base m m')
    (hm : ∃ e, m.focus = .failed e) : ∃ e, m'.focus = .failed e := by
  induction h with
  | here => exact hm
  | @next m m' _ _ ih =>
    apply ih
    obtain ⟨focus, frames, w⟩ := m
    obtain ⟨e, he⟩ := hm
    obtain rfl : focus = .failed e := he
    refine ⟨e, ?_⟩
    cases frames with
    | nil => rfl
    | cons frame frames => cases frame <;> rfl

theorem atTop_after (p : Program) {w : World} (henv : w.env = World.topEnv) (hdepth : w.depth = 0)
    (n : Nat) : AtTop ((running p w).after n) :=
  after_invariant (fun _ h => h.step) (atTop_running p henv hdepth) n

end Machine

open Machine

/-- Whatever a task does, it ends at the top level with no call open. -/
theorem Task.ends_at_top (task : Task) {s : Session} (henv : s.env = World.topEnv)
    (hdepth : s.depth = 0) {n : Nat} (hfinal : ((task.start s).after n).isFinal = true) :
    ((task.start s).after n).world.env = World.topEnv ∧
      ((task.start s).after n).world.depth = 0 := by
  cases task with
  | program p => exact (atTop_after p henv hdepth n).of_isFinal hfinal
  | expression e =>
    have h := (above_nil_after e s n).of_handsOver (handsOver_of_isFinal hfinal)
    exact ⟨h.1.trans henv, h.2.trans hdepth⟩

theorem Session.Reachable.at_top {s : Session} (h : s.Reachable) :
    s.env = World.topEnv ∧ s.depth = 0 := by
  induction h with
  | new sink reading => exact ⟨rfl, rfl⟩
  | answered _ hanswers ih =>
    rcases performed_or_refused hanswers with ⟨_, _, rfl, _⟩ | ⟨task, _, n, hfinal, rfl, _⟩
    · exact ih
    · exact task.ends_at_top ih.1 ih.2 hfinal
  | limited maxDepth _ ih => exact ih
  | provided native _ ih => exact ih

/-- The environment and the number of open calls are restored on every way out of an expression,
a statement, a body and a call. So a session is at the top level with no call open between two
source texts, and going back there after an error changes nothing. -/
theorem environment_and_depth_restored :
    (∀ (base : List Frame) (w : World) (m m' : Machine), Starts base w m → Returns base m m' →
      m'.world.env = w.env ∧ m'.world.depth = w.depth) ∧
    (∀ s : Session, s.Reachable → s.env = World.topEnv ∧ s.depth = 0 ∧ World.reset s = s) ∧
    (∀ (s : Session) (p : Program) (n line : Nat) (rest : List Stmt) (frames : List Frame),
      s.Reachable → ((running p s).after n).frames = .top line rest :: frames →
      ((running p s).after n).world.reset = ((running p s).after n).world) := by
  refine ⟨?_, ?_, ?_⟩
  · intro base w m m' hstarts hreturns
    obtain ⟨wanted, h⟩ := hstarts.above
    exact h.returned hreturns
  · intro s hs
    obtain ⟨henv, hdepth⟩ := hs.at_top
    exact ⟨henv, hdepth, World.reset_eq_self s henv hdepth⟩
  · intro s p n line rest frames hs hframes
    obtain ⟨henv, hdepth⟩ := hs.at_top
    exact (atTop_after p henv hdepth n).reset_eq hframes

/-- A call in a world deep inside other scopes and calls, of a function that returns from within a
block within a loop. -/
theorem environment_and_depth_restored_call :
    let w : World := { World.initial .unlimited (fun _ => 0) with env := [3, 0], depth := 7 }
    let body : List Stmt := [.loop (.literal (.bool true) 1) (.block [.ret 1 none])]
    let callee : Value := .function 5 ⟨⟨none, [], body, 1⟩, [2, 0], false⟩
    let m := call callee [] 1 [] w
    (m.after 14).isFinal = true ∧
      (m.after 14).world.env = [3, 0] ∧ (m.after 14).world.depth = 7 := by
  intro w body callee m
  have hfinal : (m.after 14).isFinal = true := rfl
  exact ⟨hfinal, environment_and_depth_restored.1 [] w m (m.after 14) (.call callee [] 1)
    (returns_of_isFinal hfinal)⟩

end Lox
