import Lox.Proofs.Lines.World

/-!
# Moving a run

Lines are passed on and reported, and nothing is decided by them; and what follows a program is not
looked at before the program has ended. So a program does the same on other lines and before other
statements. Line 0, which stands for no line of a text, stays as it is.
-/

set_option autoImplicit false

namespace Lox

def Completion.mapLines (f : Nat → Nat) : Completion → Completion
  | .normal => .normal
  | .returned value => .returned (value.mapLines f)
  | .broken => .broken

/-- The frame where lines are changed by `f` and `more` follows the statements of the top level. -/
def Frame.moved (f : Nat → Nat) (more : List Stmt) : Frame → Frame
  | .assign name slot => .assign (name.mapLine f) slot
  | .unary op line => .unary op (f line)
  | .left op operand line => .left op (operand.mapLines f) (f line)
  | .right op operand line => .right op (operand.mapLines f) (f line)
  | .logical op operand => .logical op (operand.mapLines f)
  | .callee arguments line => .callee (mapLinesInArguments f arguments) (f line)
  | .argument called before after line =>
    .argument (called.mapLines f) (before.map (Value.mapLines f)) (mapLinesInArguments f after)
      (f line)
  | .get name => .get (name.mapLine f)
  | .setTarget name value => .setTarget (name.mapLine f) (value.mapLines f)
  | .setField object name => .setField object (name.mapLine f)
  | .discard => .discard
  | .print => .print
  | .define name => .define (name.mapLine f)
  | .branch thenBranch elseBranch =>
    .branch (thenBranch.mapLines f) (elseBranch.map (Stmt.mapLines f))
  | .test condition body => .test (condition.mapLines f) (body.mapLines f)
  | .again condition body => .again (condition.mapLines f) (body.mapLines f)
  | .ret => .ret
  | .inherit name line methods => .inherit (name.mapLine f) (f line) (mapLinesInMethods f methods)
  | .sequence rest => .sequence (mapLinesInBody f rest)
  | .restore env => .restore env
  | .finish closure => .finish (closure.mapLines f)
  | .created object => .created (object.mapLines f)
  | .leave => .leave
  | .top line rest => .top (f line) (mapLinesInBody f rest ++ more)

def Focus.mapLines (f : Nat → Nat) : Focus → Focus
  | .evaluate e => .evaluate (e.mapLines f)
  | .execute s => .execute (s.mapLines f)
  | .value v => .value (v.mapLines f)
  | .completed c => .completed (c.mapLines f)
  | .failed e => .failed (e.mapLines f)

namespace Machine

def moved (f : Nat → Nat) (more : List Stmt) (m : Machine) : Machine :=
  ⟨m.focus.mapLines f, m.frames.map (Frame.moved f more), m.world.mapLines f⟩

section Functions
variable (f : Nat → Nat) (more : List Stmt) (frames : List Frame) (w : World)

theorem ofResult_moved (result : Except Error Value) :
    ofResult (mapLinesInResult f (Value.mapLines f) result) (frames.map (Frame.moved f more))
      (w.mapLines f) = (ofResult result frames w).moved f more := by
  cases result <;> rfl

theorem unary_mapLines (op : UnaryOp) (v : Value) (line : Nat) :
    op.apply (v.mapLines f) (f line) =
      mapLinesInResult f (Value.mapLines f) (op.apply v line) := by
  cases op <;> cases v <;> rfl

theorem binary_mapLines (op : BinaryOp) (v v' : Value) (line : Nat) :
    op.apply (v.mapLines f) (v'.mapLines f) (f line) =
      mapLinesInResult f (Value.mapLines f) (op.apply v v' line) := by
  have hnumbers (a b : Float) : op.applyNumbers a b (f line) =
      mapLinesInResult f (Value.mapLines f) (op.applyNumbers a b line) := by
    cases op with
    | divide =>
      unfold BinaryOp.applyNumbers
      dsimp only
      split <;> rfl
    | _ => rfl
  cases op with
  | equal => exact congrArg (fun b => Except.ok (Value.bool b)) (v.equals_mapLines f v')
  | notEqual => exact congrArg (fun b => Except.ok (Value.bool !b)) (v.equals_mapLines f v')
  | _ => cases v <;> cases v' <;> first | exact hnumbers _ _ | rfl

theorem decides_mapLines (op : LogicalOp) (v : Value) :
    op.decides (v.mapLines f) = op.decides v := by
  cases op <;> simp [LogicalOp.decides]

theorem enterBody_moved (body : List Stmt) :
    enterBody (mapLinesInBody f body) (frames.map (Frame.moved f more)) (w.mapLines f) =
      (enterBody body frames w).moved f more := by
  unfold enterBody
  rw [World.defineFunctions_mapLines]
  rfl

theorem enterScope_moved (bindings : Bindings Value) (outer : Env) (body : List Stmt) :
    enterScope (bindings.map (Value.mapLines f)) outer (mapLinesInBody f body)
      (frames.map (Frame.moved f more)) (w.mapLines f) =
      (enterScope bindings outer body frames w).moved f more := by
  unfold enterScope
  rw [World.newScope_mapLines]
  exact enterBody_moved f more (.restore w.env :: frames)
    { (w.newScope bindings).2 with env := (w.newScope bindings).1 :: outer } body

theorem enterFunction_moved (closure : Closure) (arguments : List Value) :
    enterFunction (closure.mapLines f) (arguments.map (Value.mapLines f))
      (frames.map (Frame.moved f more)) (w.mapLines f) =
      (enterFunction closure arguments frames w).moved f more := by
  have hnames : (closure.mapLines f).decl.params.map Ident.name =
      closure.decl.params.map Ident.name := by
    simp [Closure.mapLines, Function.comp_def, Ident.mapLine]
  have hbody : (closure.mapLines f).decl.body = mapLinesInBody f closure.decl.body :=
    closure.decl.body_mapLines f
  have hbindings := Bindings.empty.putAll_map (Value.mapLines f)
    (closure.decl.params.map Ident.name) arguments
  unfold enterFunction
  dsimp only
  rw [hnames, hbody]
  refine Eq.trans ?_ (enterScope_moved f more (.finish closure :: frames) w _ closure.env _)
  rw [← hbindings]
  rfl

theorem functionResult_mapLines (closure : Closure) (c : Completion) :
    functionResult (closure.mapLines f) (c.mapLines f) (w.mapLines f) =
      mapLinesInResult f (Value.mapLines f) (functionResult closure c w) := by
  obtain ⟨decl, env, isInitializer⟩ := closure
  cases isInitializer with
  | true =>
    have hget := w.store.getAt_mapLines f env 0 "this" decl.line
    rw [← decl.line_mapLines f] at hget
    exact hget
  | false =>
    cases c with
    | normal | returned => rfl
    | broken =>
      exact congrArg (fun text => Except.error (Error.internal (.breakEscaped text)))
        (Closure.display_mapLines f ⟨decl, env, false⟩)

theorem callNative_moved (native : Native) (arguments : List Value) (line : Nat) :
    callNative native (arguments.map (Value.mapLines f)) (f line)
      (frames.map (Frame.moved f more)) (w.mapLines f) =
      (callNative native arguments line frames w).moved f more := by
  cases native with
  | clock | fails => rfl
  | failWith | typeOf | str =>
    rcases arguments with _ | ⟨v, _ | ⟨v', rest⟩⟩
    · rfl
    · simp only [List.map, callNative, Value.display_mapLines, Value.type_mapLines]
      rfl
    · rfl
  | same =>
    rcases arguments with _ | ⟨v, _ | ⟨v', _ | ⟨v'', rest⟩⟩⟩
    · rfl
    · rfl
    · simp only [List.map, callNative, Value.equals_mapLines]
      rfl
    · rfl

theorem instantiate_moved (cls : Class) (arguments : List Value) :
    instantiate (cls.mapLines f) (arguments.map (Value.mapLines f))
      (frames.map (Frame.moved f more)) (w.mapLines f) =
      (instantiate cls arguments frames w).moved f more := by
  unfold instantiate
  rw [World.newObject_mapLines]
  dsimp only
  rw [Class.findMethod?_mapLines]
  cases cls.findMethod? Class.initializerName with
  | none => rfl
  | some initializer =>
    have hbind := w.newObject.2.bind_mapLines f initializer (.object w.newObject.1 cls)
    dsimp only [Option.map_some, Value.mapLines] at hbind ⊢
    rw [hbind]
    exact enterFunction_moved f more (.created (.object w.newObject.1 cls) :: frames)
      (w.newObject.2.bind initializer (.object w.newObject.1 cls)).2 _ arguments

theorem invoke_moved (callee : Value) (arguments : List Value) (line : Nat) :
    invoke (callee.mapLines f) (arguments.map (Value.mapLines f)) (f line)
      (frames.map (Frame.moved f more)) (w.mapLines f) =
      (invoke callee arguments line frames w).moved f more := by
  cases callee with
  | function id closure | method id closure => apply enterFunction_moved
  | native id native => apply callNative_moved
  | classRef cls => apply instantiate_moved
  | _ => rfl

theorem call_moved (callee : Value) (arguments : List Value) (line : Nat) :
    call (callee.mapLines f) (arguments.map (Value.mapLines f)) (f line)
      (frames.map (Frame.moved f more)) (w.mapLines f) =
      (call callee arguments line frames w).moved f more := by
  unfold call
  rw [Value.arity?_mapLines, Value.type_mapLines, List.length_map]
  split
  · rfl
  split
  · rfl
  by_cases hfull : w.maxDepth ≤ w.depth
  · have hfull' : (w.mapLines f).maxDepth ≤ (w.mapLines f).depth := hfull
    rw [if_pos hfull, if_pos hfull']
    rfl
  · have hroom : ¬ (w.mapLines f).maxDepth ≤ (w.mapLines f).depth := hfull
    rw [if_neg hfull, if_neg hroom]
    exact invoke_moved f more (.leave :: frames) { w with depth := w.depth + 1 } callee arguments
      line

theorem methodTable_mapLines (env : Env) (methods : List FunDecl) :
    methodTable env (mapLinesInMethods f methods) =
      (methodTable env methods).map (Closure.mapLines f) := by
  unfold methodTable
  change List.foldl _ (Bindings.empty.map (Closure.mapLines f)) _ = _
  generalize (Bindings.empty : Bindings Closure) = table
  induction methods generalizing table with
  | nil => rfl
  | cons decl decls ih =>
    obtain ⟨name, params, body, line⟩ := decl
    cases name with
    | none => exact ih table
    | some name =>
      have hput := table.put_map (Closure.mapLines f) name.name
        ⟨⟨some name, params, body, line⟩, env, name.name == Class.initializerName⟩
      rw [mapLinesInMethods, List.foldl_cons, List.foldl_cons, ← ih]
      exact congrArg (fun table => List.foldl _ table _) hput

theorem finishClass_moved (name : Ident) (env : Env) (inherited : List Layer)
    (methods : List FunDecl) :
    finishClass (name.mapLine f) env (inherited.map (Layer.mapLines f))
        (mapLinesInMethods f methods) (frames.map (Frame.moved f more)) (w.mapLines f) =
      (finishClass name env inherited methods frames w).moved f more := by
  have hassign := w.newId.2.store.assign_mapLines f w.newId.2.env name.name
    (.classRef ⟨⟨w.newId.1, name.name, methodTable env methods⟩, inherited⟩) name.line
  dsimp only [Value.mapLines, Class.mapLines, Layer.mapLines] at hassign
  unfold finishClass
  rw [methodTable_mapLines, World.newId_mapLines]
  dsimp only [Ident.mapLine, World.mapLines]
  rw [hassign]
  dsimp only
  cases (w.newId.2.store.assign w.newId.2.env name.name
    (.classRef ⟨⟨w.newId.1, name.name, methodTable env methods⟩, inherited⟩) name.line).1 <;> rfl

theorem makeClass_moved (name : Ident) (superclass : Option Class) (methods : List FunDecl) :
    makeClass (name.mapLine f) (superclass.map (Class.mapLines f)) (mapLinesInMethods f methods)
      (frames.map (Frame.moved f more)) (w.mapLines f) =
      (makeClass name superclass methods frames w).moved f more := by
  have hdefine : (w.mapLines f).define (name.mapLine f).name .nil =
      (w.define name.name .nil).mapLines f := w.define_mapLines f name.name .nil
  cases superclass with
  | none =>
    rw [Option.map_none, makeClass_none, makeClass_none, hdefine, ← finishClass_moved]
    rfl
  | some parent =>
    have hscope : ((w.define name.name .nil).mapLines f).newScope
        (.single "super" (.classRef (parent.mapLines f))) = _ :=
      (w.define name.name .nil).newScope_mapLines f (.single "super" (.classRef parent))
    have hsize : ((w.define name.name .nil).mapLines f).store.scopes.size =
        (w.define name.name .nil).store.scopes.size := Array.size_map
    rw [Option.map_some, makeClass_some, makeClass_some, hdefine, hscope, hsize,
      ← finishClass_moved]
    rfl

theorem getProperty_moved (id : ObjectId) (cls : Class) (name : Ident) :
    getProperty id (cls.mapLines f) (name.mapLine f) (frames.map (Frame.moved f more))
      (w.mapLines f) = (getProperty id cls name frames w).moved f more := by
  have hfield : (w.mapLines f).store.field? id name.name =
      (w.store.field? id name.name).map (Value.mapLines f) := w.store.field?_mapLines f id name.name
  have hmethod := cls.findMethod?_mapLines f name.name
  unfold getProperty
  dsimp only [Ident.mapLine]
  rw [hfield, hmethod]
  cases w.store.field? id name.name with
  | some v => rfl
  | none =>
    cases cls.findMethod? name.name with
    | none => rfl
    | some method =>
      have hbound := w.boundMethod_mapLines f method (.object id cls)
      dsimp only [Option.map_none, Option.map_some, Value.mapLines] at hbound ⊢
      rw [hbound]
      rfl

theorem superParts_mapLines (line : Nat) (slot : Slot) :
    superParts (f line) slot (w.mapLines f) =
      mapLinesInResult f (fun parts => (parts.1.mapLines f, parts.2.mapLines f))
        (superParts line slot w) := by
  rcases slot with _ | distance | _
  · rfl
  · have hsuper : (w.mapLines f).store.getAt (w.mapLines f).env distance "super" (f line) =
        mapLinesInResult f (Value.mapLines f) (w.store.getAt w.env distance "super" line) :=
      w.store.getAt_mapLines f w.env distance "super" line
    unfold superParts
    dsimp only
    rw [hsuper]
    cases w.store.getAt w.env distance "super" line with
    | error e => rfl
    | ok v =>
      cases v with
      | classRef cls =>
        cases distance with
        | zero => rfl
        | succ distance =>
          have hthis : (w.mapLines f).store.getAt (w.mapLines f).env distance "this" (f line) =
              mapLinesInResult f (Value.mapLines f) (w.store.getAt w.env distance "this" line) :=
            w.store.getAt_mapLines f w.env distance "this" line
          dsimp only [mapLinesInResult, Value.mapLines, bind, Except.bind]
          rw [hthis]
          cases w.store.getAt w.env distance "this" line with
          | error e => rfl
          | ok v' => cases v' <;> rfl
      | _ => rfl
  · rfl

theorem evaluateSuper_moved (line : Nat) (method : Ident) (slot : Slot) :
    evaluateSuper (f line) (method.mapLine f) slot (frames.map (Frame.moved f more))
      (w.mapLines f) = (evaluateSuper line method slot frames w).moved f more := by
  unfold evaluateSuper
  rw [superParts_mapLines]
  cases superParts line slot w with
  | error e => rfl
  | ok parts =>
    obtain ⟨cls, receiver⟩ := parts
    have hmethod := cls.findMethod?_mapLines f method.name
    dsimp only [mapLinesInResult, Ident.mapLine]
    rw [hmethod]
    cases cls.findMethod? method.name with
    | none => rfl
    | some found =>
      have hbound := w.boundMethod_mapLines f found receiver
      dsimp only [Option.map_some]
      rw [hbound]
      rfl

theorem evaluate_moved (e : Expr) :
    evaluate (e.mapLines f) (frames.map (Frame.moved f more)) (w.mapLines f) =
      (evaluate e frames w).moved f more := by
  cases e with
  | literal value line =>
    exact congrArg (fun v => Machine.mk (.value v) _ _) (Value.ofLiteral_mapLines f value).symm
  | «variable» name slot =>
    have hread := w.read_mapLines f name.name name.line slot
    refine Eq.trans ?_ (ofResult_moved f more frames w (w.read name.name name.line slot))
    rw [← hread]
    rfl
  | this line slot =>
    have hread := w.read_mapLines f "this" line slot
    refine Eq.trans ?_ (ofResult_moved f more frames w (w.read "this" line slot))
    rw [← hread]
    rfl
  | super line method slot => exact evaluateSuper_moved f more frames w line method slot
  | _ => rfl

theorem execute_moved (s : Stmt) :
    execute (s.mapLines f) (frames.map (Frame.moved f more)) (w.mapLines f) =
      (execute s frames w).moved f more := by
  cases s with
  | var name initializer =>
    cases initializer with
    | none =>
      exact congrArg (Machine.mk (.completed .normal) _) (w.define_mapLines f name.name .nil)
    | some value => rfl
  | block body => exact enterScope_moved f more frames w .empty w.env body
  | cond condition thenBranch elseBranch => cases elseBranch <;> rfl
  | function decl =>
    exact congrArg (Machine.mk (.completed .normal) _) (w.defineFunction_mapLines f decl)
  | ret line value => cases value <;> rfl
  | classDecl name superclass methods =>
    rcases superclass with _ | ⟨parent, slot⟩
    · exact makeClass_moved f more frames w name none methods
    · rfl
  | _ => rfl

theorem passValue_moved (v : Value) (frame : Frame) :
    passValue (v.mapLines f) (frame.moved f more) (frames.map (Frame.moved f more)) (w.mapLines f) =
      (passValue v frame frames w).moved f more := by
  cases frame with
  | assign name slot =>
    have hassign := w.assign_mapLines f name v slot
    dsimp only [passValue, Frame.moved]
    rw [hassign]
    cases (w.assign name v slot).1 <;> rfl
  | unary op line =>
    refine Eq.trans ?_ (ofResult_moved f more frames w (op.apply v line))
    rw [← unary_mapLines]
    rfl
  | right op left line =>
    refine Eq.trans ?_ (ofResult_moved f more frames w (op.apply left v line))
    rw [← binary_mapLines]
    rfl
  | logical op right =>
    dsimp only [passValue, Frame.moved]
    rw [decides_mapLines]
    split <;> rfl
  | callee arguments line =>
    cases arguments with
    | nil => exact call_moved f more frames w v [] line
    | cons first rest => rfl
  | argument callee before after line =>
    cases after with
    | nil =>
      have hcall := call_moved f more frames w callee (v :: before).reverse line
      rw [List.map_reverse] at hcall
      exact hcall
    | cons next rest => rfl
  | get name =>
    cases v with
    | object id cls => exact getProperty_moved f more frames w id cls name
    | _ => rfl
  | setTarget name value => cases v <;> rfl
  | setField id name =>
    exact congrArg (Machine.mk _ _) (w.setField_mapLines f id name.name v)
  | print =>
    have hprint : (w.mapLines f).print v.display =
        ((w.print v.display).1, (w.print v.display).2.mapLines f) := rfl
    dsimp only [passValue, Frame.moved]
    rw [Value.display_mapLines, hprint]
    dsimp only
    split <;> rfl
  | define name => exact congrArg (Machine.mk _ _) (w.define_mapLines f name.name v)
  | branch thenBranch elseBranch =>
    dsimp only [passValue, Frame.moved]
    rw [Value.isTruthy_mapLines]
    split
    · rfl
    · cases elseBranch <;> rfl
  | test condition body =>
    dsimp only [passValue, Frame.moved]
    rw [Value.isTruthy_mapLines]
    split <;> rfl
  | inherit name line methods =>
    cases v with
    | classRef cls => exact makeClass_moved f more frames w name (some cls) methods
    | _ => rfl
  | _ => rfl

theorem inspectCompletion_mapLines (c : Completion) :
    inspectCompletion (w.mapLines f) (c.mapLines f) = inspectCompletion w c := by
  cases c with
  | normal | broken => rfl
  | returned v => exact congrArg (fun text => s!"Return({text})") (w.inspect_mapLines f v)

theorem passCompletion_moved (hf : f 0 = 0) (c : Completion) (frame : Frame)
    (hend : more = [] ∨ ∀ line, c = .normal → frame ≠ .top line []) :
    passCompletion (c.mapLines f) (frame.moved f more) (frames.map (Frame.moved f more))
      (w.mapLines f) = (passCompletion c frame frames w).moved f more := by
  cases frame with
  | sequence rest =>
    cases rest with
    | nil => cases c <;> rfl
    | cons s rest =>
      cases c with
      | normal =>
        cases hs : s.isFunction with
        | true =>
          cases s with
          | function decl => rfl
          | _ => cases hs
        | false =>
          have hs' : (s.mapLines f).isFunction = false := by rw [s.isFunction_mapLines, hs]
          rw [passCompletion_sequence hs]
          exact passCompletion_sequence hs' _ _ _
      | returned | broken =>
        rw [passCompletion_sequence_of_ne (by simp)]
        exact passCompletion_sequence_of_ne (by simp [Completion.mapLines]) _ _ _
  | again condition body => cases c <;> rfl
  | finish closure =>
    refine Eq.trans ?_ (ofResult_moved f more frames w (functionResult closure c w))
    rw [← functionResult_mapLines]
    cases c <;> rfl
  | top line rest =>
    cases c with
    | normal =>
      cases rest with
      | nil =>
        obtain rfl : more = [] := hend.resolve_right fun h => h line rfl rfl
        rfl
      | cons s rest =>
        exact congrArg (fun line => Machine.mk _ (.top line _ :: _) _) (s.line_mapLines f hf)
    | returned | broken =>
      rw [passCompletion_top_of_ne (by simp)]
      refine (passCompletion_top_of_ne (by simp [Completion.mapLines]) _ _ _ _).trans ?_
      rw [inspectCompletion_mapLines]
      rfl
  | _ => cases c <;> rfl

theorem passError_moved (e : Error) (frame : Frame) :
    passError (e.mapLines f) (frame.moved f more) (frames.map (Frame.moved f more)) (w.mapLines f) =
      (passError e frame frames w).moved f more := by
  cases frame <;> rfl

end Functions

/-! ## Steps and runs -/

section Runs
variable {f : Nat → Nat} (hf : f 0 = 0)
include hf

theorem step_moved {more : List Stmt} {m : Machine} (hend : more = [] ∨ ¬ m.AtEnd) :
    (m.moved f more).step = m.step.moved f more := by
  obtain ⟨focus, frames, w⟩ := m
  cases focus with
  | evaluate e => exact evaluate_moved f more frames w e
  | execute s => exact execute_moved f more frames w s
  | value v =>
    cases frames with
    | nil => rfl
    | cons frame frames => exact passValue_moved f more frames w v frame
  | completed c =>
    cases frames with
    | nil => rfl
    | cons frame frames =>
      apply passCompletion_moved f more frames w hf c frame
      refine hend.imp_right fun hend line hc hframe => hend ?_
      subst hc hframe
      exact ⟨line, frames, w, rfl⟩
  | failed e =>
    cases frames with
    | nil => rfl
    | cons frame frames => exact passError_moved f more frames w e frame

theorem after_moved {more : List Stmt} {m : Machine} {n : Nat}
    (hend : more = [] ∨ ∀ i < n, ¬ (m.after i).AtEnd) :
    (m.moved f more).after n = (m.after n).moved f more := by
  induction n with
  | zero => rfl
  | succ n ih =>
    have hbefore := ih (hend.imp_right fun h i hi => h i (Nat.lt_succ_of_lt hi))
    change ((m.moved f more).after n).step = _
    rw [hbefore]
    exact step_moved hf (hend.imp_right fun h => h n (Nat.lt_succ_self n))

end Runs

end Machine

namespace Session

/-- How a run ended and the session that it left, with the lines of both changed. -/
def mapLinesInRun (f : Nat → Nat) (r : Except Error Unit × Session) : Except Error Unit × Session :=
  (mapLinesInResult f id r.1, r.2.mapLines f)

/-- A program does the same whatever the lines in it and in its session are. -/
theorem runTree_mapLines {f : Nat → Nat} (hf : f 0 = 0) (fuel : Nat) (p : Program) (s : Session) :
    runTree fuel (p.mapLines f) (s.mapLines f) = (runTree fuel p s).map (mapLinesInRun f) := by
  have hrunning : Machine.running (p.mapLines f) (s.mapLines f) =
      (Machine.running p s).moved f [] := by
    unfold Machine.running Machine.moved
    rw [List.map_cons, Frame.moved, hf, List.append_nil]
    rfl
  unfold runTree
  rw [Machine.run_eq_after, Machine.run_eq_after, hrunning, Machine.after_moved hf (.inl rfl)]
  generalize (Machine.running p s).after fuel = m
  obtain ⟨focus, frames, w⟩ := m
  cases frames with
  | cons frame frames => cases focus <;> rfl
  | nil =>
    cases focus with
    | evaluate | execute | failed => rfl
    | value | completed =>
      obtain ⟨store, env, depth, maxDepth, ⟨written, room, refusesFlush⟩, clock⟩ := w
      cases refusesFlush <;> rfl

end Session

end Lox
