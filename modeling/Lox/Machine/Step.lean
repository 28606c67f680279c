import Lox.Machine.Basic
import Lox.Machine.Operators

/-!
# Steps

What a machine does next. A step looks at the focus and at the innermost frame only, and is not
recursive, so nested expressions and calls take room in the list of frames alone.
-/

set_option autoImplicit false

namespace Lox.Machine

def failing (e : Error) (frames : List Frame) (w : World) : Machine :=
  ⟨.failed e, frames, w⟩

def ofResult (result : Except Error Value) (frames : List Frame) (w : World) : Machine :=
  match result with
  | .ok v => ⟨.value v, frames, w⟩
  | .error e => ⟨.failed e, frames, w⟩

/-! ## Bodies and calls -/

/-- Starts on the statements of a body, its functions first. -/
def enterBody (body : List Stmt) (frames : List Frame) (w : World) : Machine :=
  ⟨.completed .normal, .sequence body :: frames, w.defineFunctions body⟩

/-- Starts on a body in a new scope within `outer`. -/
def enterScope (bindings : Bindings Value) (outer : Env) (body : List Stmt) (frames : List Frame)
    (w : World) : Machine :=
  let before := w.env
  let (id, w) := w.newScope bindings
  enterBody body (.restore before :: frames) { w with env := id :: outer }

/-- Starts on a function's body. -/
def enterFunction (closure : Closure) (arguments : List Value) (frames : List Frame)
    (w : World) : Machine :=
  let bindings := Bindings.empty.putAll (closure.decl.params.map Ident.name) arguments
  enterScope bindings closure.env closure.decl.body (.finish closure :: frames) w

/-- The value of a function whose body has ended. An initializer yields its receiver. -/
def functionResult (closure : Closure) (c : Completion) (w : World) : Except Error Value :=
  if closure.isInitializer then
    w.store.getAt closure.env 0 "this" closure.decl.line
  else match c with
    | .returned v => .ok v
    | .normal => .ok .nil
    | .broken => .error (.internal (.breakEscaped closure.display))

def callNative (native : Native) (arguments : List Value) (line : Nat) (frames : List Frame)
    (w : World) : Machine :=
  match native, arguments with
  | .clock, _ =>
    let (x, w) := w.readClock
    ⟨.value (.number x), frames, w⟩
  | .typeOf, [v] => ⟨.value (.string v.type.text), frames, w⟩
  | .str, [v] => ⟨.value (.string v.display), frames, w⟩
  | .same, [a, b] => ⟨.value (.bool (a.equals b)), frames, w⟩
  | .failWith, [v] => failing (.runtime (.other v.display) line) frames w
  | _, _ => failing (.runtime (.other "host function failed") line) frames w

/-- Starts on a class's initializer, if it has one, with a new instance. -/
def instantiate (cls : Class) (arguments : List Value) (frames : List Frame) (w : World) :
    Machine :=
  let (id, w) := w.newObject
  let object := Value.object id cls
  match cls.findMethod? Class.initializerName with
  | none => ⟨.value object, frames, w⟩
  | some initializer =>
    let (closure, w) := w.bind initializer object
    enterFunction closure arguments (.created object :: frames) w

/-- Starts on a call whose callee takes these arguments. -/
def invoke (callee : Value) (arguments : List Value) (line : Nat) (frames : List Frame)
    (w : World) : Machine :=
  match callee with
  | .function _ closure => enterFunction closure arguments frames w
  | .method _ closure => enterFunction closure arguments frames w
  | .native _ native => callNative native arguments line frames w
  | .classRef cls => instantiate cls arguments frames w
  | v => ⟨.value v, frames, w⟩

/-- Calls a value. The callee must be callable, then the number of arguments must fit, and then
there must be room for one more open call. -/
def call (callee : Value) (arguments : List Value) (line : Nat) (frames : List Frame)
    (w : World) : Machine :=
  match callee.arity? with
  | none => failing (.runtime (.notCallable callee.type) line) frames w
  | some arity =>
    if arguments.length ≠ arity then
      failing (.runtime (.wrongArity arity arguments.length) line) frames w
    else if w.maxDepth ≤ w.depth then
      failing (.stackOverflow line) frames w
    else
      invoke callee arguments line (.leave :: frames) { w with depth := w.depth + 1 }

/-! ## Classes and instances -/

def methodTable (env : Env) (methods : List FunDecl) : Bindings Closure :=
  methods.foldl (fun table decl =>
    match decl.name with
    | none => table
    | some name => table.put name.name ⟨decl, env, name.name == Class.initializerName⟩) .empty

/-- Declares a class. Its name is bound before its methods are made, and its methods see the
superclass in a scope of their own. -/
def makeClass (name : Ident) (superclass : Option Class) (methods : List FunDecl)
    (frames : List Frame) (w : World) : Machine :=
  let w := w.define name.name .nil
  let (env, w) := match superclass with
    | none => (w.env, w)
    | some parent =>
      let outer := w.env
      let (id, w) := w.newScope (.single "super" (.classRef parent))
      (id :: outer, w)
  let (id, w) := w.newId
  let inherited := match superclass with
    | none => []
    | some parent => parent.own :: parent.inherited
  let cls : Class := ⟨⟨id, name.name, methodTable env methods⟩, inherited⟩
  let (done, store) := w.store.assign w.env name.name (.classRef cls) name.line
  let w := { w with store := store }
  match done with
  | .ok () => ⟨.completed .normal, frames, w⟩
  | .error e => failing e frames w

/-- Reads a field, or else binds a method. -/
def getProperty (id : ObjectId) (cls : Class) (name : Ident) (frames : List Frame) (w : World) :
    Machine :=
  match w.store.field? id name.name with
  | some v => ⟨.value v, frames, w⟩
  | none =>
    match cls.findMethod? name.name with
    | some method =>
      let (v, w) := w.boundMethod method (.object id cls)
      ⟨.value v, frames, w⟩
    | none => failing (.runtime (.undefinedProperty name.name) name.line) frames w

/-- The superclass and the receiver that an occurrence of `super` refers to. The receiver is
bound one scope inside the superclass. -/
def superParts (line : Nat) (slot : Slot) (w : World) : Except Error (Class × Value) :=
  match slot with
  | some (.atDistance d) => do
    match ← w.store.getAt w.env d "super" line with
    | .classRef cls =>
      match d with
      | 0 => .error (.internal (.superAtDistanceZero line))
      | d + 1 =>
        match ← w.store.getAt w.env d "this" line with
        | .object id own => .ok (cls, .object id own)
        | _ => .error (.internal (.thisNotInstance line))
    | _ => .error (.internal (.superNotClass line))
  | _ => .error (.internal (.unresolved "super" line))

def evaluateSuper (line : Nat) (method : Ident) (slot : Slot) (frames : List Frame) (w : World) :
    Machine :=
  match superParts line slot w with
  | .error e => failing e frames w
  | .ok (cls, receiver) =>
    match cls.findMethod? method.name with
    | some found =>
      let (v, w) := w.boundMethod found receiver
      ⟨.value v, frames, w⟩
    | none => failing (.runtime (.undefinedProperty method.name) method.line) frames w

/-! ## The kinds of steps -/

def evaluate (e : Expr) (frames : List Frame) (w : World) : Machine :=
  match e with
  | .literal value _ => ⟨.value (.ofLiteral value), frames, w⟩
  | .group inner => ⟨.evaluate inner, frames, w⟩
  | .variable name slot => ofResult (w.read name.name name.line slot) frames w
  | .assign name value slot => ⟨.evaluate value, .assign name slot :: frames, w⟩
  | .unary op operand line => ⟨.evaluate operand, .unary op line :: frames, w⟩
  | .binary op left right line => ⟨.evaluate left, .left op right line :: frames, w⟩
  | .logical op left right _ => ⟨.evaluate left, .logical op right :: frames, w⟩
  | .call callee arguments line => ⟨.evaluate callee, .callee arguments line :: frames, w⟩
  | .get object name => ⟨.evaluate object, .get name :: frames, w⟩
  | .set object name value => ⟨.evaluate object, .setTarget name value :: frames, w⟩
  | .this line slot => ofResult (w.read "this" line slot) frames w
  | .super line method slot => evaluateSuper line method slot frames w
  | .lambda decl =>
    let (f, w) := w.makeFunction decl
    ⟨.value f, frames, w⟩

def execute (s : Stmt) (frames : List Frame) (w : World) : Machine :=
  match s with
  | .expression value => ⟨.evaluate value, .discard :: frames, w⟩
  | .print value => ⟨.evaluate value, .print :: frames, w⟩
  | .var name none => ⟨.completed .normal, frames, w.define name.name .nil⟩
  | .var name (some value) => ⟨.evaluate value, .define name :: frames, w⟩
  | .block body =>
    let outer := w.env
    enterScope .empty outer body frames w
  | .cond condition thenBranch elseBranch =>
    ⟨.evaluate condition, .branch thenBranch elseBranch :: frames, w⟩
  | .loop condition body => ⟨.evaluate condition, .test condition body :: frames, w⟩
  | .function decl => ⟨.completed .normal, frames, w.defineFunction decl⟩
  | .ret _ none => ⟨.completed (.returned .nil), frames, w⟩
  | .ret _ (some value) => ⟨.evaluate value, .ret :: frames, w⟩
  | .brk _ => ⟨.completed .broken, frames, w⟩
  | .classDecl name none methods => makeClass name none methods frames w
  | .classDecl name (some (parent, slot)) methods =>
    ⟨.evaluate (.variable parent slot), .inherit name parent.line methods :: frames, w⟩

/-- Hands a value to the frame that waits for it. A frame that waits for a completion lets it
pass. -/
def passValue (v : Value) (frame : Frame) (frames : List Frame) (w : World) : Machine :=
  match frame with
  | .assign name slot =>
    let (done, w) := w.assign name v slot
    match done with
    | .ok () => ⟨.value v, frames, w⟩
    | .error e => failing e frames w
  | .unary op line => ofResult (op.apply v line) frames w
  | .left op right line => ⟨.evaluate right, .right op v line :: frames, w⟩
  | .right op left line => ofResult (op.apply left v line) frames w
  | .logical op right =>
    if op.decides v then ⟨.value v, frames, w⟩ else ⟨.evaluate right, frames, w⟩
  | .callee [] line => call v [] line frames w
  | .callee (first :: rest) line => ⟨.evaluate first, .argument v [] rest line :: frames, w⟩
  | .argument callee before [] line => call callee (v :: before).reverse line frames w
  | .argument callee before (next :: rest) line =>
    ⟨.evaluate next, .argument callee (v :: before) rest line :: frames, w⟩
  | .get name =>
    match v with
    | .object id cls => getProperty id cls name frames w
    | _ => failing (.runtime .propertyOfNonInstance name.line) frames w
  | .setTarget name value =>
    match v with
    | .object id _ => ⟨.evaluate value, .setField id name :: frames, w⟩
    | _ => failing (.runtime .fieldOfNonInstance name.line) frames w
  | .setField id name => ⟨.value v, frames, w.setField id name.name v⟩
  | .discard => ⟨.completed .normal, frames, w⟩
  | .print =>
    let (done, w) := w.print v.display
    if done then ⟨.completed .normal, frames, w⟩ else failing (.io .sinkFull) frames w
  | .define name => ⟨.completed .normal, frames, w.define name.name v⟩
  | .branch thenBranch elseBranch =>
    if v.isTruthy then ⟨.execute thenBranch, frames, w⟩
    else match elseBranch with
      | some s => ⟨.execute s, frames, w⟩
      | none => ⟨.completed .normal, frames, w⟩
  | .test condition body =>
    if v.isTruthy then ⟨.execute body, .again condition body :: frames, w⟩
    else ⟨.completed .normal, frames, w⟩
  | .ret => ⟨.completed (.returned v), frames, w⟩
  | .inherit name line methods =>
    match v with
    | .classRef cls => makeClass name (some cls) methods frames w
    | _ => failing (.runtime .superclassNotClass line) frames w
  | .created object => ⟨.value object, frames, w⟩
  | .leave => ⟨.value v, frames, { w with depth := w.depth - 1 }⟩
  | _ => ⟨.value v, frames, w⟩

/-- The text of a completion for inspection. -/
def inspectCompletion (w : World) : Completion → String
  | .normal => "Normal"
  | .broken => "Break"
  | .returned v => s!"Return({w.inspect v})"

/-- Hands a completion to the frame that waits for it. A frame that waits for a value lets it
pass. -/
def passCompletion (c : Completion) (frame : Frame) (frames : List Frame) (w : World) : Machine :=
  match frame, c with
  | .sequence [], .normal => ⟨.completed .normal, frames, w⟩
  | .sequence (.function _ :: rest), .normal =>
    ⟨.completed .normal, .sequence rest :: frames, w⟩
  | .sequence (s :: rest), .normal => ⟨.execute s, .sequence rest :: frames, w⟩
  | .again condition body, .normal =>
    ⟨.evaluate condition, .test condition body :: frames, w⟩
  | .again _ _, .broken => ⟨.completed .normal, frames, w⟩
  | .restore env, c => ⟨.completed c, frames, { w with env := env }⟩
  | .finish closure, c => ofResult (functionResult closure c w) frames w
  | .top _ [], .normal => ⟨.completed .normal, frames, w⟩
  | .top _ (s :: rest), .normal => ⟨.execute s, .top s.line rest :: frames, w⟩
  | .top line _, signal =>
    failing (.internal (.signalAtTop (inspectCompletion w signal) line)) frames w
  | _, c => ⟨.completed c, frames, w⟩

/-- Takes an error past a frame. Scopes and open calls go back to what they were outside it. -/
def passError (e : Error) (frame : Frame) (frames : List Frame) (w : World) : Machine :=
  match frame with
  | .restore env => ⟨.failed e, frames, { w with env := env }⟩
  | .leave => ⟨.failed e, frames, { w with depth := w.depth - 1 }⟩
  | .top _ _ => ⟨.failed e, frames, w.reset⟩
  | _ => ⟨.failed e, frames, w⟩

/-- One step; a machine with nothing left to do stays as it is. -/
def step (m : Machine) : Machine :=
  match m with
  | ⟨.evaluate e, frames, w⟩ => evaluate e frames w
  | ⟨.execute s, frames, w⟩ => execute s frames w
  | ⟨.value v, frame :: frames, w⟩ => passValue v frame frames w
  | ⟨.completed c, frame :: frames, w⟩ => passCompletion c frame frames w
  | ⟨.failed e, frame :: frames, w⟩ => passError e frame frames w
  | ⟨focus, [], w⟩ => ⟨focus, [], w⟩

/-- Up to `fuel` steps, fewer if there is nothing left to do. -/
def run : Nat → Machine → Machine
  | 0, m => m
  | fuel + 1, m => if m.isFinal then m else run fuel m.step

end Lox.Machine
