import Lox.Proofs.Lines.Syntax
import Lox.Proofs.Machine.Basic

/-!
# Line numbers of values

Functions keep the tree they were made from, so values and all that holds them carry lines. What
the world of a program does is the same whatever those lines are.
-/

set_option autoImplicit false

namespace Lox

namespace Bindings
variable {α β γ : Type}

def map (g : α → β) (b : Bindings α) : Bindings β :=
  ⟨b.entries.map fun entry => (entry.1, g entry.2)⟩

@[simp] theorem map_comp (g : α → β) (h : β → γ) : map h ∘ map g = map (h ∘ g) := by
  funext b
  simp [map, Function.comp_def]

@[simp] theorem map_id : map (id : α → α) = id := by
  funext b
  simp [map]

@[simp] theorem find?_map (g : α → β) (b : Bindings α) (name : String) :
    (b.map g).find? name = (b.find? name).map g := by
  obtain ⟨entries⟩ := b
  simp only [find?, map]
  induction entries with
  | nil => rfl
  | cons entry rest ih =>
    obtain ⟨n, a⟩ := entry
    cases h : name == n <;> simp [List.lookup_cons, h, ih]

@[simp] theorem names_map (g : α → β) (b : Bindings α) : (b.map g).names = b.names := by
  simp [map, names]

@[simp] theorem put_map (g : α → β) (b : Bindings α) (name : String) (a : α) :
    (b.map g).put name (g a) = (b.put name a).map g := by
  obtain ⟨entries⟩ := b
  simp only [put, map, mk.injEq]
  induction entries with
  | nil => rfl
  | cons entry rest ih =>
    simp only [List.map_cons, putEntry]
    split
    · rfl
    · simp [ih]

@[simp] theorem putAll_map (g : α → β) (b : Bindings α) (names : List String) (as : List α) :
    (b.map g).putAll names (as.map g) = (b.putAll names as).map g := by
  induction names generalizing b as with
  | nil => rfl
  | cons name names ih =>
    cases as with
    | nil => rfl
    | cons a as => simp [putAll, ih]

theorem modify_put_map (g : α → β) (bs : Array (Bindings α)) (i : Nat) (name : String) (a : α) :
    ((bs.map (map g)).modify i fun b => b.put name (g a)) =
      (bs.modify i fun b => b.put name a).map (map g) := by
  apply Array.ext_getElem?
  intro j
  simp only [Array.getElem?_map, Array.getElem?_modify]
  cases bs[j]? <;> by_cases hij : i = j <;> simp [hij]

end Bindings

/-! ## Values -/

def Closure.mapLines (f : Nat → Nat) (c : Closure) : Closure :=
  ⟨c.decl.mapLines f, c.env, c.isInitializer⟩

def Layer.mapLines (f : Nat → Nat) (layer : Layer) : Layer :=
  ⟨layer.id, layer.name, layer.methods.map (Closure.mapLines f)⟩

def Class.mapLines (f : Nat → Nat) (c : Class) : Class :=
  ⟨c.own.mapLines f, c.inherited.map (Layer.mapLines f)⟩

def Value.mapLines (f : Nat → Nat) : Value → Value
  | .nil => .nil
  | .bool b => .bool b
  | .number x => .number x
  | .string s => .string s
  | .function id closure => .function id (closure.mapLines f)
  | .method id closure => .method id (closure.mapLines f)
  | .native id host => .native id host
  | .classRef cls => .classRef (cls.mapLines f)
  | .object id cls => .object id (cls.mapLines f)

def Store.mapLines (f : Nat → Nat) (σ : Store) : Store :=
  ⟨σ.scopes.map (Bindings.map (Value.mapLines f)),
    σ.objects.map (Bindings.map (Value.mapLines f)), σ.nextId⟩

def World.mapLines (f : Nat → Nat) (w : World) : World :=
  { w with store := w.store.mapLines f }

/-! ## Errors -/

def InternalFault.mapLine (f : Nat → Nat) : InternalFault → InternalFault
  | .unresolved name line => .unresolved name (f line)
  | .scopeTooDeep name line => .scopeTooDeep name (f line)
  | .superNotClass line => .superNotClass (f line)
  | .superAtDistanceZero line => .superAtDistanceZero (f line)
  | .thisNotInstance line => .thisNotInstance (f line)
  | .breakEscaped function => .breakEscaped function
  | .signalAtTop signal line => .signalAtTop signal (f line)
  | .other text => .other text

mutual

def Error.mapLines (f : Nat → Nat) : Error → Error
  | .lex e => .lex ⟨f e.line, e.fault⟩
  | .parse e => .parse ⟨f e.line, e.location, e.fault⟩
  | .resolve e => .resolve ⟨f e.line, e.lexeme, e.fault⟩
  | .batch members => .batch (mapLinesInMembers f members)
  | .runtime fault line => .runtime fault (f line)
  | .stackOverflow line => .stackOverflow (f line)
  | .internal fault => .internal (fault.mapLine f)
  | .io fault => .io fault
  | .utf8 fault => .utf8 fault

def mapLinesInMembers (f : Nat → Nat) : List Error → List Error
  | [] => []
  | e :: es => e.mapLines f :: mapLinesInMembers f es

end

/-- What was computed, or the error, with the lines of either changed. -/
def mapLinesInResult {α : Type} (f : Nat → Nat) (g : α → α) : Except Error α → Except Error α
  | .ok a => .ok (g a)
  | .error e => .error (e.mapLines f)

/-! ## Laws -/

section Laws
variable (f g : Nat → Nat)

@[simp] theorem Closure.mapLines_comp : mapLines g ∘ mapLines f = mapLines (g ∘ f) := by
  funext c
  simp [mapLines]

@[simp] theorem Closure.mapLines_id : mapLines id = id := by
  funext c
  simp [mapLines]

@[simp] theorem Layer.mapLines_comp : mapLines g ∘ mapLines f = mapLines (g ∘ f) := by
  funext layer
  have hmethods :=
    congrFun (Bindings.map_comp (Closure.mapLines f) (Closure.mapLines g)) layer.methods
  simpa [mapLines] using hmethods

@[simp] theorem mapLines_id_layer : Layer.mapLines id = id := by
  funext layer
  simp [Layer.mapLines]

@[simp] theorem Class.mapLines_mapLines (c : Class) :
    (c.mapLines f).mapLines g = c.mapLines (g ∘ f) := by
  have hown := congrFun (Layer.mapLines_comp f g) c.own
  simpa [mapLines] using hown

@[simp] theorem Class.mapLines_id (c : Class) : c.mapLines id = c := by
  simp [mapLines]

@[simp] theorem Value.mapLines_comp : mapLines g ∘ mapLines f = mapLines (g ∘ f) := by
  funext v
  have hclosure (c : Closure) := congrFun (Closure.mapLines_comp f g) c
  cases v <;> simp_all [mapLines]

@[simp] theorem Value.mapLines_id : mapLines id = id := by
  funext v
  cases v <;> simp [mapLines]

theorem World.mapLines_mapLines (w : World) : (w.mapLines f).mapLines g = w.mapLines (g ∘ f) := by
  simp [mapLines, Store.mapLines]

theorem World.mapLines_id (w : World) : w.mapLines id = w := by
  simp [mapLines, Store.mapLines]

end Laws

/-! ## What values are -/

section Values
variable (f : Nat → Nat)

@[simp] theorem FunDecl.name_mapLines (decl : FunDecl) :
    (decl.mapLines f).name = decl.name.map (Ident.mapLine f) := by
  cases decl
  rfl

@[simp] theorem FunDecl.params_mapLines (decl : FunDecl) :
    (decl.mapLines f).params = decl.params.map (Ident.mapLine f) := by
  cases decl
  rfl

@[simp] theorem FunDecl.body_mapLines (decl : FunDecl) :
    (decl.mapLines f).body = mapLinesInBody f decl.body := by
  cases decl
  rfl

@[simp] theorem FunDecl.line_mapLines (decl : FunDecl) : (decl.mapLines f).line = f decl.line := by
  cases decl
  rfl

@[simp] theorem Closure.arity_mapLines (c : Closure) : (c.mapLines f).arity = c.arity := by
  simp [arity, mapLines]

@[simp] theorem Closure.display_mapLines (c : Closure) : (c.mapLines f).display = c.display := by
  obtain ⟨⟨name, params, body, line⟩, env, isInitializer⟩ := c
  cases name <;> rfl

@[simp] theorem Class.findMethod?_mapLines (c : Class) (name : String) :
    (c.mapLines f).findMethod? name = (c.findMethod? name).map (Closure.mapLines f) := by
  have hlayers : (c.mapLines f).own :: (c.mapLines f).inherited =
      (c.own :: c.inherited).map (Layer.mapLines f) := rfl
  unfold findMethod?
  rw [hlayers]
  induction c.own :: c.inherited with
  | nil => rfl
  | cons layer layers ih =>
    have hmethods : (layer.mapLines f).methods.find? name =
        (layer.methods.find? name).map (Closure.mapLines f) := Bindings.find?_map _ _ _
    rw [List.map_cons, List.findSome?_cons, List.findSome?_cons, hmethods, ih]
    cases layer.methods.find? name <;> rfl

@[simp] theorem Class.arity_mapLines (c : Class) : (c.mapLines f).arity = c.arity := by
  unfold arity
  rw [findMethod?_mapLines]
  cases c.findMethod? initializerName with
  | none => rfl
  | some method => exact method.arity_mapLines f

@[simp] theorem Class.name_mapLines (c : Class) : (c.mapLines f).name = c.name := rfl

@[simp] theorem Class.inspect_mapLines (c : Class) : (c.mapLines f).inspect = c.inspect := by
  have hnames : (c.mapLines f).own.methods.names = c.own.methods.names := Bindings.names_map _ _
  have hparent : (c.mapLines f).superclass? = c.superclass?.map (mapLines f) := by
    obtain ⟨own, inherited⟩ := c
    cases inherited <;> rfl
  unfold inspect
  rw [hnames, hparent, name_mapLines]
  cases c.superclass? <;> simp only [Option.map_none, Option.map_some, name_mapLines]

namespace Value

@[simp] theorem ofLiteral_mapLines (value : Literal) :
    (ofLiteral value).mapLines f = ofLiteral value := by
  cases value <;> rfl

@[simp] theorem isTruthy_mapLines (v : Value) : (v.mapLines f).isTruthy = v.isTruthy := by
  cases v <;> rfl

@[simp] theorem type_mapLines (v : Value) : (v.mapLines f).type = v.type := by
  cases v <;> rfl

@[simp] theorem equals_mapLines (v v' : Value) :
    (v.mapLines f).equals (v'.mapLines f) = v.equals v' := by
  cases v <;> cases v' <;> rfl

@[simp] theorem arity?_mapLines (v : Value) : (v.mapLines f).arity? = v.arity? := by
  cases v <;> simp [arity?, mapLines]

@[simp] theorem display_mapLines (v : Value) : (v.mapLines f).display = v.display := by
  cases v with
  | function id closure | method id closure => exact closure.display_mapLines f
  | _ => rfl

theorem inspect_mapLines (fieldNames : ObjectId → List String) (v : Value) :
    (v.mapLines f).inspect fieldNames = v.inspect fieldNames := by
  cases v with
  | function id closure | method id closure =>
    exact congrArg (fun text => s!"Callable(Callable({text}))") (closure.display_mapLines f)
  | classRef cls => exact congrArg (fun text => s!"Class({text})") (cls.inspect_mapLines f)
  | object id cls =>
    unfold inspect
    dsimp only [mapLines]
    rw [Class.name_mapLines]
  | _ => rfl

end Value

end Values

/-! ## What the world does -/

section Store
variable (f : Nat → Nat) (σ : Store)

namespace Store

@[simp] theorem find?_mapLines (id : ScopeId) (name : String) :
    (σ.mapLines f).find? id name = (σ.find? id name).map (Value.mapLines f) := by
  unfold find? mapLines
  rw [Array.getElem?_map]
  cases σ.scopes[id]? <;> simp

@[simp] theorem field?_mapLines (id : ObjectId) (name : String) :
    (σ.mapLines f).field? id name = (σ.field? id name).map (Value.mapLines f) := by
  unfold field? mapLines
  rw [Array.getElem?_map]
  cases σ.objects[id]? <;> simp

@[simp] theorem fieldNames_mapLines : (σ.mapLines f).fieldNames = σ.fieldNames := by
  funext id
  unfold fieldNames mapLines
  rw [Array.getElem?_map]
  cases σ.objects[id]? <;> simp

@[simp] theorem put_mapLines (id : ScopeId) (name : String) (v : Value) :
    (σ.mapLines f).put id name (v.mapLines f) = (σ.put id name v).mapLines f := by
  simp only [put, mapLines, Bindings.modify_put_map]

@[simp] theorem setField_mapLines (id : ObjectId) (name : String) (v : Value) :
    (σ.mapLines f).setField id name (v.mapLines f) = (σ.setField id name v).mapLines f := by
  simp only [setField, mapLines, Bindings.modify_put_map]

@[simp] theorem define_mapLines (env : Env) (name : String) (v : Value) :
    (σ.mapLines f).define env name (v.mapLines f) = (σ.define env name v).mapLines f := by
  cases env with
  | nil => rfl
  | cons id outer => exact σ.put_mapLines f id name v

theorem get_mapLines (env : Env) (name : String) (line : Nat) :
    (σ.mapLines f).get env name (f line) =
      mapLinesInResult f (Value.mapLines f) (σ.get env name line) := by
  induction env with
  | nil => rfl
  | cons id outer ih =>
    unfold get
    rw [find?_mapLines]
    cases σ.find? id name with
    | none => exact ih
    | some v => rfl

theorem assign_mapLines (env : Env) (name : String) (v : Value) (line : Nat) :
    (σ.mapLines f).assign env name (v.mapLines f) (f line) =
      (mapLinesInResult f id (σ.assign env name v line).1,
        (σ.assign env name v line).2.mapLines f) := by
  induction env with
  | nil => rfl
  | cons id outer ih =>
    unfold assign
    rw [find?_mapLines]
    cases σ.find? id name with
    | none => exact ih
    | some v' => simp [mapLinesInResult]

theorem getAt_mapLines (env : Env) (distance : Nat) (name : String) (line : Nat) :
    (σ.mapLines f).getAt env distance name (f line) =
      mapLinesInResult f (Value.mapLines f) (σ.getAt env distance name line) := by
  unfold getAt
  cases env[distance]? with
  | none => rfl
  | some id =>
    dsimp only
    rw [find?_mapLines]
    cases σ.find? id name <;> rfl

theorem assignAt_mapLines (env : Env) (distance : Nat) (name : String) (v : Value) (line : Nat) :
    (σ.mapLines f).assignAt env distance name (v.mapLines f) (f line) =
      (mapLinesInResult f id (σ.assignAt env distance name v line).1,
        (σ.assignAt env distance name v line).2.mapLines f) := by
  unfold assignAt
  cases env[distance]? with
  | none => rfl
  | some id =>
    dsimp only
    rw [find?_mapLines]
    cases σ.find? id name <;> simp [mapLinesInResult, undefined, Error.mapLines]

end Store

end Store

namespace World
variable (f : Nat → Nat) (w : World)

@[simp] theorem env_mapLines : (w.mapLines f).env = w.env := rfl

@[simp] theorem newId_mapLines :
    (w.mapLines f).newId = (w.newId.1, w.newId.2.mapLines f) := rfl

@[simp] theorem newScope_mapLines (bindings : Bindings Value) :
    (w.mapLines f).newScope (bindings.map (Value.mapLines f)) =
      ((w.newScope bindings).1, (w.newScope bindings).2.mapLines f) := by
  simp [newScope, Store.newScope, mapLines, Store.mapLines]

@[simp] theorem newObject_mapLines :
    (w.mapLines f).newObject = (w.newObject.1, w.newObject.2.mapLines f) := by
  simp [newObject, Store.newObject, mapLines, Store.mapLines, Bindings.empty, Bindings.map]

@[simp] theorem define_mapLines (name : String) (v : Value) :
    (w.mapLines f).define name (v.mapLines f) = (w.define name v).mapLines f := by
  simp [define, mapLines]

@[simp] theorem setField_mapLines (id : ObjectId) (name : String) (v : Value) :
    (w.mapLines f).setField id name (v.mapLines f) = (w.setField id name v).mapLines f := by
  simp [setField, mapLines]

@[simp] theorem makeFunction_mapLines (decl : FunDecl) :
    (w.mapLines f).makeFunction (decl.mapLines f) =
      ((w.makeFunction decl).1.mapLines f, (w.makeFunction decl).2.mapLines f) := rfl

@[simp] theorem defineFunction_mapLines (decl : FunDecl) :
    (w.mapLines f).defineFunction (decl.mapLines f) = (w.defineFunction decl).mapLines f := by
  unfold defineFunction
  rw [FunDecl.name_mapLines]
  cases decl.name with
  | none => rfl
  | some name =>
    dsimp only [Option.map_some]
    rw [makeFunction_mapLines]
    exact define_mapLines f (w.makeFunction decl).2 name.name (w.makeFunction decl).1

@[simp] theorem defineFunctions_mapLines (body : List Stmt) :
    (w.mapLines f).defineFunctions (mapLinesInBody f body) =
      (w.defineFunctions body).mapLines f := by
  fun_induction defineFunctions w body with
  | case1 => rfl
  | case2 w decl rest ih =>
    rw [mapLinesInBody, Stmt.mapLines, defineFunctions, defineFunction_mapLines]
    exact ih
  | case3 w s rest hs ih =>
    rw [mapLinesInBody, defineFunctions]
    · exact ih
    · exact Stmt.mapLines_ne_function f hs

theorem read_mapLines (name : String) (line : Nat) (slot : Slot) :
    (w.mapLines f).read name (f line) slot =
      mapLinesInResult f (Value.mapLines f) (w.read name line slot) := by
  rcases slot with _ | _ | _
  · rfl
  · exact w.store.getAt_mapLines f _ _ _ _
  · exact w.store.get_mapLines f _ _ _

theorem assign_mapLines (name : Ident) (v : Value) (slot : Slot) :
    (w.mapLines f).assign (name.mapLine f) (v.mapLines f) slot =
      (mapLinesInResult f id (w.assign name v slot).1, (w.assign name v slot).2.mapLines f) := by
  rcases slot with _ | distance | _
  · rfl
  · have h := w.store.assignAt_mapLines f w.env distance name.name v name.line
    simp only [assign, mapLines, Ident.mapLine, h]
  · have h := w.store.assign_mapLines f topEnv name.name v name.line
    simp only [assign, mapLines, Ident.mapLine, h]

@[simp] theorem bind_mapLines (method : Closure) (receiver : Value) :
    (w.mapLines f).bind (method.mapLines f) (receiver.mapLines f) =
      ((w.bind method receiver).1.mapLines f, (w.bind method receiver).2.mapLines f) := by
  have hsingle : Bindings.single "this" (receiver.mapLines f) =
      (Bindings.single "this" receiver).map (Value.mapLines f) := rfl
  unfold bind
  rw [hsingle, newScope_mapLines]
  rfl

@[simp] theorem boundMethod_mapLines (method : Closure) (receiver : Value) :
    (w.mapLines f).boundMethod (method.mapLines f) (receiver.mapLines f) =
      ((w.boundMethod method receiver).1.mapLines f,
        (w.boundMethod method receiver).2.mapLines f) := by
  unfold boundMethod
  rw [bind_mapLines]
  rfl

theorem inspect_mapLines (v : Value) : (w.mapLines f).inspect (v.mapLines f) = w.inspect v := by
  unfold inspect
  rw [Value.inspect_mapLines]
  exact congrArg v.inspect (w.store.fieldNames_mapLines f)

end World

end Lox
