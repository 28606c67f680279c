import Lox.Proofs.Machine.Lineage
import Lox.Proofs.Machine.Restoration

/-!
# Every scope has its cause

A machine is traced by a list of causes if its store follows them, it works in scopes that code runs
in, and what it works on is text of the method that is at work there. A step of a traced machine is
traced by the same causes and those of the scopes that it makes.
-/

set_option autoImplicit false

namespace Lox

/-! ## Orderly steps -/

namespace Machine

/-- The names that the next step binds or overwrites in scopes that are there already. -/
def assigned : Machine → List String
  | ⟨.execute s, _, _⟩ => s.own
  | ⟨.value _, .assign name _ :: _, _⟩ => [name.name]
  | ⟨.value _, .define name :: _, _⟩ => [name.name]
  | ⟨.value _, .inherit name _ _ :: _, _⟩ => [name.name]
  | _ => []

/-- The next step gives values to plain names only, and hands no value to a frame that goes back to
other scopes. -/
structure Orderly (m : Machine) : Prop where
  assigned : ∀ x ∈ m.assigned, Plain x
  made : ∀ cause ∈ m.made, ∀ x ∈ cause.names, Plain x
  restore : ∀ v env frames, m.focus = .value v → m.frames ≠ .restore env :: frames

end Machine

/-! ## What a machine holds -/

namespace Frame

/-- The values that a frame keeps. -/
def values : Frame → List Value
  | .right _ operand _ => [operand]
  | .argument called before _ _ => called :: before
  | .created object => [object]
  | _ => []

/-- The text that a frame goes on with. -/
def code : Frame → List Node
  | .left _ operand _ => [.expr operand]
  | .logical _ operand => [.expr operand]
  | .callee arguments _ => [.arguments arguments]
  | .argument _ _ after _ => [.arguments after]
  | .setTarget _ value => [.expr value]
  | .branch thenBranch none => [.stmt thenBranch]
  | .branch thenBranch (some elseBranch) => [.stmt thenBranch, .stmt elseBranch]
  | .test condition body => [.expr condition, .stmt body]
  | .again condition body => [.expr condition, .stmt body]
  | .sequence rest => [.body rest]
  | .top _ rest => [.top rest]
  | _ => []

structure Suits (causes : Causes) (a : Option Activation) (frame : Frame) : Prop where
  values : ∀ v ∈ frame.values, v.Sound causes
  code : ∀ node ∈ frame.code, Covers a node

end Frame

def Focus.Suits (causes : Causes) (a : Option Activation) : Focus → Prop
  | .evaluate e => Covers a (.expr e)
  | .execute s => Covers a (.stmt s)
  | .value v => v.Sound causes
  | .completed (.returned v) => v.Sound causes
  | _ => True

/-- The frames go on in the scopes that are in force, up to one that goes back to other scopes. -/
def Carried (causes : Causes) : Option Activation → List Frame → Prop
  | _, [] => True
  | _, .restore env :: frames => ∃ a, Within causes a env ∧ Carried causes a frames
  | a, frame :: frames => frame.Suits causes a ∧ Carried causes a frames

inductive Machine.Traced (causes : Causes) : Machine → Prop where
  | running {a : Option Activation} {focus : Focus} {frames : List Frame} {w : World} :
      w.store.Follows causes → Within causes a w.env → focus.Suits causes a →
      Carried causes a frames → Traced causes ⟨focus, frames, w⟩
  | failed {e : Error} {frames : List Frame} {w : World} :
      w.store.Follows causes → Traced causes ⟨.failed e, frames, w⟩

/-- The computation yields a sound value, if it yields one. -/
def SoundResult (causes : Causes) (result : Except Error Value) : Prop :=
  ∀ v, result = .ok v → v.Sound causes

section Text
variable {a : Option Activation} {node inner : Node}

theorem Covers.part (h : Covers a node) (hpart : inner ∈ node.parts)
    (hmethods : inner.isMethods = false) : Covers a inner :=
  fun active ha => (h active ha).part hpart hmethods

theorem Covers.superclass {name parent : Ident} {slot : Slot} {methods : List FunDecl}
    (h : Covers a (.stmt (.classDecl name (some (parent, slot)) methods))) :
    Covers a (.expr (.variable parent slot)) :=
  fun active ha => (h active ha).superclass

end Text

section Growth
variable {causes causes' : Causes} {a : Option Activation} (h : causes <+: causes')
include h

theorem Frame.Suits.mono {frame : Frame} (hframe : frame.Suits causes a) : frame.Suits causes' a :=
  ⟨fun v hv => (hframe.values v hv).mono h, hframe.code⟩

theorem Carried.mono {frames : List Frame} (hframes : Carried causes a frames) :
    Carried causes' a frames := by
  fun_induction Carried causes a frames with
  | case1 => trivial
  | case2 _ env frames ih =>
    obtain ⟨a, hwithin, hframes⟩ := hframes
    exact ⟨a, hwithin.mono h, ih a hframes⟩
  | case3 a frame frames hne ih =>
    rw [Carried.eq_3 _ _ _ _ hne]
    exact ⟨hframes.1.mono h, ih hframes.2⟩

end Growth

namespace Machine

variable {causes : Causes} {a : Option Activation} {frames : List Frame} {w : World}

theorem Traced.follows {m : Machine} (h : Traced causes m) : m.world.store.Follows causes := by
  cases h with
  | running hstore | failed hstore => exact hstore

theorem Traced.within {m : Machine} (h : Traced causes m) (hfocus : ∀ e, m.focus ≠ .failed e) :
    ∃ a, Within causes a m.world.env ∧ Carried causes a m.frames := by
  cases h with
  | running _ hwithin _ hframes => exact ⟨_, hwithin, hframes⟩
  | failed => exact absurd rfl (hfocus _)

/-- No scope is made. -/
theorem Traced.quiet {more : Causes} {m : Machine} (hmore : more = []) (h : Traced causes m) :
    Traced (causes ++ more) m := by
  rw [hmore, List.append_nil]
  exact h

theorem suits_code {frame : Frame} (hvalues : frame.values = [])
    (hcode : ∀ node ∈ frame.code, Covers a node) : frame.Suits causes a := by
  refine ⟨?_, hcode⟩
  rw [hvalues]
  intro v hv
  cases hv

theorem suits_plain {frame : Frame} (hvalues : frame.values = []) (hcode : frame.code = []) :
    frame.Suits causes a := by
  apply suits_code hvalues
  rw [hcode]
  intro node hnode
  cases hnode

theorem suits_one {frame : Frame} {node : Node} (hvalues : frame.values = [])
    (hcode : frame.code = [node]) (hnode : Covers a node) : frame.Suits causes a := by
  apply suits_code hvalues
  rw [hcode]
  intro node' hnode'
  obtain rfl := List.mem_singleton.1 hnode'
  exact hnode

theorem suits_two {frame : Frame} {node node' : Node} (hvalues : frame.values = [])
    (hcode : frame.code = [node, node']) (hnode : Covers a node) (hnode' : Covers a node') :
    frame.Suits causes a := by
  apply suits_code hvalues
  rw [hcode]
  intro node'' hnode''
  rcases List.mem_cons.1 hnode'' with rfl | hnode''
  · exact hnode
  · obtain rfl := List.mem_singleton.1 hnode''
    exact hnode'

/-! ## Sound results -/

theorem soundResult_get {σ : Store} (h : σ.Follows causes) (env : Env) (x : String) (line : Nat) :
    SoundResult causes (σ.get env x line) := by
  induction env with
  | nil =>
    intro v hv
    cases hv
  | cons id outer ih =>
    unfold Store.get
    split
    · rename_i u hu
      intro v hv
      cases hv
      exact h.value hu
    · exact ih

theorem soundResult_getAt {σ : Store} (h : σ.Follows causes) (env : Env) (d : Nat) (x : String)
    (line : Nat) : SoundResult causes (σ.getAt env d x line) := by
  intro v hv
  unfold Store.getAt at hv
  split at hv
  · cases hv
  split at hv
  · rename_i u hu
    cases hv
    exact h.value hu
  · cases hv

theorem soundResult_read (h : w.store.Follows causes) (x : String) (line : Nat) (slot : Slot) :
    SoundResult causes (w.read x line slot) := by
  unfold World.read
  split
  · exact soundResult_getAt h _ _ _ _
  · exact soundResult_get h _ _ _
  · intro v hv
    cases hv

theorem soundResult_unary (op : UnaryOp) (u : Value) (line : Nat) :
    SoundResult causes (op.apply u line) := by
  intro v hv
  unfold UnaryOp.apply at hv
  split at hv <;> cases hv <;> trivial

theorem soundResult_binary (op : BinaryOp) (left right : Value) (line : Nat) :
    SoundResult causes (op.apply left right line) := by
  have hnumbers (op : BinaryOp) (x y : Float) : SoundResult causes (op.applyNumbers x y line) := by
    intro v hv
    unfold BinaryOp.applyNumbers at hv
    split at hv
    case h_4 =>
      split at hv
      · cases hv
      · cases hv
        trivial
    all_goals cases hv; trivial
  unfold BinaryOp.apply
  split
  case h_4 => exact hnumbers _ _ _
  all_goals
    intro v hv
    cases hv
  all_goals trivial

theorem soundResult_functionResult (h : w.store.Follows causes) (closure : Closure)
    {k : Completion} (hk : Focus.Suits causes a (.completed k)) :
    SoundResult causes (functionResult closure k w) := by
  unfold functionResult
  split
  · exact soundResult_getAt h _ _ _ _
  split
  · intro v hv
    cases hv
    exact hk
  · intro v hv
    cases hv
    trivial
  · intro v hv
    cases hv

/-- A superclass and a receiver are read one scope apart, and the receiver is an instance. -/
theorem superParts_eq_ok {line : Nat} {slot : Slot} {cls : Class} {receiver : Value}
    (h : superParts line slot w = .ok (cls, receiver)) :
    ∃ d, slot = some (.atDistance (d + 1)) ∧
      w.store.getAt w.env (d + 1) "super" line = .ok (.classRef cls) ∧
      w.store.getAt w.env d "this" line = .ok receiver ∧ ∃ id own, receiver = .object id own := by
  unfold superParts at h
  split at h
  · rename_i d
    cases hsuper : w.store.getAt w.env d "super" line with
    | error e =>
      rw [hsuper] at h
      cases h
    | ok u =>
      rw [hsuper] at h
      cases u with
      | classRef parent =>
        cases d with
        | zero => cases h
        | succ d =>
          cases hthis : w.store.getAt w.env d "this" line with
          | error e =>
            simp only [bind, Except.bind, hthis] at h
            cases h
          | ok v =>
            simp only [bind, Except.bind, hthis] at h
            cases v with
            | object id own =>
              cases h
              exact ⟨d, rfl, hsuper, hthis, id, own, rfl⟩
            | _ => cases h
      | _ => cases h
  · cases h

theorem sound_superParts (h : w.store.Follows causes) {line : Nat} {slot : Slot} {cls : Class}
    {receiver : Value} (hparts : superParts line slot w = .ok (cls, receiver)) :
    cls.Sound causes ∧ receiver.Sound causes := by
  obtain ⟨d, -, hsuper, hthis, -⟩ := superParts_eq_ok hparts
  exact ⟨soundResult_getAt h _ _ _ _ _ hsuper, soundResult_getAt h _ _ _ _ _ hthis⟩

theorem sound_ofLiteral (literal : Literal) : (Value.ofLiteral literal).Sound causes := by
  cases literal <;> trivial

/-! ## Bodies -/

theorem follows_defineFunctions {body : List Stmt} (h : w.store.Follows causes)
    (hwithin : Within causes a w.env) (hbody : Covers a (.body body))
    (hnames : ∀ x ∈ functionNames body, Plain x) :
    (w.defineFunctions body).store.Follows causes := by
  fun_induction World.defineFunctions w body with
  | case1 => exact h
  | case2 w decl rest ih =>
    have hdecl : Covers a (.function decl) := hbody.part List.mem_cons_self rfl
    have hrest : Covers a (.body rest) :=
      hbody.part (List.mem_cons_of_mem _ List.mem_cons_self) rfl
    apply ih
    · apply h.defineFunction hwithin hdecl
      intro name hname
      apply hnames
      apply List.mem_append_left
      exact List.mem_map_of_mem (Option.mem_toList.2 hname)
    · rw [World.env_defineFunction]
      exact hwithin
    · exact hrest
    · intro x hx
      exact hnames x (List.mem_append_right _ hx)
  | case3 w s rest hs ih =>
    have hfunction : s.isFunction = false := by
      cases s with
      | function decl => exact absurd rfl (hs decl)
      | _ => rfl
    have hrest : Covers a (.body rest) := by
      apply hbody.part _ rfl
      rw [Node.parts_body_cons hfunction]
      exact List.mem_cons_of_mem _ List.mem_cons_self
    rw [functionNames_cons hfunction] at hnames
    exact ih h hwithin hrest hnames

section
variable (h : w.store.Follows causes) (hwithin : Within causes a w.env)
  (hframes : Carried causes a frames)
include h hwithin hframes

theorem traced_value {v : Value} (hv : v.Sound causes) : Traced causes ⟨.value v, frames, w⟩ :=
  .running h hwithin hv hframes

omit hwithin hframes in
theorem traced_failing (e : Error) : Traced causes (failing e frames w) :=
  .failed h

theorem traced_ofResult {result : Except Error Value} (hresult : SoundResult causes result) :
    Traced causes (ofResult result frames w) := by
  cases result with
  | ok v => exact traced_value h hwithin hframes (hresult v rfl)
  | error e => exact traced_failing h e

/-- A body starts in the scope that was made for it, and what waits goes on in the scopes that are
in force now. -/
theorem traced_enterScope {a' : Option Activation} {cause : Cause} {bindings : Bindings Value}
    {outer : Env} {body : List Stmt} (hcause : cause.hasBody = true)
    (hbindings : ∀ x v, bindings.find? x = some v → x ∈ cause.names ∧ v.Sound causes)
    (hfunctions : functionNames body ⊆ cause.names) (hplain : ∀ x ∈ cause.names, Plain x)
    (hinside : Within (causes ++ [cause]) a' (w.store.scopes.size :: outer))
    (hbody : Covers a' (.body body)) :
    Traced (causes ++ [cause]) (enterScope bindings outer body frames w) := by
  have hcauses : causes <+: causes ++ [cause] := List.prefix_append _ _
  have hscope : (w.store.newScope bindings).2.Follows (causes ++ [cause]) := by
    apply h.newScope
    · intro x hx
      rw [Cause.special_of_hasBody hcause]
      cases hfind : bindings.find? x with
      | none => rfl
      | some v => exact absurd (hplain x (hbindings x v hfind).1) hx
    · intro hnone
      rw [hcause] at hnone
      cases hnone
    · rintro method receiver rfl
      cases hcause
    · exact fun x v hv => (hbindings x v hv).2
  have hstore : (World.defineFunctions
      { (w.newScope bindings).2 with env := w.store.scopes.size :: outer } body).store.Follows
        (causes ++ [cause]) :=
    follows_defineFunctions hscope hinside hbody fun x hx => hplain x (hfunctions hx)
  have henv : Within (causes ++ [cause]) a' (enterScope bindings outer body frames w).world.env := by
    have heq : (enterScope bindings outer body frames w).world.env = w.store.scopes.size :: outer :=
      World.env_defineFunctions _ body
    rw [heq]
    exact hinside
  refine .running hstore henv trivial ⟨suits_one rfl rfl hbody, a, ?_, ?_⟩
  · exact hwithin.mono hcauses
  · exact hframes.mono hcauses

theorem traced_enterFunction {closure : Closure} {arguments : List Value}
    (hclosure : closure.Sound causes) (harguments : ∀ v ∈ arguments, v.Sound causes)
    (hplain : ∀ x ∈ (Cause.call closure).names, Plain x) :
    Traced (causes ++ [.call closure]) (enterFunction closure arguments frames w) := by
  have hcauses : causes <+: causes ++ [.call closure] := List.prefix_append _ _
  have hfinish : Carried causes a (.finish closure :: frames) := ⟨suits_plain rfl rfl, hframes⟩
  have hbindings (x : String) (v : Value)
      (hv : (Bindings.empty.putAll (closure.decl.params.map Ident.name) arguments).find? x = some v) :
      x ∈ (Cause.call closure).names ∧ v.Sound causes := by
    rcases Bindings.mem_of_find?_putAll hv with ⟨hx, hv⟩ | hempty
    · exact ⟨List.mem_append_left _ hx, harguments v hv⟩
    · cases hempty
  have hfunctions : functionNames closure.decl.body ⊆ (Cause.call closure).names :=
    List.subset_append_right _ _
  cases hclosure with
  | function houter hcovers =>
    have hinside := Within.function (houter.mono hcauses) (h.cause?_size _)
    exact traced_enterScope h hwithin hfinish rfl hbindings hfunctions hplain hinside
      (hcovers.part List.mem_cons_self rfl)
  | @method method receiver scope hbind =>
    have hinside := Within.method (Causes.cause?_mono hcauses hbind) (h.cause?_size _)
    have hbody : Covers (some (method, receiver)) (.body method.decl.body) := by
      intro active hactive
      obtain rfl := Option.some.inj hactive
      exact Contains.self.part List.mem_cons_self rfl
    exact traced_enterScope h hwithin hfinish rfl hbindings hfunctions hplain hinside hbody

/-! ## Methods and calls -/

omit hwithin hframes in
/-- Binding a method makes the scope of its receiver. -/
theorem follows_bind {method : Closure} {receiver : Value} (hmethod : Declared causes method)
    (hreceiver : receiver.Sound causes) :
    (w.bind method receiver).2.store.Follows (causes ++ [.bind method receiver]) ∧
      (w.bind method receiver).1.Sound (causes ++ [.bind method receiver]) := by
  refine ⟨h.newScope (fun x _ => rfl) ?_ ?_ ?_, .method (h.cause?_size _)⟩
  · exact fun _ x hx => Bindings.find?_single_of_ne _ hx.1
  · intro method' receiver' heq
    cases heq
    exact hmethod
  · intro x v hv
    obtain ⟨-, rfl⟩ := Bindings.mem_of_find?_single hv
    exact hreceiver

theorem traced_boundMethod {method : Closure} {receiver : Value} (hmethod : Declared causes method)
    (hreceiver : receiver.Sound causes) :
    Traced (causes ++ [.bind method receiver]) ⟨.value (w.boundMethod method receiver).1, frames,
      (w.boundMethod method receiver).2⟩ := by
  obtain ⟨hstore, hclosure⟩ := follows_bind h hmethod hreceiver
  have hcauses : causes <+: causes ++ [.bind method receiver] := List.prefix_append _ _
  exact .running hstore.newId (hwithin.mono hcauses) hclosure (hframes.mono hcauses)

theorem traced_getProperty {id : ObjectId} {cls : Class} {name : Ident} (hcls : cls.Sound causes) :
    Traced (causes ++ madeByGet id cls name w) (getProperty id cls name frames w) := by
  unfold madeByGet getProperty
  cases hfield : w.store.field? id name.name with
  | some v => exact .quiet rfl (traced_value h hwithin hframes (h.field hfield))
  | none =>
    cases hmethod : cls.findMethod? name.name with
    | some method => exact traced_boundMethod h hwithin hframes (hcls _ _ hmethod) hcls
    | none => exact .quiet rfl (traced_failing h _)

theorem traced_evaluateSuper {line : Nat} {method : Ident} {slot : Slot} :
    Traced (causes ++ madeBySuper line method slot w) (evaluateSuper line method slot frames w) := by
  unfold madeBySuper evaluateSuper
  cases hparts : superParts line slot w with
  | error e => exact .quiet rfl (traced_failing h e)
  | ok parts =>
    obtain ⟨cls, receiver⟩ := parts
    obtain ⟨hcls, hreceiver⟩ := sound_superParts h hparts
    dsimp only
    cases hfound : cls.findMethod? method.name with
    | some found => exact traced_boundMethod h hwithin hframes (hcls _ _ hfound) hreceiver
    | none => exact .quiet rfl (traced_failing h _)

theorem traced_callNative (native : Native) (arguments : List Value) (line : Nat) :
    Traced causes (callNative native arguments line frames w) := by
  unfold callNative
  split
  · exact .running (w := w.readClock.2) h hwithin trivial hframes
  · exact traced_value h hwithin hframes trivial
  · exact traced_value h hwithin hframes trivial
  · exact traced_value h hwithin hframes trivial
  · exact traced_failing h _
  · exact traced_failing h _

/-- An initializer is bound to the new instance and then called. -/
theorem traced_initializer {cls : Class} {initializer : Closure} {arguments : List Value}
    (hcls : cls.Sound causes) (hinitializer : cls.findMethod? Class.initializerName = some initializer)
    (harguments : ∀ v ∈ arguments, v.Sound causes)
    (hplain : ∀ x ∈ (Cause.call (initializer.bound w.store.scopes.size)).names, Plain x) :
    Traced (causes ++ [.bind initializer (.object w.store.objects.size cls),
        .call (initializer.bound w.store.scopes.size)])
      (instantiate cls arguments frames w) := by
  have hobject : Value.Sound causes (.object w.newObject.1 cls) := hcls
  obtain ⟨hstore, hclosure⟩ := follows_bind (w := w.newObject.2) h.newObject
    (hcls _ _ hinitializer) hobject
  have hcauses : causes <+: causes ++ [.bind initializer (.object w.newObject.1 cls)] :=
    List.prefix_append _ _
  have hcreated : Carried (causes ++ [.bind initializer (.object w.newObject.1 cls)]) a
      (.created (.object w.newObject.1 cls) :: frames) := by
    refine ⟨⟨?_, ?_⟩, hframes.mono hcauses⟩
    · intro v hv
      obtain rfl := List.mem_singleton.1 hv
      exact hobject.mono hcauses
    · intro node hnode
      cases hnode
  have hcall := traced_enterFunction hstore (hwithin.mono hcauses) hcreated hclosure
    (fun v hv => (harguments v hv).mono hcauses) hplain
  rw [List.append_assoc] at hcall
  unfold instantiate
  rw [hinitializer]
  exact hcall

theorem traced_instantiate {cls : Class} (arguments : List Value) (hcls : cls.Sound causes)
    (hinitializer : cls.findMethod? Class.initializerName = none) :
    Traced causes (instantiate cls arguments frames w) := by
  unfold instantiate
  rw [hinitializer]
  exact .running h.newObject hwithin hcls hframes

theorem traced_call {callee : Value} {arguments : List Value} (line : Nat)
    (hcallee : callee.Sound causes) (harguments : ∀ v ∈ arguments, v.Sound causes)
    (hplain : ∀ cause ∈ madeByCall callee arguments w, ∀ x ∈ cause.names, Plain x) :
    Traced (causes ++ madeByCall callee arguments w) (call callee arguments line frames w) := by
  unfold call
  unfold madeByCall at hplain ⊢
  by_cases hopen : callee.arity? = some arguments.length ∧ w.depth < w.maxDepth
  · obtain ⟨harity, hdepth⟩ := hopen
    rw [if_pos ⟨harity, hdepth⟩] at hplain ⊢
    rw [harity]
    dsimp only
    rw [if_neg (by simp), if_neg (Nat.not_le.2 hdepth)]
    have hleave : Carried causes a (.leave :: frames) := ⟨suits_plain rfl rfl, hframes⟩
    have hstore : { w with depth := w.depth + 1 }.store.Follows causes := h
    cases callee with
    | function id closure | method id closure =>
      exact traced_enterFunction hstore hwithin hleave hcallee harguments
        (hplain _ List.mem_cons_self)
    | native id native =>
      exact .quiet rfl (traced_callNative hstore hwithin hleave native arguments line)
    | classRef cls =>
      dsimp only at hplain ⊢
      cases hinitializer : cls.findMethod? Class.initializerName with
      | none =>
        exact .quiet rfl (traced_instantiate hstore hwithin hleave arguments hcallee hinitializer)
      | some initializer =>
        rw [hinitializer] at hplain
        exact traced_initializer hstore hwithin hleave hcallee hinitializer harguments
          (hplain _ (List.mem_cons_of_mem _ List.mem_cons_self))
    | _ => cases harity
  · rw [if_neg hopen]
    refine .quiet rfl ?_
    split
    · exact traced_failing h _
    · rename_i arity harity
      split
      · exact traced_failing h _
      · rename_i hlength
        rw [Decidable.not_not] at hlength
        split
        · exact traced_failing h _
        · rename_i hdepth
          exact absurd ⟨hlength ▸ harity, Nat.not_le.1 hdepth⟩ hopen

/-! ## Classes -/

omit h hwithin hframes in
/-- A method is an initializer if it is declared as one. -/
theorem isInitializer_of_find?_methodTable {env : Env} {methods : List FunDecl} {x : String}
    {c : Closure} (hfind : (methodTable env methods).find? x = some c) :
    c.isInitializer = true ↔
      ∃ name, c.decl.name = some name ∧ name.name = Class.initializerName := by
  unfold methodTable at hfind
  revert hfind
  apply List.foldlRecOn (motive := fun table : Bindings Closure => table.find? x = some c →
    (c.isInitializer = true ↔ ∃ name, c.decl.name = some name ∧ name.name = Class.initializerName))
  · intro hfind
    cases hfind
  · intro table ih decl _ hfind
    split at hfind
    · exact ih hfind
    · rename_i name hname
      rcases Bindings.mem_of_find?_put hfind with ⟨-, rfl⟩ | hfind
      · simp [hname]
      · exact ih hfind

omit h hwithin hframes in
theorem sound_class {id : Nat} {name : String} {env : Env} {methods : List FunDecl}
    {inherited : List Layer}
    (hscopes : ∀ decl ∈ methods, MethodScopes causes decl env)
    (hinherited : ∀ x method, inherited.findSome? (fun layer => layer.methods.find? x) =
      some method → Declared causes method) :
    Class.Sound causes ⟨⟨id, name, methodTable env methods⟩, inherited⟩ := by
  intro x method hmethod
  rw [Class.findMethod?, List.findSome?_cons] at hmethod
  split at hmethod
  · rename_i c hc
    obtain rfl := Option.some.inj hmethod
    obtain ⟨hdecl, rfl⟩ := mem_of_find?_methodTable hc
    exact ⟨isInitializer_of_find?_methodTable hc, hscopes c.decl hdecl⟩
  · exact hinherited x method hmethod

theorem traced_finishClass {name : Ident} {env : Env} {inherited : List Layer}
    {methods : List FunDecl} (hname : Plain name.name)
    (hcls : Class.Sound causes ⟨⟨w.newId.1, name.name, methodTable env methods⟩, inherited⟩) :
    Traced causes (finishClass name env inherited methods frames w) := by
  have hvalue : Value.Sound causes
      (.classRef ⟨⟨w.newId.1, name.name, methodTable env methods⟩, inherited⟩) := hcls
  have hstore : (w.newId.2.store.assign w.newId.2.env name.name
      (.classRef ⟨⟨w.newId.1, name.name, methodTable env methods⟩, inherited⟩)
      name.line).2.Follows causes := h.newId.assign hvalue hname name.line
  unfold finishClass
  dsimp only
  split
  · exact .running hstore hwithin trivial hframes
  · exact .failed hstore

theorem traced_class {name : Ident} (methods : List FunDecl) (hname : Plain name.name) :
    Traced causes (makeClass name none methods frames w) := by
  have hdefined : (w.define name.name .nil).store.Follows causes :=
    h.define hwithin trivial hname
  rw [makeClass_none]
  apply traced_finishClass hdefined hwithin hframes hname
  apply sound_class
  · exact fun decl _ => .plain hwithin
  · intro x method hmethod
    cases hmethod

/-- The methods of a class with a superclass see the scope that was made for the superclass. -/
theorem traced_subclass {name : Ident} {parent : Class} (methods : List FunDecl)
    (hname : Plain name.name) (hparent : parent.Sound causes) :
    Traced (causes ++ [.inherit w.env parent methods])
      (makeClass name (some parent) methods frames w) := by
  have hdefined : (w.define name.name .nil).store.Follows causes :=
    h.define hwithin trivial hname
  have hcauses : causes <+: causes ++ [.inherit w.env parent methods] := List.prefix_append _ _
  have hscope : ((w.define name.name .nil).newScope
      (.single "super" (.classRef parent))).2.store.Follows
        (causes ++ [.inherit w.env parent methods]) := by
    refine hdefined.newScope (fun x _ => rfl) ?_ ?_ ?_
    · exact fun _ x hx => Bindings.find?_single_of_ne _ hx.2
    · intro method receiver heq
      cases heq
    · intro x v hv
      obtain ⟨-, rfl⟩ := Bindings.mem_of_find?_single hv
      exact hparent
  rw [makeClass_some]
  apply traced_finishClass hscope (hwithin.mono hcauses) (hframes.mono hcauses) hname
  apply sound_class
  · exact fun decl hdecl => .derived (hdefined.cause?_size _) hdecl (hwithin.mono hcauses)
  · exact fun x method hmethod => (hparent x method hmethod).mono hcauses

/-! ## The kinds of steps -/

theorem traced_evaluate {e : Expr} (he : Covers a (.expr e)) :
    Traced (causes ++ made ⟨.evaluate e, frames, w⟩) (evaluate e frames w) := by
  have hfirst {operand : Expr} {frame : Frame} (hoperand : .expr operand ∈ e.parts)
      (hframe : Carried causes a (frame :: frames)) :
      Traced causes ⟨.evaluate operand, frame :: frames, w⟩ :=
    .running h hwithin (he.part hoperand rfl) hframe
  cases e with
  | literal value line =>
    exact .quiet rfl (traced_value h hwithin hframes (sound_ofLiteral value))
  | group inner =>
    exact .quiet rfl (.running h hwithin (he.part List.mem_cons_self rfl) hframes)
  | «variable» name slot =>
    exact .quiet rfl (traced_ofResult h hwithin hframes (soundResult_read h _ _ _))
  | assign name value slot =>
    exact .quiet rfl (hfirst List.mem_cons_self ⟨suits_plain rfl rfl, hframes⟩)
  | unary op operand line =>
    exact .quiet rfl (hfirst List.mem_cons_self ⟨suits_plain rfl rfl, hframes⟩)
  | binary op left right line =>
    have hright : Covers a (.expr right) := he.part (List.mem_cons_of_mem _ List.mem_cons_self) rfl
    exact .quiet rfl (hfirst List.mem_cons_self ⟨suits_one rfl rfl hright, hframes⟩)
  | logical op left right line =>
    have hright : Covers a (.expr right) := he.part (List.mem_cons_of_mem _ List.mem_cons_self) rfl
    exact .quiet rfl (hfirst List.mem_cons_self ⟨suits_one rfl rfl hright, hframes⟩)
  | call callee arguments line =>
    have harguments : Covers a (.arguments arguments) :=
      he.part (List.mem_cons_of_mem _ List.mem_cons_self) rfl
    exact .quiet rfl (hfirst List.mem_cons_self ⟨suits_one rfl rfl harguments, hframes⟩)
  | get object name =>
    exact .quiet rfl (hfirst List.mem_cons_self ⟨suits_plain rfl rfl, hframes⟩)
  | set object name value =>
    have hvalue : Covers a (.expr value) := he.part (List.mem_cons_of_mem _ List.mem_cons_self) rfl
    exact .quiet rfl (hfirst List.mem_cons_self ⟨suits_one rfl rfl hvalue, hframes⟩)
  | this line slot =>
    exact .quiet rfl (traced_ofResult h hwithin hframes (soundResult_read h _ _ _))
  | super line method slot => exact traced_evaluateSuper h hwithin hframes
  | lambda decl =>
    have hclosure : Closure.Sound causes ⟨decl, w.env, false⟩ :=
      .function hwithin (he.part List.mem_cons_self rfl)
    have hvalue : Value.Sound causes (w.makeFunction decl).1 := hclosure
    exact .quiet rfl (.running h.newId hwithin hvalue hframes)

theorem traced_execute {s : Stmt} (hs : Covers a (.stmt s))
    (horderly : Orderly ⟨.execute s, frames, w⟩) :
    Traced (causes ++ made ⟨.execute s, frames, w⟩) (execute s frames w) := by
  have hplain : ∀ x ∈ s.own, Plain x := horderly.assigned
  have hfirst {value : Expr} {frame : Frame} (hvalue : .expr value ∈ s.parts)
      (hframe : Carried causes a (frame :: frames)) :
      Traced causes ⟨.evaluate value, frame :: frames, w⟩ :=
    .running h hwithin (hs.part hvalue rfl) hframe
  cases s with
  | expression value =>
    exact .quiet rfl (hfirst List.mem_cons_self ⟨suits_plain rfl rfl, hframes⟩)
  | print value => exact .quiet rfl (hfirst List.mem_cons_self ⟨suits_plain rfl rfl, hframes⟩)
  | var name value =>
    cases value with
    | none =>
      have hstore : (w.define name.name .nil).store.Follows causes :=
        h.define hwithin trivial (hplain _ List.mem_cons_self)
      exact .quiet rfl (.running hstore hwithin trivial hframes)
    | some value => exact .quiet rfl (hfirst List.mem_cons_self ⟨suits_plain rfl rfl, hframes⟩)
  | block body =>
    have hcauses : causes <+: causes ++ [.block w.env body] := List.prefix_append _ _
    have hinside := Within.block (hwithin.mono hcauses) (h.cause?_size _)
    refine traced_enterScope h hwithin hframes rfl ?_ (List.Subset.refl _)
      (horderly.made _ List.mem_cons_self) hinside (hs.part List.mem_cons_self rfl)
    intro x v hv
    cases hv
  | cond condition thenBranch elseBranch =>
    cases elseBranch with
    | none =>
      have hthen : Covers a (.stmt thenBranch) :=
        hs.part (List.mem_cons_of_mem _ List.mem_cons_self) rfl
      exact .quiet rfl (hfirst List.mem_cons_self ⟨suits_one rfl rfl hthen, hframes⟩)
    | some elseBranch =>
      have hthen : Covers a (.stmt thenBranch) :=
        hs.part (List.mem_cons_of_mem _ List.mem_cons_self) rfl
      have helse : Covers a (.stmt elseBranch) :=
        hs.part (List.mem_cons_of_mem _ (List.mem_cons_of_mem _ List.mem_cons_self)) rfl
      exact .quiet rfl (hfirst List.mem_cons_self ⟨suits_two rfl rfl hthen helse, hframes⟩)
  | loop condition body =>
    have hcondition : Covers a (.expr condition) := hs.part List.mem_cons_self rfl
    have hbody : Covers a (.stmt body) := hs.part (List.mem_cons_of_mem _ List.mem_cons_self) rfl
    exact .quiet rfl (hfirst List.mem_cons_self ⟨suits_two rfl rfl hcondition hbody, hframes⟩)
  | function decl =>
    have hstore : (w.defineFunction decl).store.Follows causes := by
      apply h.defineFunction hwithin (hs.part List.mem_cons_self rfl)
      intro name hname
      exact hplain _ (List.mem_map_of_mem (Option.mem_toList.2 hname))
    have henv : Within causes a (w.defineFunction decl).env := by
      rw [World.env_defineFunction]
      exact hwithin
    exact .quiet rfl (.running hstore henv trivial hframes)
  | ret line value =>
    cases value with
    | none => exact .quiet rfl (.running h hwithin trivial hframes)
    | some value => exact .quiet rfl (hfirst List.mem_cons_self ⟨suits_plain rfl rfl, hframes⟩)
  | brk line => exact .quiet rfl (.running h hwithin trivial hframes)
  | classDecl name superclass methods =>
    rcases superclass with _ | ⟨parent, slot⟩
    · exact .quiet rfl (traced_class h hwithin hframes methods (hplain _ List.mem_cons_self))
    · exact .quiet rfl (.running h hwithin hs.superclass ⟨suits_plain rfl rfl, hframes⟩)

end

theorem traced_passValue {v : Value} {frame : Frame} (h : w.store.Follows causes)
    (hwithin : Within causes a w.env) (hv : v.Sound causes)
    (hcarried : Carried causes a (frame :: frames))
    (horderly : Orderly ⟨.value v, frame :: frames, w⟩) :
    Traced (causes ++ made ⟨.value v, frame :: frames, w⟩) (passValue v frame frames w) := by
  cases frame with
  | assign name slot =>
    obtain ⟨-, hframes⟩ := hcarried
    have hname : Plain name.name := horderly.assigned _ List.mem_cons_self
    have hstore : (w.assign name v slot).2.store.Follows causes := by
      unfold World.assign
      split
      · exact h.assignAt hv hname _
      · exact h.assign hv hname _
      · exact h
    have henv : Within causes a (w.assign name v slot).2.env := by
      rw [World.env_assign]
      exact hwithin
    refine .quiet rfl ?_
    unfold passValue
    dsimp only
    split
    · exact .running hstore henv hv hframes
    · exact .failed hstore
  | unary op line =>
    exact .quiet rfl (traced_ofResult h hwithin hcarried.2 (soundResult_unary op v line))
  | left op right line =>
    obtain ⟨hframe, hframes⟩ := hcarried
    refine .quiet rfl (.running h hwithin (hframe.code _ List.mem_cons_self) ⟨⟨?_, ?_⟩, hframes⟩)
    · intro u hu
      obtain rfl := List.mem_singleton.1 hu
      exact hv
    · intro node hnode
      cases hnode
  | right op left line =>
    exact .quiet rfl (traced_ofResult h hwithin hcarried.2 (soundResult_binary op left v line))
  | logical op right =>
    obtain ⟨hframe, hframes⟩ := hcarried
    refine .quiet rfl ?_
    unfold passValue
    dsimp only
    split
    · exact traced_value h hwithin hframes hv
    · exact .running h hwithin (hframe.code _ List.mem_cons_self) hframes
  | callee arguments line =>
    obtain ⟨hframe, hframes⟩ := hcarried
    have harguments : Covers a (.arguments arguments) := hframe.code _ List.mem_cons_self
    cases arguments with
    | nil => exact traced_call h hwithin hframes line hv (fun u hu => by cases hu) horderly.made
    | cons first rest =>
      refine .quiet rfl (.running h hwithin (harguments.part List.mem_cons_self rfl)
        ⟨⟨?_, ?_⟩, hframes⟩)
      · intro u hu
        obtain rfl := List.mem_singleton.1 hu
        exact hv
      · intro node hnode
        obtain rfl := List.mem_singleton.1 hnode
        exact harguments.part (List.mem_cons_of_mem _ List.mem_cons_self) rfl
  | argument callee before after line =>
    obtain ⟨hframe, hframes⟩ := hcarried
    have hafter : Covers a (.arguments after) := hframe.code _ List.mem_cons_self
    obtain ⟨hcallee, hbefore⟩ := List.forall_mem_cons.1 hframe.values
    have hvalues : ∀ u ∈ v :: before, u.Sound causes := List.forall_mem_cons.2 ⟨hv, hbefore⟩
    cases after with
    | nil =>
      refine traced_call h hwithin hframes line hcallee ?_ horderly.made
      exact fun u hu => hvalues u (List.mem_reverse.1 hu)
    | cons next rest =>
      refine .quiet rfl (.running h hwithin (hafter.part List.mem_cons_self rfl)
        ⟨⟨List.forall_mem_cons.2 ⟨hcallee, hvalues⟩, ?_⟩, hframes⟩)
      intro node hnode
      obtain rfl := List.mem_singleton.1 hnode
      exact hafter.part (List.mem_cons_of_mem _ List.mem_cons_self) rfl
  | get name =>
    obtain ⟨-, hframes⟩ := hcarried
    cases v with
    | object id cls => exact traced_getProperty h hwithin hframes hv
    | _ => exact .quiet rfl (traced_failing h _)
  | setTarget name value =>
    obtain ⟨hframe, hframes⟩ := hcarried
    cases v with
    | object id cls =>
      exact .quiet rfl (.running h hwithin (hframe.code _ List.mem_cons_self)
        ⟨suits_plain rfl rfl, hframes⟩)
    | _ => exact .quiet rfl (traced_failing h _)
  | setField id name => exact .quiet rfl (.running (h.setField hv) hwithin hv hcarried.2)
  | discard => exact .quiet rfl (.running h hwithin trivial hcarried.2)
  | print =>
    refine .quiet rfl ?_
    unfold passValue
    dsimp only
    split
    · exact .running (w := (w.print v.display).2) h hwithin trivial hcarried.2
    · exact .failed (w := (w.print v.display).2) h
  | define name =>
    have hstore : (w.define name.name v).store.Follows causes :=
      h.define hwithin hv (horderly.assigned _ List.mem_cons_self)
    exact .quiet rfl (.running hstore hwithin trivial hcarried.2)
  | branch thenBranch elseBranch =>
    obtain ⟨hframe, hframes⟩ := hcarried
    refine .quiet rfl ?_
    unfold passValue
    dsimp only
    cases elseBranch with
    | none =>
      split
      · exact .running h hwithin (hframe.code _ List.mem_cons_self) hframes
      · exact .running h hwithin trivial hframes
    | some elseBranch =>
      split
      · exact .running h hwithin (hframe.code _ List.mem_cons_self) hframes
      · exact .running h hwithin (hframe.code _ (List.mem_cons_of_mem _ List.mem_cons_self)) hframes
  | test condition body =>
    obtain ⟨hframe, hframes⟩ := hcarried
    refine .quiet rfl ?_
    unfold passValue
    dsimp only
    split
    · exact .running h hwithin (hframe.code _ (List.mem_cons_of_mem _ List.mem_cons_self))
        ⟨suits_code rfl hframe.code, hframes⟩
    · exact .running h hwithin trivial hframes
  | ret => exact .quiet rfl (.running h hwithin hv hcarried.2)
  | inherit name line methods =>
    obtain ⟨-, hframes⟩ := hcarried
    cases v with
    | classRef parent =>
      exact traced_subclass h hwithin hframes methods (horderly.assigned _ List.mem_cons_self) hv
    | _ => exact .quiet rfl (traced_failing h _)
  | created object =>
    obtain ⟨hframe, hframes⟩ := hcarried
    exact .quiet rfl (traced_value h hwithin hframes (hframe.values _ List.mem_cons_self))
  | leave =>
    exact .quiet rfl (.running (w := { w with depth := w.depth - 1 }) h hwithin hv hcarried.2)
  | restore env => exact absurd rfl (horderly.restore v env frames rfl)
  | sequence | again | finish | top => exact .quiet rfl (traced_value h hwithin hcarried.2 hv)

theorem traced_passCompletion {k : Completion} {frame : Frame} (h : w.store.Follows causes)
    (hwithin : Within causes a w.env) (hk : Focus.Suits causes a (.completed k))
    (hcarried : Carried causes a (frame :: frames)) :
    Traced causes (passCompletion k frame frames w) := by
  cases frame with
  | restore env =>
    obtain ⟨outer, houter, hframes⟩ := hcarried
    have hsuits : Focus.Suits causes outer (.completed k) := by
      cases k with
      | returned v => exact hk
      | normal | broken => trivial
    exact .running (w := { w with env := env }) h houter hsuits hframes
  | sequence rest =>
    obtain ⟨hframe, hframes⟩ := hcarried
    by_cases hnormal : k = .normal
    · subst hnormal
      have hbody : Covers a (.body rest) := hframe.code _ List.mem_cons_self
      cases rest with
      | nil => exact .running h hwithin trivial hframes
      | cons s rest =>
        by_cases hs : s.isFunction = true
        · cases s with
          | function decl =>
            have hrest := hbody.part (List.mem_cons_of_mem _ List.mem_cons_self) rfl
            exact .running h hwithin trivial ⟨suits_one rfl rfl hrest, hframes⟩
          | _ => cases hs
        · replace hs : s.isFunction = false := eq_false_of_ne_true hs
          have hparts := Node.parts_body_cons hs rest
          have hfirst : Covers a (.stmt s) :=
            hbody.part (by rw [hparts]; exact List.mem_cons_self) rfl
          have hrest : Covers a (.body rest) :=
            hbody.part (by rw [hparts]; exact List.mem_cons_of_mem _ List.mem_cons_self) rfl
          rw [passCompletion_sequence hs]
          exact .running h hwithin hfirst ⟨suits_one rfl rfl hrest, hframes⟩
    · rw [passCompletion_sequence_of_ne hnormal]
      exact .running h hwithin hk hframes
  | again condition body =>
    obtain ⟨hframe, hframes⟩ := hcarried
    cases k with
    | normal =>
      exact .running h hwithin (hframe.code _ List.mem_cons_self)
        ⟨suits_code rfl hframe.code, hframes⟩
    | returned v => exact .running h hwithin hk hframes
    | broken => exact .running h hwithin trivial hframes
  | finish closure =>
    exact traced_ofResult h hwithin hcarried.2 (soundResult_functionResult h closure hk)
  | top line rest =>
    obtain ⟨hframe, hframes⟩ := hcarried
    by_cases hnormal : k = .normal
    · subst hnormal
      have htop : Covers a (.top rest) := hframe.code _ List.mem_cons_self
      cases rest with
      | nil => exact .running h hwithin trivial hframes
      | cons s rest =>
        have hrest := htop.part (List.mem_cons_of_mem _ List.mem_cons_self) rfl
        exact .running h hwithin (htop.part List.mem_cons_self rfl)
          ⟨suits_one rfl rfl hrest, hframes⟩
    · rw [passCompletion_top_of_ne hnormal]
      exact traced_failing h _
  | _ => exact .running h hwithin hk hcarried.2

theorem traced_passError (e : Error) (frame : Frame) (h : w.store.Follows causes) :
    Traced causes (passError e frame frames w) := by
  cases frame with
  | restore env => exact .failed (w := { w with env := env }) h
  | leave => exact .failed (w := { w with depth := w.depth - 1 }) h
  | top line rest => exact .failed (w := w.reset) h
  | _ => exact .failed h

/-- A step adds the causes of the scopes that it makes. -/
theorem Traced.step {m : Machine} (h : Traced causes m) (horderly : m.Orderly) :
    Traced (causes ++ m.made) m.step := by
  cases h with
  | @running a focus frames w hstore hwithin hfocus hframes =>
    cases focus with
    | evaluate e => exact traced_evaluate hstore hwithin hframes hfocus
    | execute s => exact traced_execute hstore hwithin hframes hfocus horderly
    | value v =>
      cases frames with
      | nil => exact .quiet rfl (.running hstore hwithin hfocus hframes)
      | cons frame frames => exact traced_passValue hstore hwithin hfocus hframes horderly
    | completed k =>
      cases frames with
      | nil => exact .quiet rfl (.running hstore hwithin hfocus hframes)
      | cons frame frames =>
        exact .quiet rfl (traced_passCompletion hstore hwithin hfocus hframes)
    | failed e =>
      cases frames with
      | nil => exact .quiet rfl (.failed hstore)
      | cons frame frames => exact .quiet rfl (traced_passError e frame hstore)
  | @failed e frames w hstore =>
    cases frames with
    | nil => exact .quiet rfl (.failed hstore)
    | cons frame frames => exact .quiet rfl (traced_passError e frame hstore)

end Machine

end Lox
