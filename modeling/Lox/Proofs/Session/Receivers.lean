import Lox.Proofs.Scoping.Classes
import Lox.Proofs.Session.Histories

/-!
# Receivers and superclasses

The scope of a receiver binds the receiver for good, and the scope of a superclass the superclass.
The resolver finds a receiver in the nearest scope of one, which is that of the method at work, and
a superclass just outside it, in the scope that was made when the class of that method was declared.
So both are fixed by where the text stands, whatever class the receiver is of.
-/

set_option autoImplicit false

namespace Lox

open Scoping ResolveM Machine

/-! ## Scopes that are never written -/

theorem Cause.special_of_plain (cause : Cause) {x : String} (hx : Plain x) :
    cause.special.find? x = none := by
  cases cause with
  | block | call => rfl
  | bind => exact Bindings.find?_single_of_ne _ hx.1
  | inherit => exact Bindings.find?_single_of_ne _ hx.2

/-- A scope that no code runs in binds what it was made with. -/
theorem Store.Follows.find?_eq {causes : Causes} {σ : Store} (h : σ.Follows causes) {id : ScopeId}
    {cause : Cause} (hc : causes.cause? id = some cause) (hbody : cause.hasBody = false)
    (x : String) : σ.find? id x = cause.special.find? x := by
  by_cases hx : Plain x
  · rw [h.plain hc hbody hx, cause.special_of_plain hx]
  · rw [h.special hx, hc]
    rfl

/-- A scope that code runs in binds no receiver and no superclass. -/
theorem Store.Follows.find?_eq_none {causes : Causes} {σ : Store} (h : σ.Follows causes)
    {id : ScopeId} {x : String} (hx : ¬ Plain x)
    (hbody : ∀ cause, causes.cause? id = some cause → cause.hasBody = true) :
    σ.find? id x = none := by
  rw [h.special hx]
  cases hc : causes.cause? id with
  | none => rfl
  | some cause => exact Cause.special_of_hasBody (hbody cause hc) x

/-- The scope binds the name to the value, and binds no other name. -/
def Store.BindsOnly (σ : Store) (id : ScopeId) (x : String) (v : Value) : Prop :=
  ∀ y u, σ.find? id y = some u ↔ y = x ∧ u = v

theorem not_plain_this : ¬ Plain "this" := fun h => h.1 rfl

theorem not_plain_super : ¬ Plain "super" := fun h => h.2 rfl

/-! ## The nearest receiver is that of the method at work -/

theorem Nested.eq_receiver {os : List ScopeOrigin} {o : ScopeOrigin} (h : Nested os) (ho : o ∈ os)
    (hthis : "this" ∈ o.names) : o = .receiver := by
  have hsuperclass : "this" ∉ ScopeOrigin.superclass.names := by decide
  induction h with
  | top => cases ho
  | body _ hplain _ ih =>
    rcases List.mem_cons.1 ho with rfl | ho
    · exact absurd (hplain "this" hthis) not_plain_this
    · exact ih ho
  | plain _ ih =>
    rcases List.mem_cons.1 ho with rfl | ho
    · rfl
    · exact ih ho
  | derived _ ih =>
    rcases List.mem_cons.1 ho with rfl | ho
    · rfl
    rcases List.mem_cons.1 ho with rfl | ho
    · exact absurd hthis hsuperclass
    · exact ih ho

namespace World.At

variable {C : Corpus} {shapes : Shapes} {causes : Causes} {os : List ScopeOrigin} {r : Scoping}
  {w : World} {node : Node} {d : Nat}

/-- A receiver is bound in the scopes of receivers and in no other. -/
theorem binds_this_iff {id : ScopeId} {o : ScopeOrigin} (hat : w.At C shapes os r)
    (hknown : KnownIn C ⟨os, r, node⟩) (hid : w.env[d]? = some id) (ho : os[d]? = some o) :
    w.store.Binds id "this" ↔ o = .receiver := by
  obtain ⟨id', hid', horigin⟩ := hat.here.fits.get? ho
  obtain rfl := Option.some.inj (hid.symm.trans hid')
  constructor
  · intro hbinds
    obtain ⟨v, hv⟩ := Option.isSome_iff_exists.1 hbinds
    exact hknown.proper.nested.eq_receiver (List.mem_of_getElem? ho) (hat.typed.name hv horigin)
  · rintro rfl
    exact hat.definite id _ "this" horigin List.mem_cons_self

/-- The nearest receiver is the one that the method at work was bound to. -/
theorem nearest_receiver {a : Option Activation} (hat : w.At C shapes os r)
    (hknown : KnownIn C ⟨os, r, node⟩) (hfollows : w.store.Follows causes)
    (hwithin : Within causes a w.env) (hd : NearestReceiver os d) :
    ∃ method receiver inner scope, a = some (method, receiver) ∧
      w.env = inner ++ scope :: method.env ∧ inner.length = d ∧
      causes.cause? scope = some (.bind method receiver) := by
  obtain ⟨id, hid, -⟩ := hat.here.fits.get? hd.1
  have hbinds : w.store.Binds id "this" := (hat.binds_this_iff hknown hid hd.1).2 rfl
  have hunbound {id' : ScopeId}
      (hbody : ∀ cause, causes.cause? id' = some cause → cause.hasBody = true) :
      ¬ w.store.Binds id' "this" := by
    intro hbinds'
    rw [Store.Binds, hfollows.find?_eq_none not_plain_this hbody] at hbinds'
    cases hbinds'
  cases a with
  | none => exact absurd hbinds (hunbound (hwithin.outside id (List.mem_of_getElem? hid)))
  | some active =>
    obtain ⟨method, receiver⟩ := active
    obtain ⟨inner, scope, henv, hbind, hinner⟩ := hwithin.receiver
    refine ⟨method, receiver, inner, scope, rfl, henv, ?_, hbind⟩
    rcases Nat.lt_trichotomy inner.length d with hlt | heq | hgt
    · -- The scope of the receiver would be nearer than the nearest.
      obtain ⟨o, ho⟩ : ∃ o, os[inner.length]? = some o := by
        have hlength := (List.getElem?_eq_some_iff.1 hd.1).1
        exact ⟨_, List.getElem?_eq_getElem (Nat.lt_trans hlt hlength)⟩
      have hscope : w.env[inner.length]? = some scope := by simp [henv]
      have hthis : w.store.Binds scope "this" := by
        rw [Store.Binds, hfollows.find?_eq hbind rfl]
        rfl
      obtain rfl := (hat.binds_this_iff hknown hscope ho).1 hthis
      exact absurd ho (hd.2 _ hlt)
    · exact heq
    · -- A scope that code runs in would bind a receiver.
      rw [henv, List.getElem?_append_left hgt] at hid
      obtain ⟨cause, hc, hbody⟩ := hinner id (List.mem_of_getElem? hid)
      refine absurd hbinds (hunbound ?_)
      intro cause' hc'
      obtain rfl := Option.some.inj (hc.symm.trans hc')
      exact hbody

end World.At

/-! ## Evaluation in a method -/

namespace KnownIn

variable {C : Corpus} {os : List ScopeOrigin} {r : Scoping} {e : Expr} {line : Nat} {slot : Slot}

theorem nearest_of_this (h : KnownIn C ⟨os, r, .expr e⟩)
    (he : e.resolve.outcome r = .this line slot) :
    ∃ d, slot = some (.atDistance d) ∧ NearestReceiver os d := by
  cases e with
  | this line₀ slot₀ =>
    obtain ⟨d, houtcome, hnearest⟩ := h.nearest_this
    rw [houtcome] at he
    cases he
    exact ⟨d, rfl, hnearest⟩
  | super line₀ method₀ slot₀ =>
    obtain ⟨d, houtcome, -⟩ := h.nearest_super
    rw [houtcome] at he
    cases he
  | literal | group | «variable» | assign | unary | binary | logical | call | get | set | lambda =>
    cases he

theorem nearest_of_super {method : Ident} (h : KnownIn C ⟨os, r, .expr e⟩)
    (he : e.resolve.outcome r = .super line method slot) :
    ∃ d, slot = some (.atDistance (d + 1)) ∧ NearestReceiver os d ∧
      os[d + 1]? = some .superclass := by
  cases e with
  | super line₀ method₀ slot₀ =>
    obtain ⟨d, houtcome, hnearest⟩ := h.nearest_super
    rw [houtcome] at he
    cases he
    exact ⟨d, rfl, hnearest⟩
  | this line₀ slot₀ =>
    obtain ⟨d, houtcome, -⟩ := h.nearest_this
    rw [houtcome] at he
    cases he
  | literal | group | «variable» | assign | unary | binary | logical | call | get | set | lambda =>
    cases he

end KnownIn

/-- The machine works on the expression in the scopes of the method, for the receiver, and of no
other method. The declaration of the method contains the expression. -/
structure Machine.InMethod (causes : Causes) (m : Machine) (e : Expr) (method : Closure)
    (receiver : Value) : Prop where
  within : Within causes (some (method, receiver)) m.world.env
  only : ∀ a, Within causes a m.world.env → a = some (method, receiver)
  text : Contains (.function method.decl) (.expr e)

/-- The scope just outside that of the receiver was made for the superclass of the class that the
method was declared in. -/
theorem Declared.superclass_scope {causes : Causes} {σ : Store} {method : Closure}
    {scope : ScopeId} {cls : Class} (hmethod : Declared causes method) (hfollows : σ.Follows causes)
    (hscope : method.env[0]? = some scope)
    (hcls : σ.find? scope "super" = some (.classRef cls)) :
    ∃ outer methods, method.env = scope :: outer ∧
      causes.cause? scope = some (.inherit outer cls methods) ∧ method.decl ∈ methods := by
  have hscopes := hmethod.scopes
  generalize method.env = env at hscope hscopes
  cases hscopes with
  | plain hwithin =>
    obtain ⟨id, hid, hbody⟩ := hwithin.innermost
    obtain rfl := Option.some.inj (hid.symm.trans hscope)
    rw [hfollows.find?_eq_none not_plain_super hbody] at hcls
    cases hcls
  | @derived _ _ outer parent methods hcause hmem _ =>
    obtain rfl := Option.some.inj hscope
    rw [hfollows.find?_eq hcause rfl] at hcls
    cases hcls
    exact ⟨outer, methods, rfl, hcause, hmem⟩

/-- What is evaluated where a receiver is in sight belongs to the method at work. The receiver is
found at the distance of the nearest, and the scopes of the method start one further out. -/
theorem World.At.in_method {C : Corpus} {shapes : Shapes} {causes : Causes} {os : List ScopeOrigin}
    {r : Scoping} {e : Expr} {frames : List Frame} {w : World} {d : Nat} (hat : w.At C shapes os r)
    (hknown : KnownIn C ⟨os, r, .expr e⟩)
    (htraced : Traced causes ⟨.evaluate (e.resolve.outcome r), frames, w⟩)
    (hd : NearestReceiver os d) :
    ∃ method receiver scope,
      InMethod causes ⟨.evaluate (e.resolve.outcome r), frames, w⟩ (e.resolve.outcome r) method
        receiver ∧
      causes.cause? scope = some (.bind method receiver) ∧ w.env[d]? = some scope ∧
      w.store.find? scope "this" = some receiver ∧ w.env[d + 1]? = method.env[0]? := by
  cases htraced with
  | @running a _ _ _ hfollows hwithin hcovers hframes =>
    obtain ⟨method, receiver, inner, scope, rfl, henv, hlength, hbind⟩ :=
      hat.nearest_receiver hknown hfollows hwithin hd
    refine ⟨method, receiver, scope, ⟨hwithin, ?_, hcovers _ rfl⟩, hbind, ?_, ?_, ?_⟩
    · intro a ha
      exact ha.unique hwithin
    · simp [henv, ← hlength]
    · rw [hfollows.find?_eq hbind rfl]
      rfl
    · rw [henv, ← hlength, List.getElem?_append_right (Nat.le_succ _)]
      simp

namespace Agrees

variable {C : Corpus} {shapes : Shapes} {causes : Causes} {m : Machine} {line : Nat} {slot : Slot}

theorem this_evaluates (h : Agrees C shapes m) (htraced : Traced causes m)
    (hm : m.focus = .evaluate (.this line slot)) :
    ∃ method receiver, m.InMethod causes (.this line slot) method receiver ∧
      m.step = ⟨.value receiver, m.frames, m.world⟩ := by
  cases h with
  | @evaluate os r e frames w hat hknown hwaits =>
    have he : e.resolve.outcome r = .this line slot := Focus.evaluate.inj hm
    obtain ⟨d, rfl, hnearest⟩ := hknown.nearest_of_this he
    obtain ⟨method, receiver, scope, hin, -, hscope, hthis, -⟩ :=
      hat.in_method hknown htraced hnearest
    rw [he] at hin ⊢
    refine ⟨method, receiver, hin, ?_⟩
    change ofResult (w.read "this" line (some (.atDistance d))) frames w = _
    rw [World.read_eq_ok hscope hthis]
    rfl
  | _ => cases hm

theorem super_evaluates {name : Ident} (h : Agrees C shapes m) (htraced : Traced causes m)
    (hm : m.focus = .evaluate (.super line name slot)) :
    ∃ method receiver scope outer parent methods,
      m.InMethod causes (.super line name slot) method receiver ∧ method.env = scope :: outer ∧
      causes.cause? scope = some (.inherit outer parent methods) ∧ method.decl ∈ methods ∧
      superParts line slot m.world = .ok (parent, receiver) := by
  cases h with
  | @evaluate os r e frames w hat hknown hwaits =>
    have he : e.resolve.outcome r = .super line name slot := Focus.evaluate.inj hm
    obtain ⟨d, rfl, hnearest, hsuper⟩ := hknown.nearest_of_super he
    obtain ⟨sid, tid, cls, id, own, hsid, hcls, htid, hown⟩ := super_and_this hat hsuper hnearest.1
    obtain ⟨method, receiver, scope, hin, hbind, hscope, hthis, houter⟩ :=
      hat.in_method hknown htraced hnearest
    obtain rfl := Option.some.inj (htid.symm.trans hscope)
    obtain rfl := Option.some.inj (hown.symm.trans hthis)
    have hfollows : w.store.Follows causes := htraced.follows
    obtain ⟨outer, methods, hmethod, hcause, hmem⟩ :=
      (hfollows.method hbind).superclass_scope hfollows (houter.symm.trans hsid) hcls
    rw [he] at hin ⊢
    refine ⟨method, _, sid, outer, cls, methods, hin, hmethod, hcause, hmem, ?_⟩
    simp [superParts, Store.getAt, hsid, htid, hcls, hown, bind, Except.bind]
  | _ => cases hm

end Agrees

/-! ## Histories of scopes -/

theorem causesOf_mono {earlier past : List Machine} (h : earlier <+: past) :
    causesOf earlier <+: causesOf past := by
  obtain ⟨more, rfl⟩ := h
  exact ⟨causesOf more, List.flatMap_append.symm⟩

theorem isObject_of_mem_madeByCall {callee : Value} {arguments : List Value} {w : World}
    {method : Closure} {receiver : Value} (h : .bind method receiver ∈ madeByCall callee arguments w) :
    ∃ id cls, receiver = .object id cls := by
  unfold madeByCall at h
  split at h
  · cases callee with
    | function id closure | method id closure => cases List.mem_singleton.1 h
    | classRef cls =>
      dsimp only at h
      split at h
      · cases h
      · rcases List.mem_cons.1 h with heq | h
        · cases heq
          exact ⟨_, _, rfl⟩
        · cases List.mem_singleton.1 h
    | _ => cases h
  · cases h

/-- Methods are bound to instances only. -/
theorem isObject_of_mem_made {m : Machine} {method : Closure} {receiver : Value}
    (h : .bind method receiver ∈ m.made) : ∃ id cls, receiver = .object id cls := by
  unfold made at h
  split at h
  · obtain ⟨_, _, _, hparts, heq⟩ := eq_bind_of_mem_madeBySuper h
    cases heq
    obtain ⟨_, -, -, -, hobject⟩ := superParts_eq_ok hparts
    exact hobject
  · cases List.mem_singleton.1 h
  · exact isObject_of_mem_madeByCall h
  · exact isObject_of_mem_madeByCall h
  · obtain ⟨_, heq⟩ := eq_bind_of_mem_madeByGet h
    cases heq
    exact ⟨_, _, rfl⟩
  · cases List.mem_singleton.1 h
  · cases h

theorem isObject_of_cause? {past : List Machine} {id : ScopeId} {method : Closure}
    {receiver : Value} (h : (causesOf past).cause? id = some (.bind method receiver)) :
    ∃ object cls, receiver = .object object cls := by
  cases id with
  | zero => cases h
  | succ id =>
    obtain ⟨m₀, -, hmade⟩ := List.mem_flatMap.1 (List.mem_of_getElem? h)
    exact isObject_of_mem_made hmade

/-- Every scope has its cause, and the scopes of receivers and of superclasses are as they were
made, however long ago. -/
structure Machine.KeepsScopes (past : List Machine) (m : Machine) : Prop where
  size : m.world.store.scopes.size = (causesOf past).length + 1
  receiver : ∀ earlier id method receiver, earlier <+: past →
    (causesOf earlier).cause? id = some (.bind method receiver) →
    m.world.store.BindsOnly id "this" receiver ∧ (∃ object cls, receiver = .object object cls) ∧
      (method.isInitializer = true ↔
        ∃ name, method.decl.name = some name ∧ name.name = Class.initializerName)
  superclass : ∀ earlier id outer parent methods, earlier <+: past →
    (causesOf earlier).cause? id = some (.inherit outer parent methods) →
    m.world.store.BindsOnly id "super" (.classRef parent)
  this : ∀ id v, m.world.store.find? id "this" = some v →
    ∃ method, (causesOf past).cause? id = some (.bind method v)
  super : ∀ id v, m.world.store.find? id "super" = some v →
    ∃ outer parent methods, v = .classRef parent ∧
      (causesOf past).cause? id = some (.inherit outer parent methods)

namespace Machine.Occurs

variable {texts : List String} {past : List Machine} {m m' : Machine} {base : List Frame}

/-- A machine that is on its way comes about as well. -/
theorem returns (h : m.Occurs texts past) (hreturns : Returns base m m') :
    ∃ more, m'.Occurs texts (past ++ more) := by
  induction hreturns generalizing past with
  | here => exact ⟨[], by rwa [List.append_nil]⟩
  | @next m m' _ _ ih =>
    obtain ⟨more, hmore⟩ := ih h.step
    exact ⟨m :: more, by rwa [List.append_assoc] at hmore⟩

theorem follows (h : m.Occurs texts past) : m.world.store.Follows (causesOf past) :=
  h.traced.follows

/-- A scope that no code runs in stays as it was made. -/
theorem bindsOnly (h : m.Occurs texts past) {earlier : List Machine} (hearlier : earlier <+: past)
    {id : ScopeId} {cause : Cause} (hc : (causesOf earlier).cause? id = some cause)
    (hbody : cause.hasBody = false) {x : String} {v : Value}
    (hspecial : cause.special = .single x v) : m.world.store.BindsOnly id x v := by
  intro y u
  rw [h.follows.find?_eq (Causes.cause?_mono (causesOf_mono hearlier) hc) hbody, hspecial]
  constructor
  · exact Bindings.mem_of_find?_single
  · rintro ⟨rfl, rfl⟩
    rw [Bindings.single_eq_put]
    exact Bindings.find?_put_self _ y u

/-- The receiver stays in its scope. -/
theorem find?_this (h : m.Occurs texts past) {earlier : List Machine} (hearlier : earlier <+: past)
    {scope : ScopeId} {method : Closure} {receiver : Value}
    (hbind : (causesOf earlier).cause? scope = some (.bind method receiver)) :
    m.world.store.find? scope "this" = some receiver :=
  (h.bindsOnly hearlier hbind rfl rfl "this" receiver).2 ⟨rfl, rfl⟩

theorem keepsScopes (h : m.Occurs texts past) : m.KeepsScopes past := by
  refine ⟨h.follows.size, ?_, ?_, ?_, ?_⟩
  · intro earlier id method receiver hearlier hbind
    have hmethod := h.follows.method (Causes.cause?_mono (causesOf_mono hearlier) hbind)
    exact ⟨h.bindsOnly hearlier hbind rfl rfl, isObject_of_cause? hbind, hmethod.isInitializer⟩
  · intro earlier id outer parent methods hearlier hinherit
    exact h.bindsOnly hearlier hinherit rfl rfl
  · intro id v hv
    rw [h.follows.special not_plain_this] at hv
    obtain ⟨cause, hc, hspecial⟩ := Option.bind_eq_some_iff.1 hv
    cases cause with
    | block | call => cases hspecial
    | bind method receiver =>
      obtain ⟨-, rfl⟩ := Bindings.mem_of_find?_single hspecial
      exact ⟨method, hc⟩
    | inherit => exact absurd (Bindings.mem_of_find?_single hspecial).1 (by decide)
  · intro id v hv
    rw [h.follows.special not_plain_super] at hv
    obtain ⟨cause, hc, hspecial⟩ := Option.bind_eq_some_iff.1 hv
    cases cause with
    | block | call => cases hspecial
    | bind => exact absurd (Bindings.mem_of_find?_single hspecial).1 (by decide)
    | inherit outer parent methods =>
      obtain ⟨-, rfl⟩ := Bindings.mem_of_find?_single hspecial
      exact ⟨outer, parent, methods, rfl, hc⟩

end Machine.Occurs

/-! ## Initializers -/

namespace Machine

section Calls
variable {w : World} {callee : Value} {arguments : List Value} {closure : Closure}
  {outer base : List Frame} {m m' : Machine}

/-- A call starts on the function that is called, or on the initializer of the class that is called,
bound to a new instance. -/
theorem call_mem_madeByCall (h : .call closure ∈ madeByCall callee arguments w) :
    (callee.arity? = some arguments.length ∧ w.depth < w.maxDepth) ∧
      ((∃ id, callee = .function id closure ∨ callee = .method id closure) ∨
        ∃ cls initializer, callee = .classRef cls ∧
          cls.findMethod? Class.initializerName = some initializer ∧
          closure = initializer.bound w.store.scopes.size ∧
          madeByCall callee arguments w =
            [.bind initializer (.object w.store.objects.size cls), .call closure]) := by
  unfold madeByCall at h ⊢
  split at h
  · rename_i hopen
    rw [if_pos hopen]
    refine ⟨hopen, ?_⟩
    cases callee with
    | function id c =>
      cases List.mem_singleton.1 h
      exact Or.inl ⟨id, Or.inl rfl⟩
    | method id c =>
      cases List.mem_singleton.1 h
      exact Or.inl ⟨id, Or.inr rfl⟩
    | classRef cls =>
      dsimp only at h ⊢
      cases hinitializer : cls.findMethod? Class.initializerName with
      | none =>
        rw [hinitializer] at h
        cases h
      | some initializer =>
        rw [hinitializer] at h
        have hclosure : Cause.call closure = .call (initializer.bound w.store.scopes.size) := by
          simpa using h
        cases hclosure
        exact Or.inr ⟨cls, initializer, rfl, hinitializer, rfl, rfl⟩
    | _ => cases h
  · cases h

/-- The result of the function is that of the call, unless the call makes an instance. Then the
instance is the result. -/
theorem call_eq_enterFunction (line : Nat) (frames : List Frame)
    (h : .call closure ∈ madeByCall callee arguments w) :
    ∃ outer w', call callee arguments line frames w =
        enterFunction closure arguments (outer ++ frames) w' ∧
      (outer = [.leave] ∨ ∃ initializer object, outer = [.created object, .leave] ∧
        closure = initializer.bound w.store.scopes.size ∧
        madeByCall callee arguments w = [.bind initializer object, .call closure]) := by
  obtain ⟨⟨harity, hdepth⟩, hcallee⟩ := call_mem_madeByCall h
  have hcall : call callee arguments line frames w =
      invoke callee arguments line (.leave :: frames) { w with depth := w.depth + 1 } := by
    unfold call
    rw [harity]
    dsimp only
    rw [if_neg (by simp), if_neg (Nat.not_le.2 hdepth)]
  rw [hcall]
  rcases hcallee with ⟨id, rfl | rfl⟩ | ⟨cls, initializer, rfl, hinitializer, rfl, hmade⟩
  · exact ⟨[.leave], _, rfl, Or.inl rfl⟩
  · exact ⟨[.leave], _, rfl, Or.inl rfl⟩
  · have hinvoke (frames : List Frame) (w' : World) :
        invoke (.classRef cls) arguments line frames w' = enterFunction
          (w'.newObject.2.bind initializer (.object w'.newObject.1 cls)).1 arguments
          (.created (.object w'.newObject.1 cls) :: frames)
          (w'.newObject.2.bind initializer (.object w'.newObject.1 cls)).2 := by
      rw [invoke, instantiate, hinitializer]
    rw [hinvoke]
    exact ⟨[.created _, .leave], _, rfl, Or.inr ⟨initializer, _, rfl, rfl, hmade⟩⟩

/-- What is called is a function that stands where code ran, or a method with its receiver. -/
theorem sound_of_call_mem_madeByCall {causes : Causes} (h : w.store.Follows causes)
    (hcallee : callee.Sound causes) (hcall : .call closure ∈ madeByCall callee arguments w) :
    closure.Sound (causes ++ madeByCall callee arguments w) := by
  rcases (call_mem_madeByCall hcall).2 with
    ⟨id, rfl | rfl⟩ | ⟨cls, initializer, rfl, -, rfl, hmade⟩
  · exact Closure.Sound.mono (List.prefix_append _ _) hcallee
  · exact Closure.Sound.mono (List.prefix_append _ _) hcallee
  · have hbind := h.cause?_size (.bind initializer (.object w.store.objects.size cls))
    rw [hmade]
    exact .method (Causes.cause?_mono ⟨[_], List.append_assoc _ _ _⟩ hbind)

/-- Only calls start on functions. -/
theorem step_of_call_mem_made {causes : Causes} (htraced : Traced causes m)
    (h : .call closure ∈ m.made) :
    ∃ callee arguments line, callee.Sound causes ∧ m.made = madeByCall callee arguments m.world ∧
      m.step = call callee arguments line m.frames.tail m.world := by
  unfold made at h
  split at h
  · obtain ⟨_, _, _, -, heq⟩ := eq_bind_of_mem_madeBySuper h
    cases heq
  · cases List.mem_singleton.1 h
  · cases htraced with
    | running _ _ hfocus _ => exact ⟨_, _, _, hfocus, rfl, rfl⟩
  · cases htraced with
    | running _ _ _ hframes =>
      exact ⟨_, _, _, hframes.1.values _ List.mem_cons_self, rfl, rfl⟩
  · obtain ⟨_, heq⟩ := eq_bind_of_mem_madeByGet h
    cases heq
  · cases List.mem_singleton.1 h
  · cases h

/-- A function that ends with a value has completed its body. -/
theorem Returns.finish (h : Returns base (enterFunction closure arguments (outer ++ base) w) m')
    {u : Value} (hu : m'.focus = .value u) :
    ∃ c w', Returns (.finish closure :: (outer ++ base))
        (enterFunction closure arguments (outer ++ base) w)
        ⟨.completed c, .finish closure :: (outer ++ base), w'⟩ ∧
      Returns base (ofResult (functionResult closure c w') (outer ++ base) w') m' := by
  have habove : Above ((.finish closure :: outer) ++ base) .completion w.env w.depth
      (enterFunction closure arguments (outer ++ base) w) :=
    above_enterBody (.finish closure :: (outer ++ base))
      (w.newScope (Bindings.empty.putAll (closure.decl.params.map Ident.name) arguments)).2
      (w.store.scopes.size :: closure.env) closure.decl.body
  obtain ⟨m'', hbody, hrest⟩ := h.through habove (Nat.succ_pos _)
  obtain ⟨⟨inner, hframes, -, hyields, -⟩, hover⟩ := habove.of_returns hbody
  have hnil : inner = [] := by simpa [hover.1] using hframes
  subst hnil
  obtain ⟨focus, frames, w'⟩ := m''
  obtain ⟨rfl, hfocus⟩ := hover
  cases focus with
  | evaluate | execute => cases hfocus
  | value => cases hyields
  | failed e =>
    obtain ⟨e', he'⟩ := hrest.failed ⟨e, rfl⟩
    cases he'.symm.trans hu
  | completed c =>
    refine ⟨c, w', hbody, hrest.step_of_lt ?_⟩
    simp only [List.length_cons, List.length_append]
    omega

/-- The end of a call leaves its value as it is. -/
theorem Returns.leave {v : Value} (h : Returns base ⟨.value v, .leave :: base, w⟩ m') :
    m'.focus = .value v := by
  have hstep := h.step_of_lt (Nat.lt_succ_self _)
  rw [hstep.eq_of_handsOver ⟨rfl, trivial⟩]
  rfl

end Calls

namespace Occurs

variable {texts : List String} {past : List Machine} {m m' : Machine} {base : List Frame}

/-- A call of an initializer that ends with a value ends with the receiver. -/
theorem initializer_returns (h : m.Occurs texts past) {method : Closure} {receiver u : Value}
    {scope : ScopeId} (hcall : .call (method.bound scope) ∈ m.made)
    (hbind : (causesOf (past ++ [m])).cause? scope = some (.bind method receiver))
    (hinitializer : (method.bound scope).isInitializer = true)
    (hreturns : Returns m.frames.tail m.step m') (hu : m'.focus = .value u) : u = receiver := by
  obtain ⟨callee, arguments, line, -, hmade, hstep⟩ := step_of_call_mem_made h.traced hcall
  rw [hmade] at hcall
  obtain ⟨outer, w, hentered, houter⟩ := call_eq_enterFunction line m.frames.tail hcall
  have hnext : m.step = enterFunction (method.bound scope) arguments (outer ++ m.frames.tail) w :=
    hstep.trans hentered
  rw [hnext] at hreturns
  obtain ⟨c, w', hbody, hrest⟩ := hreturns.finish hu
  rw [← hnext] at hbody
  obtain ⟨more, hoccurs⟩ := h.step.returns hbody
  have hthis := hoccurs.find?_this (List.prefix_append _ more) hbind
  have hresult : functionResult (method.bound scope) c w' = .ok receiver := by
    unfold functionResult
    rw [if_pos hinitializer]
    simp [Store.getAt, Closure.bound, hthis]
  rw [hresult] at hrest
  rcases houter with rfl | ⟨initializer, object, rfl, hclosure, hcauses⟩
  · exact Focus.value.inj (hu.symm.trans hrest.leave)
  · -- The scope is the one that was just made for the new instance.
    obtain rfl : scope = m.world.store.scopes.size :=
      (List.cons.inj (congrArg Closure.env hclosure)).1
    have hprefix : causesOf past ++ [.bind initializer object] <+: causesOf (past ++ [m]) := by
      simp [causesOf, hmade, hcauses]
    have hmadeFor := Causes.cause?_mono hprefix (h.follows.cause?_size (.bind initializer object))
    obtain ⟨-, hobject⟩ := Cause.bind.inj (Option.some.inj (hmadeFor.symm.trans hbind))
    have hcreated := hrest.step_of_lt (Nat.lt_add_of_pos_right Nat.two_pos)
    rw [← hobject]
    exact Focus.value.inj (hu.symm.trans (Returns.leave hcreated))

/-- An initializer that is called has a receiver. -/
theorem initializer_bound (h : m.Occurs texts past) {closure : Closure} (hcall : .call closure ∈ m.made)
    (hinitializer : closure.isInitializer = true) :
    ∃ method scope receiver, closure = method.bound scope ∧
      (causesOf (past ++ [m])).cause? scope = some (.bind method receiver) := by
  obtain ⟨callee, arguments, line, hcallee, hmade, -⟩ := step_of_call_mem_made h.traced hcall
  have hsound : closure.Sound (causesOf (past ++ [m])) := by
    rw [causesOf, List.flatMap_append, List.flatMap_singleton, hmade]
    rw [hmade] at hcall
    exact sound_of_call_mem_madeByCall h.follows hcallee hcall
  cases hsound with
  | function => cases hinitializer
  | @method method receiver scope hbind => exact ⟨method, scope, receiver, rfl, hbind⟩

end Occurs

end Machine

/-! ## Main result -/

/-- A receiver and a superclass stay where they were put. So an expression within a method finds the
receiver of that method, and looks for inherited methods from the superclass of the class that the
method is declared in, whatever class the receiver is of. An initializer ends with its receiver. -/
theorem receivers_and_superclasses_fixed {texts : List String} {past : List Machine} {m : Machine}
    (hm : m.Occurs texts past) :
    m.KeepsScopes past ∧
    (∀ line slot, m.focus = .evaluate (.this line slot) →
      ∃ method receiver, m.InMethod (causesOf past) (.this line slot) method receiver ∧
        m.step = ⟨.value receiver, m.frames, m.world⟩) ∧
    (∀ line name slot, m.focus = .evaluate (.super line name slot) →
      ∃ method receiver scope outer parent methods,
        m.InMethod (causesOf past) (.super line name slot) method receiver ∧
        method.env = scope :: outer ∧
        (causesOf past).cause? scope = some (.inherit outer parent methods) ∧
        method.decl ∈ methods ∧
        (∀ found, parent.findMethod? name.name = some found →
          m.step = ⟨.value (m.world.boundMethod found receiver).1, m.frames,
            (m.world.boundMethod found receiver).2⟩) ∧
        (parent.findMethod? name.name = none →
          m.step = failing (.runtime (.undefinedProperty name.name) name.line) m.frames m.world)) ∧
    (∀ closure, .call closure ∈ m.made → closure.isInitializer = true →
      ∃ method scope receiver, closure = method.bound scope ∧
        (causesOf (past ++ [m])).cause? scope = some (.bind method receiver) ∧
        ∀ m' u, Returns m.frames.tail m.step m' → m'.focus = .value u → u = receiver) := by
  obtain ⟨shapes, hagrees, -⟩ := hm.placed
  refine ⟨hm.keepsScopes, ?_, ?_, ?_⟩
  · intro line slot hfocus
    exact hagrees.this_evaluates hm.traced hfocus
  · intro line name slot hfocus
    obtain ⟨method, receiver, scope, outer, parent, methods, hin, henv, hcause, hmem, hparts⟩ :=
      hagrees.super_evaluates hm.traced hfocus
    have hstep : m.step = evaluateSuper line name slot m.frames m.world := by
      obtain ⟨focus, frames, w⟩ := m
      obtain rfl : focus = .evaluate (.super line name slot) := hfocus
      rfl
    refine ⟨method, receiver, scope, outer, parent, methods, hin, henv, hcause, hmem, ?_, ?_⟩
    · intro found hfound
      rw [hstep, evaluateSuper, hparts]
      dsimp only
      rw [hfound]
    · intro hnone
      rw [hstep, evaluateSuper, hparts]
      dsimp only
      rw [hnone]
  · intro closure hcall hinitializer
    obtain ⟨method, scope, receiver, rfl, hbind⟩ := hm.initializer_bound hcall hinitializer
    refine ⟨method, scope, receiver, rfl, hbind, ?_⟩
    intro m' u hreturns hu
    exact hm.initializer_returns hcall hbind hinitializer hreturns hu

/-! ## A class that inherits its initializer -/

/-- What is evaluated next, if that is a receiver or an inherited method. -/
def Focus.keyword? : Focus → Option String
  | .evaluate (.this _ _) => some "this"
  | .evaluate (.super _ _ _) => some "super"
  | _ => none

def Focus.value? : Focus → Option Value
  | .value v => some v
  | _ => none

def Cause.isInitializerCall : Cause → Bool
  | .call closure => closure.isInitializer
  | _ => false

namespace Focus

variable {focus : Focus}

theorem eq_this_of_keyword? (h : focus.keyword? = some "this") :
    ∃ line slot, focus = .evaluate (.this line slot) := by
  unfold keyword? at h
  split at h
  · exact ⟨_, _, rfl⟩
  · exact absurd (Option.some.inj h) (by decide)
  · cases h

theorem eq_super_of_keyword? (h : focus.keyword? = some "super") :
    ∃ line name slot, focus = .evaluate (.super line name slot) := by
  unfold keyword? at h
  split at h
  · exact absurd (Option.some.inj h) (by decide)
  · exact ⟨_, _, _, rfl⟩
  · cases h

theorem eq_value_of_value? (h : focus.value?.isSome) : ∃ v, focus = .value v := by
  cases focus with
  | value v => exact ⟨v, rfl⟩
  | _ => cases h

end Focus

theorem Machine.exists_initializerCall {m : Machine}
    (h : m.made.any Cause.isInitializerCall = true) :
    ∃ closure, .call closure ∈ m.made ∧ closure.isInitializer = true := by
  obtain ⟨cause, hmem, hcause⟩ := List.any_eq_true.1 h
  cases cause with
  | call closure => exact ⟨closure, hmem, hcause⟩
  | _ => cases hcause

/-- An instance of a class that inherits its initializer, which asks for the initializer of its own
superclass from within a function. -/
theorem receivers_and_superclasses_fixed_inherited :
    let source := "fun () \x7b class A \x7b init() \x7b return; \x7d \x7d " ++
      "class B < A \x7b init() \x7b fun f() \x7b super.init(); return this; \x7d f(); \x7d \x7d " ++
      "class C < B \x7b \x7d return C; \x7d()()"
    ∃ task, Request.evaluate.task source = .ok task ∧
      let start := task.start (Session.new .unlimited fun _ => 0)
      (start.after 43).Occurs [source] (start.moments 43) ∧
      (∃ line slot method receiver, (start.after 43).focus = .evaluate (.this line slot) ∧
        (start.after 43).InMethod (causesOf (start.moments 43)) (.this line slot) method receiver ∧
        (start.after 44).focus = .value receiver) ∧
      (∃ line name slot method receiver scope outer parent methods,
        (start.after 32).focus = .evaluate (.super line name slot) ∧
        (start.after 32).InMethod (causesOf (start.moments 32)) (.super line name slot) method
          receiver ∧
        method.env = scope :: outer ∧
        (causesOf (start.moments 32)).cause? scope = some (.inherit outer parent methods) ∧
        method.decl ∈ methods) ∧
      ∃ method scope receiver, .call (method.bound scope) ∈ (start.after 22).made ∧
        (causesOf (start.moments 23)).cause? scope = some (.bind method receiver) ∧
        (start.after 55).focus = .value receiver := by
  intro source
  let s := Session.new .unlimited fun _ => 0
  have hrun : ((Request.evaluate.task source).toOption.any fun task =>
      ((task.start s).after 43).focus.keyword? = some "this" ∧
        ((task.start s).after 32).focus.keyword? = some "super" ∧
        ((task.start s).after 22).made.any Cause.isInitializerCall = true ∧
        ((task.start s).after 22).frames.length = 1 ∧
        ((task.start s).after 55).isFinal = true ∧
        ((task.start s).after 55).focus.value?.isSome) = true := by decide +kernel
  cases htask : Request.evaluate.task source with
  | error e =>
    rw [htask] at hrun
    cases hrun
  | ok task =>
    simp only [htask, Except.toOption, Option.any_some, decide_eq_true_eq] at hrun
    obtain ⟨hthis, hsuper, hcall, hframes, hfinal, hvalue⟩ := hrun
    have hoccurs (n : Nat) : ((task.start s).after n).Occurs [source] ((task.start s).moments n) :=
      ⟨s, [], [], .evaluate, source, task, n, .new .unlimited _, htask, rfl, rfl, rfl⟩
    refine ⟨task, rfl, hoccurs 43, ?_, ?_, ?_⟩
    · obtain ⟨line, slot, hfocus⟩ := Focus.eq_this_of_keyword? hthis
      obtain ⟨-, hevaluates, -⟩ := receivers_and_superclasses_fixed (hoccurs 43)
      obtain ⟨method, receiver, hin, hstep⟩ := hevaluates line slot hfocus
      exact ⟨line, slot, method, receiver, hfocus, hin, congrArg Machine.focus hstep⟩
    · obtain ⟨line, name, slot, hfocus⟩ := Focus.eq_super_of_keyword? hsuper
      obtain ⟨-, -, hevaluates, -⟩ := receivers_and_superclasses_fixed (hoccurs 32)
      obtain ⟨method, receiver, scope, outer, parent, methods, hin, henv, hcause, hmem, -⟩ :=
        hevaluates line name slot hfocus
      exact ⟨line, name, slot, method, receiver, scope, outer, parent, methods, hfocus, hin, henv,
        hcause, hmem⟩
    · obtain ⟨closure, hmem, hinitializer⟩ := Machine.exists_initializerCall hcall
      obtain ⟨-, -, -, hcalls⟩ := receivers_and_superclasses_fixed (hoccurs 22)
      obtain ⟨method, scope, receiver, rfl, hbind, hreturns⟩ := hcalls closure hmem hinitializer
      have htail : ((task.start s).after 22).frames.tail = [] := by
        rw [← List.length_eq_zero_iff, List.length_tail, hframes]
      have hlast (start : Machine) : start.after 55 = (start.after 22).step.after 32 :=
        start.after_add 23 32
      rw [hlast] at hfinal hvalue
      obtain ⟨u, hu⟩ := Focus.eq_value_of_value? hvalue
      have hreturned : Returns ((task.start s).after 22).frames.tail
          ((task.start s).after 22).step (((task.start s).after 22).step.after 32) := by
        rw [htail]
        exact returns_of_isFinal hfinal
      have hreceiver : u = receiver := hreturns _ u hreturned hu
      refine ⟨method, scope, receiver, hmem, hbind, ?_⟩
      rw [← hreceiver, ← hu]
      exact congrArg Machine.focus (hlast _)

end Lox
