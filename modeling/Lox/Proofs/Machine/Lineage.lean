import Lox.Proofs.Lines.Syntax
import Lox.Proofs.Machine.Calls
import Lox.Proofs.Machine.Environments

/-!
# Stores that follow a list of causes

A store follows a list of causes if its scopes were made for them in this order. Then a name that
is not plain is bound where a receiver or a superclass was and nowhere else, and the scopes of all
that the store holds are told by the list: code runs in the scopes of blocks and functions around
it, out to the method that is at work.
-/

set_option autoImplicit false

namespace Lox

open Scoping ResolveM

/-! ## Text -/

def Node.isMethods : Node → Bool
  | .methods _ => true
  | _ => false

/-- The node contains another one that belongs to the same class declaration. -/
inductive Contains (n : Node) : Node → Prop where
  | self : Contains n n
  | part {a b : Node} : Contains n a → b ∈ a.parts → b.isMethods = false → Contains n b
  /-- The name of a superclass stands outside the class. -/
  | superclass {name parent : Ident} {slot : Slot} {methods : List FunDecl} :
      Contains n (.stmt (.classDecl name (some (parent, slot)) methods)) →
      Contains n (.expr (.variable parent slot))

/-! ## Scopes that code runs in -/

/-- A method at work for a receiver. -/
abbrev Activation := Closure × Value

/-- The activation, if there is one, is of a method whose declaration contains the node. -/
def Covers (a : Option Activation) (node : Node) : Prop :=
  ∀ active ∈ a, Contains (.function active.1.decl) node

/-- The scopes are those of blocks and functions, out to the scope of the method that is at work
and that of its receiver, or else out to the top level. -/
inductive Within (causes : Causes) : Option Activation → Env → Prop where
  | top : Within causes none World.topEnv
  | block {a : Option Activation} {id : ScopeId} {outer : Env} {body : List Stmt} :
      Within causes a outer → causes.cause? id = some (.block outer body) →
      Within causes a (id :: outer)
  | function {a : Option Activation} {id : ScopeId} {closure : Closure} :
      Within causes a closure.env → causes.cause? id = some (.call closure) →
      Within causes a (id :: closure.env)
  | method {method : Closure} {receiver : Value} {id scope : ScopeId} :
      causes.cause? scope = some (.bind method receiver) →
      causes.cause? id = some (.call (method.bound scope)) →
      Within causes (some (method, receiver)) (id :: scope :: method.env)

/-- The scopes of a method of a class that was declared where code ran. If the class has a
superclass, its methods see the scope that was made for it. -/
inductive MethodScopes (causes : Causes) (decl : FunDecl) : Env → Prop where
  | plain {a : Option Activation} {env : Env} : Within causes a env → MethodScopes causes decl env
  | derived {a : Option Activation} {scope : ScopeId} {outer : Env} {parent : Class}
      {methods : List FunDecl} :
      causes.cause? scope = some (.inherit outer parent methods) → decl ∈ methods →
      Within causes a outer → MethodScopes causes decl (scope :: outer)

/-- The method is one of a class that was declared. -/
structure Declared (causes : Causes) (method : Closure) : Prop where
  isInitializer : method.isInitializer = true ↔
    ∃ name, method.decl.name = some name ∧ name.name = Class.initializerName
  scopes : MethodScopes causes method.decl method.env

/-- The closure is of a function that stands where code ran, or of a method with its receiver. -/
inductive Closure.Sound (causes : Causes) : Closure → Prop where
  | function {decl : FunDecl} {env : Env} {a : Option Activation} :
      Within causes a env → Covers a (.function decl) → Sound causes ⟨decl, env, false⟩
  | method {method : Closure} {receiver : Value} {scope : ScopeId} :
      causes.cause? scope = some (.bind method receiver) → Sound causes (method.bound scope)

def Class.Sound (causes : Causes) (cls : Class) : Prop :=
  ∀ name method, cls.findMethod? name = some method → Declared causes method

def Value.Sound (causes : Causes) : Value → Prop
  | .function _ c => c.Sound causes
  | .method _ c => c.Sound causes
  | .classRef cls => cls.Sound causes
  | .object _ cls => cls.Sound causes
  | _ => True

/-- The scopes of the store were made by these causes, and whatever it holds is sound. -/
structure Store.Follows (causes : Causes) (σ : Store) : Prop where
  size : σ.scopes.size = causes.length + 1
  special : ∀ {id x}, ¬ Plain x →
    σ.find? id x = (causes.cause? id).bind fun cause => cause.special.find? x
  plain : ∀ {id x cause}, causes.cause? id = some cause → cause.hasBody = false → Plain x →
    σ.find? id x = none
  method : ∀ {id method receiver}, causes.cause? id = some (.bind method receiver) →
    Declared causes method
  value : ∀ {id x v}, σ.find? id x = some v → v.Sound causes
  field : ∀ {id x v}, σ.field? id x = some v → v.Sound causes

/-! ## More causes -/

section Growth
variable {causes causes' : Causes} (h : causes <+: causes')
include h

theorem Within.mono {a : Option Activation} {env : Env} (hwithin : Within causes a env) :
    Within causes' a env := by
  induction hwithin with
  | top => exact .top
  | block _ hc ih => exact .block ih (Causes.cause?_mono h hc)
  | function _ hc ih => exact .function ih (Causes.cause?_mono h hc)
  | method hbind hcall => exact .method (Causes.cause?_mono h hbind) (Causes.cause?_mono h hcall)

theorem MethodScopes.mono {decl : FunDecl} {env : Env} (hscopes : MethodScopes causes decl env) :
    MethodScopes causes' decl env := by
  cases hscopes with
  | plain hwithin => exact .plain (hwithin.mono h)
  | derived hscope hmem houter => exact .derived (Causes.cause?_mono h hscope) hmem (houter.mono h)

theorem Declared.mono {method : Closure} (hmethod : Declared causes method) :
    Declared causes' method :=
  ⟨hmethod.isInitializer, hmethod.scopes.mono h⟩

theorem Closure.Sound.mono {c : Closure} (hc : c.Sound causes) : c.Sound causes' := by
  cases hc with
  | function hwithin hcovers => exact .function (hwithin.mono h) hcovers
  | method hbind => exact .method (Causes.cause?_mono h hbind)

theorem Class.Sound.mono {cls : Class} (hcls : cls.Sound causes) : cls.Sound causes' :=
  fun name method hmethod => (hcls name method hmethod).mono h

theorem Value.Sound.mono {v : Value} (hv : v.Sound causes) : v.Sound causes' := by
  cases v with
  | function id c | method id c => exact Closure.Sound.mono h hv
  | classRef cls | object id cls => exact Class.Sound.mono h hv
  | _ => trivial

end Growth

/-! ## The activation in force -/

namespace Within

variable {causes : Causes} {a a' : Option Activation} {env : Env}

/-- Code runs in a scope that names can be declared in. -/
theorem innermost (h : Within causes a env) :
    ∃ id, env[0]? = some id ∧ ∀ cause, causes.cause? id = some cause → cause.hasBody = true := by
  cases h with
  | top =>
    refine ⟨0, rfl, ?_⟩
    intro cause hc
    cases hc
  | block _ hid | function _ hid | method _ hid =>
    refine ⟨_, rfl, ?_⟩
    intro cause hc
    rw [hid] at hc
    cases hc
    rfl

/-- The scopes in force tell which method is at work, and for which receiver. -/
theorem unique (h : Within causes a env) (h' : Within causes a' env) : a = a' := by
  induction h with
  | top =>
    generalize henv : World.topEnv = env at h'
    cases h' with
    | top => rfl
    | block _ hid | function _ hid | method _ hid =>
      obtain ⟨rfl, -⟩ := List.cons.inj henv
      cases hid
  | block _ hid ih =>
    cases h' with
    | top => cases hid
    | block houter _ => exact ih houter
    | function _ hid' | method _ hid' => cases hid.symm.trans hid'
  | @function a id closure hclosure hid ih =>
    generalize henv : id :: closure.env = env at h'
    cases h' with
    | top =>
      obtain ⟨rfl, -⟩ := List.cons.inj henv
      cases hid
    | block _ hid' =>
      obtain ⟨rfl, -⟩ := List.cons.inj henv
      cases hid.symm.trans hid'
    | function hclosure' hid' =>
      obtain ⟨rfl, -⟩ := List.cons.inj henv
      cases hid.symm.trans hid'
      exact ih hclosure'
    | method hbind hid' =>
      obtain ⟨rfl, -⟩ := List.cons.inj henv
      cases hid.symm.trans hid'
      -- No code runs in the scope of a receiver itself.
      obtain ⟨_, hscope, hbody⟩ := hclosure.innermost
      cases hscope
      cases hbody _ hbind
  | @method method receiver id scope hbind hid =>
    generalize henv : id :: scope :: method.env = env at h'
    cases h' with
    | top =>
      obtain ⟨rfl, -⟩ := List.cons.inj henv
      cases hid
    | block _ hid' =>
      obtain ⟨rfl, -⟩ := List.cons.inj henv
      cases hid.symm.trans hid'
    | function hclosure' hid' =>
      obtain ⟨rfl, -⟩ := List.cons.inj henv
      cases hid.symm.trans hid'
      obtain ⟨_, hscope, hbody⟩ := hclosure'.innermost
      cases hscope
      cases hbody _ hbind
    | method hbind' hid' =>
      obtain ⟨rfl, htail⟩ := List.cons.inj henv
      obtain ⟨rfl, -⟩ := List.cons.inj htail
      cases hbind.symm.trans hbind'
      rfl

/-- The scope of the receiver is the nearest one that was not made for code. -/
theorem receiver {method : Closure} {v : Value} (h : Within causes (some (method, v)) env) :
    ∃ inner scope, env = inner ++ scope :: method.env ∧
      causes.cause? scope = some (.bind method v) ∧
      ∀ id ∈ inner, ∃ cause, causes.cause? id = some cause ∧ cause.hasBody = true := by
  generalize ha : some (method, v) = a at h
  induction h with
  | top => cases ha
  | @block _ id _ _ _ hid ih | @function _ id _ _ hid ih =>
    obtain ⟨inner, scope, henv, hbind, hinner⟩ := ih ha
    refine ⟨id :: inner, scope, by rw [henv]; rfl, hbind, ?_⟩
    intro id' hid'
    rcases List.mem_cons.1 hid' with rfl | hid'
    · exact ⟨_, hid, rfl⟩
    · exact hinner id' hid'
  | @method _ _ id scope hbind hid =>
    cases ha
    refine ⟨[id], scope, rfl, hbind, ?_⟩
    intro id' hid'
    obtain rfl := List.mem_singleton.1 hid'
    exact ⟨_, hid, rfl⟩

/-- Outside all methods, every scope but the top level was made for code. -/
theorem outside (h : Within causes none env) :
    ∀ id ∈ env, ∀ cause, causes.cause? id = some cause → cause.hasBody = true := by
  generalize ha : none = a at h
  induction h with
  | top =>
    intro id hid cause hc
    obtain rfl := List.mem_singleton.1 hid
    cases hc
  | block _ hid ih | function _ hid ih =>
    intro id' hid' cause hc
    rcases List.mem_cons.1 hid' with rfl | hid'
    · rw [hid] at hc
      cases hc
      rfl
    · exact ih ha id' hid' cause hc
  | method => cases ha

end Within

/-! ## Stores -/

theorem Bindings.find?_single_of_ne {α : Type} {name x : String} (value : α) (h : x ≠ name) :
    (single name value).find? x = none := by
  rw [single_eq_put, find?_put_of_ne _ _ h]
  rfl

theorem Cause.special_of_hasBody {cause : Cause} (h : cause.hasBody = true) (x : String) :
    cause.special.find? x = none := by
  cases cause with
  | block | call => rfl
  | bind | inherit => cases h

namespace Store.Follows

variable {causes : Causes} {σ : Store}

/-- The next scope is the only one that another cause adds to. -/
theorem cause?_append {id : ScopeId} {cause cause' : Cause} (h : σ.Follows causes)
    (hc : Causes.cause? (causes ++ [cause]) id = some cause') :
    (id = σ.scopes.size ∧ cause = cause') ∨
      (id ≠ σ.scopes.size ∧ causes.cause? id = some cause') := by
  cases id with
  | zero => cases hc
  | succ id =>
    rw [Causes.cause?, List.getElem?_append] at hc
    split at hc
    · rename_i hlt
      refine Or.inr ⟨?_, hc⟩
      rw [h.size]
      exact Nat.ne_of_lt (Nat.succ_lt_succ hlt)
    · obtain ⟨hlt, heq⟩ := List.getElem?_eq_some_iff.1 hc
      have hid : id = causes.length := by
        simp only [List.length_singleton] at hlt
        omega
      subst hid
      exact Or.inl ⟨by rw [h.size], by simpa using heq⟩

theorem cause?_size (h : σ.Follows causes) (cause : Cause) :
    Causes.cause? (causes ++ [cause]) σ.scopes.size = some cause := by
  rw [h.size]
  simp [Causes.cause?]

theorem cause?_append_of_ne {id : ScopeId} (h : σ.Follows causes) (cause : Cause)
    (hid : id ≠ σ.scopes.size) : Causes.cause? (causes ++ [cause]) id = causes.cause? id := by
  cases hc : Causes.cause? (causes ++ [cause]) id with
  | some cause' =>
    rcases h.cause?_append hc with ⟨heq, -⟩ | ⟨-, hc'⟩
    · exact absurd heq hid
    · exact hc'.symm
  | none =>
    cases hc' : causes.cause? id with
    | none => rfl
    | some cause' =>
      rw [Causes.cause?_mono (List.prefix_append _ _) hc'] at hc
      cases hc

/-- Plain names may be bound in scopes that code runs in, and overwritten anywhere. -/
theorem put {id : ScopeId} {x : String} {v : Value} (h : σ.Follows causes) (hv : v.Sound causes)
    (hx : Plain x)
    (hid : σ.Binds id x ∨ ∀ cause, causes.cause? id = some cause → cause.hasBody = true) :
    (σ.put id x v).Follows causes := by
  refine ⟨?_, ?_, ?_, h.method, ?_, h.field⟩
  · simpa [Store.put] using h.size
  · intro id' y hy
    have hne : ¬ (id = id' ∧ x = y) := by
      rintro ⟨-, rfl⟩
      exact hy hx
    rw [find?_put, if_neg hne]
    exact h.special hy
  · intro id' y cause hc hbody hy
    have hne : ¬ (id = id' ∧ x = y) := by
      rintro ⟨rfl, rfl⟩
      rcases hid with hbound | hid
      · rw [Binds, h.plain hc hbody hx] at hbound
        cases hbound
      · rw [hid cause hc] at hbody
        cases hbody
    rw [find?_put, if_neg hne]
    exact h.plain hc hbody hy
  · intro id' y u hu
    rw [find?_put] at hu
    split at hu
    · obtain ⟨-, -, rfl⟩ := Option.map_eq_some_iff.1 hu
      exact hv
    · exact h.value hu

theorem newScope {cause : Cause} {bindings : Bindings Value} (h : σ.Follows causes)
    (hspecial : ∀ x, ¬ Plain x → bindings.find? x = cause.special.find? x)
    (hplain : cause.hasBody = false → ∀ x, Plain x → bindings.find? x = none)
    (hmethod : ∀ method receiver, cause = .bind method receiver → Declared causes method)
    (hvalue : ∀ x v, bindings.find? x = some v → v.Sound causes) :
    (σ.newScope bindings).2.Follows (causes ++ [cause]) := by
  have hcauses : causes <+: causes ++ [cause] := List.prefix_append _ _
  refine ⟨?_, ?_, ?_, ?_, ?_, fun hv => (h.field hv).mono hcauses⟩
  · simp [Store.newScope, h.size]
  · intro id x hx
    rw [find?_newScope]
    by_cases hid : id = σ.scopes.size
    · subst hid
      rw [if_pos rfl, h.cause?_size]
      exact hspecial x hx
    · rw [if_neg hid, h.cause?_append_of_ne cause hid]
      exact h.special hx
  · intro id x cause' hc hbody hx
    rw [find?_newScope]
    rcases h.cause?_append hc with ⟨rfl, rfl⟩ | ⟨hid, hc⟩
    · rw [if_pos rfl]
      exact hplain hbody x hx
    · rw [if_neg hid]
      exact h.plain hc hbody hx
  · intro id method receiver hc
    rcases h.cause?_append hc with ⟨-, hcause⟩ | ⟨-, hc⟩
    · exact (hmethod method receiver hcause).mono hcauses
    · exact (h.method hc).mono hcauses
  · intro id x v hv
    rw [find?_newScope] at hv
    split at hv
    · exact (hvalue x v hv).mono hcauses
    · exact (h.value hv).mono hcauses

theorem setField {id : ObjectId} {x : String} {v : Value} (h : σ.Follows causes)
    (hv : v.Sound causes) : (σ.setField id x v).Follows causes := by
  refine ⟨h.size, h.special, h.plain, h.method, h.value, ?_⟩
  intro id' y u hu
  rw [field?_setField] at hu
  split at hu
  · obtain ⟨-, -, rfl⟩ := Option.map_eq_some_iff.1 hu
    exact hv
  · exact h.field hu

theorem newObject (h : σ.Follows causes) : σ.newObject.2.Follows causes := by
  refine ⟨h.size, h.special, h.plain, h.method, h.value, ?_⟩
  intro id x v hv
  rw [field?_newObject] at hv
  exact h.field hv

theorem newId (h : σ.Follows causes) : σ.newId.2.Follows causes :=
  ⟨h.size, h.special, h.plain, h.method, h.value, h.field⟩

theorem define {a : Option Activation} {env : Env} {x : String} {v : Value} (h : σ.Follows causes)
    (hwithin : Within causes a env) (hv : v.Sound causes) (hx : Plain x) :
    (σ.define env x v).Follows causes := by
  obtain ⟨id, hid, hbody⟩ := hwithin.innermost
  cases env with
  | nil => cases hid
  | cons id' outer =>
    obtain rfl := Option.some.inj hid
    exact h.put hv hx (Or.inr hbody)

theorem assign {env : Env} {x : String} {v : Value} (h : σ.Follows causes) (hv : v.Sound causes)
    (hx : Plain x) (line : Nat) : (σ.assign env x v line).2.Follows causes :=
  writeBy_keeps (Follows causes) h (fun _ hbinds => h.put hv hx (Or.inl hbinds)) env line .byName

theorem assignAt {env : Env} {d : Nat} {x : String} {v : Value} (h : σ.Follows causes)
    (hv : v.Sound causes) (hx : Plain x) (line : Nat) :
    (σ.assignAt env d x v line).2.Follows causes :=
  writeBy_keeps (Follows causes) h (fun _ hbinds => h.put hv hx (Or.inl hbinds)) env line
    (.atDistance d)

/-- A function that is defined where code runs sees the scopes of that code. -/
theorem defineFunction {w : World} {a : Option Activation} {decl : FunDecl}
    (h : w.store.Follows causes) (hwithin : Within causes a w.env) (hdecl : Covers a (.function decl))
    (hname : ∀ name ∈ decl.name, Plain name.name) :
    (w.defineFunction decl).store.Follows causes := by
  unfold World.defineFunction
  split
  · exact h
  · rename_i name heq
    have hclosure : Closure.Sound causes ⟨decl, w.env, false⟩ := .function hwithin hdecl
    have hvalue : Value.Sound causes (w.makeFunction decl).1 := hclosure
    have hid : (w.makeFunction decl).2.store.Follows causes := h.newId
    exact hid.define hwithin hvalue (hname name heq)

end Store.Follows

end Lox
