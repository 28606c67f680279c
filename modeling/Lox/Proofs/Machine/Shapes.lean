import Lox.Proofs.Machine.Causes
import Lox.Proofs.Scoping.Names

/-!
# What scopes were made for

Scopes outlive the place in the program that made them, so a store is described by what each of its
scopes was made for. This description only grows. A closure fits it if its scopes were made for
those around the function, and a store fits it if all its values do and each scope binds nothing
but the names declared in it, the top level nothing but globals and host functions.
-/

set_option autoImplicit false

namespace Lox

/-! ## Bound names -/

namespace Store

variable {σ : Store}

/-- The scope binds the name. -/
def Binds (σ : Store) (id : ScopeId) (x : String) : Prop :=
  (σ.find? id x).isSome = true

/-- What is bound stays bound. -/
def Grows (σ σ' : Store) : Prop :=
  ∀ id x, σ.Binds id x → σ'.Binds id x

theorem Grows.refl (σ : Store) : σ.Grows σ := fun _ _ h => h

theorem Grows.trans {σ σ' σ'' : Store} (h : σ.Grows σ') (h' : σ'.Grows σ'') : σ.Grows σ'' :=
  fun id x hx => h' id x (h id x hx)

theorem find?_put (σ : Store) (id id' : ScopeId) (x y : String) (v : Value) :
    (σ.put id x v).find? id' y =
      if id = id' ∧ x = y then σ.scopes[id]?.map fun _ => v else σ.find? id' y := by
  unfold find? put
  simp only [Array.getElem?_modify]
  by_cases hid : id = id'
  · subst hid
    by_cases hx : x = y
    · subst hx
      cases σ.scopes[id]? <;> simp
    · cases σ.scopes[id]? <;> simp [hx, Bindings.find?_put_of_ne _ v (Ne.symm hx)]
  · simp [hid]

theorem binds_put {id : ScopeId} {x : String} {v : Value} (hid : id < σ.scopes.size) :
    (σ.put id x v).Binds id x := by
  simp [Binds, find?_put, hid]

theorem grows_put (σ : Store) (id : ScopeId) (x : String) (v : Value) : σ.Grows (σ.put id x v) := by
  intro id' y h
  rw [Binds, find?_put]
  split
  · rename_i heq
    obtain ⟨rfl, rfl⟩ := heq
    unfold Binds find? at h
    cases hscope : σ.scopes[id]? with
    | none => simp [hscope] at h
    | some scope => rfl
  · exact h

theorem find?_newScope (σ : Store) (bindings : Bindings Value) (id : ScopeId) (x : String) :
    (σ.newScope bindings).2.find? id x =
      if id = σ.scopes.size then bindings.find? x else σ.find? id x := by
  unfold find? newScope
  rw [Array.getElem?_push]
  by_cases hid : id = σ.scopes.size
  · rw [if_pos hid, if_pos hid]
  · rw [if_neg hid, if_neg hid]

theorem find?_of_size_le {id : ScopeId} (h : σ.scopes.size ≤ id) (x : String) :
    σ.find? id x = none := by
  unfold find?
  rw [Array.getElem?_eq_none h]

theorem grows_newScope (σ : Store) (bindings : Bindings Value) :
    σ.Grows (σ.newScope bindings).2 := by
  intro id x h
  rw [Binds, find?_newScope]
  split
  · rename_i heq
    rw [Binds, find?_of_size_le (Nat.le_of_eq heq.symm)] at h
    cases h
  · exact h

theorem field?_setField (σ : Store) (id id' : ObjectId) (x y : String) (v : Value) :
    (σ.setField id x v).field? id' y =
      if id = id' ∧ x = y then σ.objects[id]?.map fun _ => v else σ.field? id' y := by
  unfold field? setField
  simp only [Array.getElem?_modify]
  by_cases hid : id = id'
  · subst hid
    by_cases hx : x = y
    · subst hx
      cases σ.objects[id]? <;> simp
    · cases σ.objects[id]? <;> simp [hx, Bindings.find?_put_of_ne _ v (Ne.symm hx)]
  · simp [hid]

theorem field?_newObject (σ : Store) (id : ObjectId) (x : String) :
    σ.newObject.2.field? id x = σ.field? id x := by
  unfold field? newObject
  rw [Array.getElem?_push]
  by_cases hid : id = σ.objects.size
  · rw [if_pos hid, hid, Array.getElem?_eq_none (Nat.le_refl _)]
    rfl
  · rw [if_neg hid]

end Store

/-! ## Origins of the scopes of a store -/

/-- What the scopes of a store were made for, in the order of their addresses. The first address is
that of the top level, which is not among them. -/
abbrev Shapes := List ScopeOrigin

def Shapes.origin? (shapes : Shapes) : ScopeId → Option ScopeOrigin
  | 0 => none
  | id + 1 => shapes[id]?

/-- The scopes of an environment are inside the top level and were made for these origins. -/
inductive Fits (shapes : Shapes) : Env → List ScopeOrigin → Prop where
  | top : Fits shapes World.topEnv []
  | scope {id : ScopeId} {env : Env} {o : ScopeOrigin} {os : List ScopeOrigin} :
      shapes.origin? id = some o → Fits shapes env os → Fits shapes (id :: env) (o :: os)

/-- The function stands at a site whose scopes those of the closure were made for. -/
def FunctionFits (C : Corpus) (shapes : Shapes) (c : Closure) : Prop :=
  ∃ os r decl, KnownIn C ⟨os, r, .function decl⟩ ∧ c.decl = decl.resolve.outcome r ∧
    Fits shapes c.env os ∧ (c.isInitializer = true → os.head? = some .receiver)

/-- A method that has not been bound lacks the scope of its receiver. -/
def MethodFits (C : Corpus) (shapes : Shapes) (c : Closure) : Prop :=
  ∃ os r decl, KnownIn C ⟨.receiver :: os, r, .function decl⟩ ∧ c.decl = decl.resolve.outcome r ∧
    Fits shapes c.env os

def ClassFits (C : Corpus) (shapes : Shapes) (cls : Class) : Prop :=
  ∀ name method, cls.findMethod? name = some method → MethodFits C shapes method

def ValueFits (C : Corpus) (shapes : Shapes) : Value → Prop
  | .function _ c => FunctionFits C shapes c
  | .method _ c => FunctionFits C shapes c
  | .classRef cls => ClassFits C shapes cls
  | .object _ cls => ClassFits C shapes cls
  | _ => True

/-- The cause is what the resolver made of a node that opens a scope for `o` inside scopes for
`os`. -/
inductive Cause.Opens (C : Corpus) : Cause → ScopeOrigin → List ScopeOrigin → Prop where
  | block {os : List ScopeOrigin} {r : Scoping} {body body' : List Stmt} {outer : Env} :
      KnownIn C ⟨os, r, .stmt (.block body)⟩ → (Stmt.block body).resolve.outcome r = .block body' →
      Opens C (.block outer body') (.block body) os
  | call {os : List ScopeOrigin} {r : Scoping} {decl : FunDecl} {closure : Closure} :
      KnownIn C ⟨os, r, .function decl⟩ → closure.decl = decl.resolve.outcome r →
      Opens C (.call closure) (.function decl.params decl.body) os
  | bind {os : List ScopeOrigin} {r : Scoping} {decl : FunDecl} {method : Closure}
      {receiver : Value} :
      KnownIn C ⟨.receiver :: os, r, .function decl⟩ → method.decl = decl.resolve.outcome r →
      Opens C (.bind method receiver) .receiver os
  | inherit {os : List ScopeOrigin} {r : Scoping} {name superclass : Ident} {slot slot' : Slot}
      {decls methods : List FunDecl} {outer : Env} {parent : Class} :
      KnownIn C ⟨os, r, .stmt (.classDecl name (some (superclass, slot)) decls)⟩ →
      (Stmt.classDecl name (some (superclass, slot)) decls).resolve.outcome r =
        .classDecl name (some (superclass, slot')) methods →
      Opens C (.inherit outer parent methods) .superclass os

/-- The cause makes a scope for `o`, inside scopes that were made for those around `o`. -/
def Cause.Serves (C : Corpus) (shapes : Shapes) (cause : Cause) (o : ScopeOrigin) : Prop :=
  ∃ os, cause.Opens C o os ∧ Fits shapes cause.outer os

section Growth
variable {C : Corpus} {shapes shapes' : Shapes} (h : shapes <+: shapes')
include h

theorem Shapes.origin?_mono {id : ScopeId} {o : ScopeOrigin} (ho : shapes.origin? id = some o) :
    shapes'.origin? id = some o := by
  cases id with
  | zero => cases ho
  | succ id => exact getElem?_of_prefix h ho

theorem Fits.mono {env : Env} {os : List ScopeOrigin} (hfits : Fits shapes env os) :
    Fits shapes' env os := by
  induction hfits with
  | top => exact .top
  | scope ho _ ih => exact .scope (Shapes.origin?_mono h ho) ih

theorem FunctionFits.mono {c : Closure} (hc : FunctionFits C shapes c) :
    FunctionFits C shapes' c := by
  obtain ⟨os, r, decl, hknown, hdecl, hfits, hinitializer⟩ := hc
  exact ⟨os, r, decl, hknown, hdecl, hfits.mono h, hinitializer⟩

theorem ClassFits.mono {cls : Class} (hcls : ClassFits C shapes cls) : ClassFits C shapes' cls := by
  intro name method hmethod
  obtain ⟨os, r, decl, hknown, hdecl, hfits⟩ := hcls name method hmethod
  exact ⟨os, r, decl, hknown, hdecl, hfits.mono h⟩

theorem ValueFits.mono {v : Value} (hv : ValueFits C shapes v) : ValueFits C shapes' v := by
  cases v with
  | function id c | method id c => exact FunctionFits.mono h hv
  | classRef cls | object id cls => exact ClassFits.mono h hv
  | _ => trivial

theorem Cause.Serves.mono {cause : Cause} {o : ScopeOrigin} (hcause : cause.Serves C shapes o) :
    cause.Serves C shapes' o := by
  obtain ⟨os, hopens, hfits⟩ := hcause
  exact ⟨os, hopens, hfits.mono h⟩

end Growth

namespace Fits

variable {shapes : Shapes} {env : Env} {os : List ScopeOrigin}

theorem length_eq (h : Fits shapes env os) : env.length = os.length + 1 := by
  induction h with
  | top => rfl
  | scope _ _ ih => simp [ih]

theorem getLast?_eq (h : Fits shapes env os) : env.getLast? = some 0 := by
  induction h with
  | top => rfl
  | scope _ _ ih => simp [List.getLast?_cons, ih]

/-- The scopes tell what they were made for. -/
theorem unique {os' : List ScopeOrigin} (h : Fits shapes env os) (h' : Fits shapes env os') :
    os = os' := by
  induction h generalizing os' with
  | top =>
    generalize henv : World.topEnv = env at h'
    cases h' with
    | top => rfl
    | scope horigin =>
      obtain ⟨rfl, -⟩ := List.cons.inj henv
      cases horigin
  | scope horigin _ ih =>
    cases h' with
    | top => cases horigin
    | scope horigin' houter =>
      obtain rfl := Option.some.inj (horigin.symm.trans horigin')
      rw [ih houter]

theorem get? {d : Nat} {o : ScopeOrigin} (h : Fits shapes env os) (ho : os[d]? = some o) :
    ∃ id, env[d]? = some id ∧ shapes.origin? id = some o := by
  induction h generalizing d with
  | top => cases ho
  | @scope id _ _ _ horigin _ ih =>
    cases d with
    | zero => exact ⟨id, rfl, horigin.trans ho⟩
    | succ d => exact ih ho

/-- There is an innermost scope, and it is made for the innermost origin, if there is one. -/
theorem innermost (h : Fits shapes env os) :
    ∃ id, env[0]? = some id ∧ (∀ o, shapes.origin? id = some o → os.head? = some o) ∧
      (id = 0 → os = []) := by
  cases h with
  | top =>
    refine ⟨0, rfl, ?_, fun _ => rfl⟩
    intro o ho
    cases ho
  | scope horigin _ =>
    refine ⟨_, rfl, fun o ho => horigin.symm.trans ho, ?_⟩
    rintro rfl
    cases horigin

end Fits

/-! ## Stores -/

/-- The values that a scope made for `o` may hold. -/
def ScopeOrigin.Admits : ScopeOrigin → Value → Prop
  | .receiver, v => ∃ id cls, v = .object id cls
  | .superclass, v => ∃ cls, v = .classRef cls
  | _, _ => True

theorem ScopeOrigin.admits_of_plain {o : ScopeOrigin} {x : String} (hx : x ∈ o.names)
    (hplain : Plain x) (v : Value) : o.Admits v := by
  cases o with
  | block | function => trivial
  | receiver => exact absurd (List.mem_singleton.1 hx) hplain.1
  | superclass => exact absurd (List.mem_singleton.1 hx) hplain.2

/-- The scopes of the store were made for `shapes`, and all that is in it fits. -/
structure Store.Typed (C : Corpus) (shapes : Shapes) (σ : Store) : Prop where
  size : σ.scopes.size = shapes.length + 1
  value : ∀ {id x v}, σ.find? id x = some v → ValueFits C shapes v
  name : ∀ {id x v o}, σ.find? id x = some v → shapes.origin? id = some o → x ∈ o.names
  admits : ∀ {id x v o}, σ.find? id x = some v → shapes.origin? id = some o → o.Admits v
  top : ∀ {x v}, σ.find? 0 x = some v → C.Names x
  field : ∀ {id x v}, σ.field? id x = some v → ValueFits C shapes v

/-- The names that are bound as soon as a scope is in force are bound. -/
def Store.Definite (shapes : Shapes) (σ : Store) : Prop :=
  ∀ id o x, shapes.origin? id = some o → x ∈ o.definite → σ.Binds id x

theorem Store.Definite.mono {shapes : Shapes} {σ σ' : Store} (h : σ.Definite shapes)
    (hgrows : σ.Grows σ') : σ'.Definite shapes :=
  fun id o x ho hx => hgrows id x (h id o x ho hx)

namespace Store.Typed

variable {C : Corpus} {shapes : Shapes} {σ : Store}

theorem size_of_origin {id : ScopeId} {o : ScopeOrigin} (h : σ.Typed C shapes)
    (ho : shapes.origin? id = some o) : id < σ.scopes.size := by
  cases id with
  | zero => cases ho
  | succ id =>
    have hlt := (List.getElem?_eq_some_iff.1 ho).1
    rw [h.size]
    exact Nat.succ_lt_succ hlt

theorem size_of_innermost {id : ScopeId} {env : Env} {os : List ScopeOrigin} (h : σ.Typed C shapes)
    (hfits : Fits shapes env os) (hid : env[0]? = some id) : id < σ.scopes.size := by
  cases hfits with
  | top =>
    cases hid
    rw [h.size]
    exact Nat.zero_lt_succ _
  | scope horigin _ =>
    cases hid
    exact h.size_of_origin horigin

theorem put {id : ScopeId} {x : String} {v : Value} (h : σ.Typed C shapes)
    (hv : ValueFits C shapes v) (hx : ∀ o, shapes.origin? id = some o → x ∈ o.names ∧ Plain x)
    (htop : id = 0 → C.Names x) : (σ.put id x v).Typed C shapes := by
  have hfind {id' y u} (hu : (σ.put id x v).find? id' y = some u) :
      (id = id' ∧ x = y ∧ v = u) ∨ σ.find? id' y = some u := by
    rw [find?_put] at hu
    split at hu
    · rename_i heq
      obtain ⟨-, -, hvu⟩ := Option.map_eq_some_iff.1 hu
      exact Or.inl ⟨heq.1, heq.2, hvu⟩
    · exact Or.inr hu
  refine ⟨?_, ?_, ?_, ?_, ?_, h.field⟩
  · simpa [Store.put] using h.size
  · intro id' y u hu
    rcases hfind hu with ⟨rfl, rfl, rfl⟩ | hu
    · exact hv
    · exact h.value hu
  · intro id' y u o hu ho
    rcases hfind hu with ⟨rfl, rfl, rfl⟩ | hu
    · exact (hx o ho).1
    · exact h.name hu ho
  · intro id' y u o hu ho
    rcases hfind hu with ⟨rfl, rfl, rfl⟩ | hu
    · exact ScopeOrigin.admits_of_plain (hx o ho).1 (hx o ho).2 v
    · exact h.admits hu ho
  · intro y u hu
    rcases hfind hu with ⟨hid, rfl, -⟩ | hu
    · exact htop hid
    · exact h.top hu

/-- The next scope is the only one that another origin adds to. -/
theorem origin?_append {id : ScopeId} {o o' : ScopeOrigin} (h : σ.Typed C shapes)
    (ho' : Shapes.origin? (shapes ++ [o]) id = some o') :
    (id = σ.scopes.size ∧ o = o') ∨ (id ≠ σ.scopes.size ∧ shapes.origin? id = some o') := by
  cases id with
  | zero => cases ho'
  | succ id =>
    rw [Shapes.origin?, List.getElem?_append] at ho'
    split at ho'
    · rename_i hlt
      refine Or.inr ⟨?_, ho'⟩
      rw [h.size]
      exact Nat.ne_of_lt (Nat.succ_lt_succ hlt)
    · rename_i hge
      obtain ⟨hlt, heq⟩ := List.getElem?_eq_some_iff.1 ho'
      have hid : id = shapes.length := by
        simp only [List.length_singleton] at hlt
        omega
      subst hid
      exact Or.inl ⟨by rw [h.size], by simpa using heq⟩

theorem origin?_size (h : σ.Typed C shapes) (o : ScopeOrigin) :
    Shapes.origin? (shapes ++ [o]) σ.scopes.size = some o := by
  rw [h.size]
  simp [Shapes.origin?]

theorem newScope {o : ScopeOrigin} {bindings : Bindings Value} (h : σ.Typed C shapes)
    (hvalue : ∀ x v, bindings.find? x = some v → ValueFits C shapes v)
    (hname : ∀ x v, bindings.find? x = some v → x ∈ o.names ∧ o.Admits v) :
    (σ.newScope bindings).2.Typed C (shapes ++ [o]) := by
  have hshapes : shapes <+: shapes ++ [o] := List.prefix_append _ _
  refine ⟨?_, ?_, ?_, ?_, ?_, ?_⟩
  · simp [Store.newScope, h.size]
  · intro id x v hv
    rw [find?_newScope] at hv
    split at hv
    · exact (hvalue x v hv).mono hshapes
    · exact (h.value hv).mono hshapes
  · intro id x v o' hv ho'
    rw [find?_newScope] at hv
    rcases h.origin?_append ho' with ⟨hid, rfl⟩ | ⟨hid, ho'⟩
    · rw [if_pos hid] at hv
      exact (hname x v hv).1
    · rw [if_neg hid] at hv
      exact h.name hv ho'
  · intro id x v o' hv ho'
    rw [find?_newScope] at hv
    rcases h.origin?_append ho' with ⟨hid, rfl⟩ | ⟨hid, ho'⟩
    · rw [if_pos hid] at hv
      exact (hname x v hv).2
    · rw [if_neg hid] at hv
      exact h.admits hv ho'
  · intro x v hv
    have hne : 0 ≠ σ.scopes.size := by
      rw [h.size]
      omega
    rw [find?_newScope, if_neg hne] at hv
    exact h.top hv
  · intro id x v hv
    exact (h.field hv).mono hshapes

theorem setField {id : ObjectId} {x : String} {v : Value} (h : σ.Typed C shapes)
    (hv : ValueFits C shapes v) : (σ.setField id x v).Typed C shapes := by
  refine ⟨h.size, h.value, h.name, h.admits, h.top, ?_⟩
  intro id' y u hu
  rw [field?_setField] at hu
  split at hu
  · obtain ⟨-, -, rfl⟩ := Option.map_eq_some_iff.1 hu
    exact hv
  · exact h.field hu

theorem newObject (h : σ.Typed C shapes) : σ.newObject.2.Typed C shapes := by
  refine ⟨h.size, h.value, h.name, h.admits, h.top, ?_⟩
  intro id x v hv
  rw [field?_newObject] at hv
  exact h.field hv

theorem newId (h : σ.Typed C shapes) : σ.newId.2.Typed C shapes :=
  ⟨h.size, h.value, h.name, h.admits, h.top, h.field⟩

end Store.Typed

/-- A new scope binds its definite names by the time it is in force. -/
theorem Store.Definite.append {C : Corpus} {shapes : Shapes} {σ σ' : Store} {o : ScopeOrigin}
    (h : σ.Definite shapes) (htyped : σ.Typed C shapes) (hgrows : σ.Grows σ')
    (hnew : ∀ x ∈ o.definite, σ'.Binds σ.scopes.size x) : σ'.Definite (shapes ++ [o]) := by
  intro id o' x ho' hx
  rcases htyped.origin?_append ho' with ⟨rfl, rfl⟩ | ⟨-, ho'⟩
  · exact hnew x hx
  · exact hgrows id x (h id o' x ho' hx)

end Lox
