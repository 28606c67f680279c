import Lox.Proofs.Lockstep.Trees
import Lox.Proofs.Machine.Agreement

/-!
# Worlds in lockstep

Two programs may have different stores, and still do the same: their scopes may be at other
addresses, and their functions may have other identities. What is the same in both is said once for
all such pairs of programs. Of a pair it is left open which trees, identities, environments and
stores count as the same. From laws for these it follows that the actions of a world do the same in
both worlds.
-/

set_option autoImplicit false

namespace Lox

theorem rel_imp {α β : Type} {R R' : α → β → Prop} (hR : ∀ {a b}, R a b → R' a b) {o : Option α}
    {o' : Option β} (h : Option.Rel R o o') : Option.Rel R' o o' := by
  cases h with
  | none => exact .none
  | some hab => exact .some (hR hab)

/-- The two computations fail alike, or yield values that are related. -/
inductive SameResult {α β : Type} (R : α → β → Prop) : Except Error α → Except Error β → Prop where
  | ok {v : α} {v' : β} : R v v' → SameResult R (.ok v) (.ok v')
  | error (e : Error) : SameResult R (.error e) (.error e)

/-! ## Bindings -/

namespace Bindings
variable {α β : Type}

/-- The same names are bound, in the same order, and to values that are related. -/
structure Same (R : α → β → Prop) (b : Bindings α) (b' : Bindings β) : Prop where
  names : b'.names = b.names
  find : ∀ x, Option.Rel R (b.find? x) (b'.find? x)

namespace Same
variable {R : α → β → Prop} {b : Bindings α} {b' : Bindings β}

theorem empty (R : α → β → Prop) : Same R .empty .empty :=
  ⟨rfl, fun _ => .none⟩

theorem mono {R' : α → β → Prop} (hR : ∀ {a a'}, R a a' → R' a a') (h : Same R b b') :
    Same R' b b' :=
  ⟨h.names, fun x => rel_imp hR (h.find x)⟩

theorem put {a : α} {a' : β} (h : Same R b b') (name : String) (ha : R a a') :
    Same R (b.put name a) (b'.put name a') := by
  refine ⟨by rw [names_put, names_put, h.names], fun x => ?_⟩
  by_cases hx : x = name
  · subst hx
    rw [find?_put_self, find?_put_self]
    exact .some ha
  · rw [find?_put_of_ne _ _ hx, find?_put_of_ne _ _ hx]
    exact h.find x

theorem putAll {as : List α} {as' : List β} (h : Same R b b') (names : List String)
    (has : List.Forall₂ R as as') : Same R (b.putAll names as) (b'.putAll names as') := by
  induction has generalizing b b' names with
  | nil => cases names <;> exact h
  | cons ha _ ih =>
    cases names with
    | nil => exact h
    | cons name names => exact ih (h.put name ha) names

theorem single (name : String) {a : α} {a' : β} (ha : R a a') :
    Same R (.single name a) (.single name a') :=
  (empty R).put name ha

end Same

end Bindings

/-! ## What is the same -/

/-- What counts as the same in two programs. A stage is what is known of the scopes and identities
that both have made so far. -/
structure Sameness where
  Stage : Type
  /-- More scopes and identities have been made since. -/
  Grows : Stage → Stage → Prop
  SameTree : Gap → Node → Node → Prop
  SameId : Stage → Nat → Nat → Prop
  SameScope : Stage → ScopeId → ScopeId → Prop
  /-- Only the second program has the scope. -/
  Extra : Stage → ScopeId → Prop

namespace Sameness
variable (S : Sameness) (a : S.Stage)

/-- The second environment has the scopes of the first one, and an extra one at the gap. -/
inductive SameEnv : Gap → Env → Env → Prop where
  | nil : SameEnv none [] []
  | scope {g : Gap} {i j : ScopeId} {env env' : Env} :
      S.SameScope a i j → SameEnv g env env' → SameEnv g.inner (i :: env) (j :: env')
  | extra {x : ScopeId} {env env' : Env} :
      S.Extra a x → SameEnv none env env' → SameEnv (some 0) env (x :: env')

/-- The functions have the same scopes and trees. The receiver of an initializer is in the innermost
scope. -/
def SameFunction (c c' : Closure) : Prop :=
  ∃ g, S.SameEnv a g c.env c'.env ∧ S.SameTree g (.function c.decl) (.function c'.decl) ∧
    c'.isInitializer = c.isInitializer ∧ (c.isInitializer = true → g ≠ some 0)

/-- A method that has not been bound lacks the scope of its receiver. -/
def SameMethod (c c' : Closure) : Prop :=
  ∃ g, S.SameEnv a g c.env c'.env ∧ S.SameTree g.inner (.function c.decl) (.function c'.decl) ∧
    c'.isInitializer = c.isInitializer

/-- What a class shows of a layer. -/
structure SameOutline (layer layer' : Layer) : Prop where
  id : S.SameId a layer.id layer'.id
  name : layer'.name = layer.name
  methods : layer'.methods.names = layer.methods.names

/-- The classes with these layers show the same and find the same methods. -/
structure SameLayers (layers layers' : List Layer) : Prop where
  outline : List.Forall₂ (S.SameOutline a) layers layers'
  methods : ∀ x, Option.Rel (S.SameMethod a) (layers.findSome? fun layer => layer.methods.find? x)
    (layers'.findSome? fun layer => layer.methods.find? x)

def SameClass (c c' : Class) : Prop :=
  S.SameLayers a (c.own :: c.inherited) (c'.own :: c'.inherited)

inductive SameValue : Value → Value → Prop where
  | nil : SameValue .nil .nil
  | bool (b : Bool) : SameValue (.bool b) (.bool b)
  | number (x : Float) : SameValue (.number x) (.number x)
  | string (s : String) : SameValue (.string s) (.string s)
  | function {i j : Nat} {c c' : Closure} :
      S.SameId a i j → S.SameFunction a c c' → SameValue (.function i c) (.function j c')
  | method {i j : Nat} {c c' : Closure} :
      S.SameId a i j → S.SameFunction a c c' → SameValue (.method i c) (.method j c')
  | native {i j : Nat} (host : Native) :
      S.SameId a i j → SameValue (.native i host) (.native j host)
  | classRef {c c' : Class} : S.SameClass a c c' → SameValue (.classRef c) (.classRef c')
  | object {c c' : Class} (id : ObjectId) :
      S.SameClass a c c' → SameValue (.object id c) (.object id c')

inductive SameCompletion : Completion → Completion → Prop where
  | normal : SameCompletion .normal .normal
  | returned {v v' : Value} : S.SameValue a v v' → SameCompletion (.returned v) (.returned v')
  | broken : SameCompletion .broken .broken

end Sameness

/-- What is the same stays the same when more is made. -/
class Sameness.Lasting (S : Sameness) : Prop where
  grows_refl (a : S.Stage) : S.Grows a a
  grows_trans {a a' a'' : S.Stage} : S.Grows a a' → S.Grows a' a'' → S.Grows a a''
  id_mono {a a' : S.Stage} {i j : Nat} : S.Grows a a' → S.SameId a i j → S.SameId a' i j
  scope_mono {a a' : S.Stage} {i j : ScopeId} :
    S.Grows a a' → S.SameScope a i j → S.SameScope a' i j
  extra_mono {a a' : S.Stage} {x : ScopeId} : S.Grows a a' → S.Extra a x → S.Extra a' x

/-- Two programs that do the same step by step. -/
structure Lockstep extends Sameness where
  SameStore : Stage → Store → Store → Prop
  SameError : Error → Error → Prop

namespace Lockstep

/-- The worlds differ in their stores only, and in the environment in force, where the second one
may have an extra scope at the gap. -/
structure SameWorld (L : Lockstep) (a : L.Stage) (g : Gap) (w w' : World) : Prop where
  store : L.SameStore a w.store w'.store
  env : L.SameEnv a g w.env w'.env
  depth : w'.depth = w.depth
  maxDepth : w'.maxDepth = w.maxDepth
  sink : w'.sink = w.sink
  clock : w'.clock = w.clock

/-- Trees that are the same have the same form, and stores that are the same stay so when the same
is done with them. -/
class Coherent (L : Lockstep) : Prop extends L.toSameness.Lasting where
  alike {g : Gap} {n n' : Node} :
    n.isSequence = false → L.SameTree g n n' → Alike L.SameTree n n' g
  turns {g : Gap} {body body' : List Stmt} : L.SameTree g (.body body) (.body body') →
    List.Forall₂ (SameTurn L.SameTree g) body body'
  error_refl (e : Error) : L.SameError e e
  beq_eq {a : L.Stage} {σ σ' : Store} {i i' j j' : Nat} : L.SameStore a σ σ' →
    L.SameId a i j → L.SameId a i' j' → (j == j') = (i == i')
  top {a : L.Stage} {σ σ' : Store} : L.SameStore a σ σ' → L.SameScope a 0 0
  find? {a : L.Stage} {σ σ' : Store} {i j : ScopeId} : L.SameStore a σ σ' → L.SameScope a i j →
    ∀ name, Option.Rel (L.SameValue a) (σ.find? i name) (σ'.find? j name)
  find?_extra {a : L.Stage} {σ σ' : Store} {x : ScopeId} : L.SameStore a σ σ' → L.Extra a x →
    ∀ name, σ'.find? x name = none
  put {a : L.Stage} {σ σ' : Store} {i j : ScopeId} {v v' : Value} : L.SameStore a σ σ' →
    L.SameScope a i j → ∀ name, L.SameValue a v v' →
    L.SameStore a (σ.put i name v) (σ'.put j name v')
  field? {a : L.Stage} {σ σ' : Store} : L.SameStore a σ σ' → ∀ id name,
    Option.Rel (L.SameValue a) (σ.field? id name) (σ'.field? id name)
  setField {a : L.Stage} {σ σ' : Store} {v v' : Value} : L.SameStore a σ σ' → ∀ id name,
    L.SameValue a v v' → L.SameStore a (σ.setField id name v) (σ'.setField id name v')
  newObject {a : L.Stage} {σ σ' : Store} : L.SameStore a σ σ' →
    σ'.newObject.1 = σ.newObject.1 ∧ L.SameStore a σ.newObject.2 σ'.newObject.2
  newId {a : L.Stage} {σ σ' : Store} : L.SameStore a σ σ' → ∃ a', L.Grows a a' ∧
    L.SameStore a' σ.newId.2 σ'.newId.2 ∧ L.SameId a' σ.newId.1 σ'.newId.1
  newScope {a : L.Stage} {σ σ' : Store} {b b' : Bindings Value} : L.SameStore a σ σ' →
    Bindings.Same (L.SameValue a) b b' → ∃ a', L.Grows a a' ∧
      L.SameStore a' (σ.newScope b).2 (σ'.newScope b').2 ∧
      L.SameScope a' (σ.newScope b).1 (σ'.newScope b').1

/-- The functions that stand directly in a body are made alike in both worlds. -/
class Lawful (L : Lockstep) : Prop extends L.Coherent where
  defineFunctions {a : L.Stage} {g : Gap} {w w' : World} {body body' : List Stmt} :
    L.SameWorld a g w w' → g ≠ some 0 → L.SameTree g (.body body) (.body body') →
    ∃ a', L.Grows a a' ∧ L.SameWorld a' g (w.defineFunctions body) (w'.defineFunctions body')

end Lockstep

/-! ## Values -/

namespace Sameness

section Plain
variable {S : Sameness} {a : S.Stage}

theorem SameLayers.nil : S.SameLayers a [] [] :=
  ⟨.nil, fun _ => .none⟩

theorem SameLayers.cons {layers layers' : List Layer} {table table' : Bindings Closure} {i j : Nat}
    (hid : S.SameId a i j) (name : String) (htable : Bindings.Same (S.SameMethod a) table table')
    (h : S.SameLayers a layers layers') :
    S.SameLayers a (⟨i, name, table⟩ :: layers) (⟨j, name, table'⟩ :: layers') := by
  refine ⟨.cons ⟨hid, rfl, htable.names⟩ h.outline, fun x => ?_⟩
  have hfind := htable.find x
  rw [List.findSome?_cons, List.findSome?_cons]
  dsimp only
  generalize table.find? x = found, table'.find? x = found' at hfind
  cases hfind with
  | none => exact h.methods x
  | some hmethod => exact .some hmethod

theorem SameClass.own {c c' : Class} (h : S.SameClass a c c') : S.SameOutline a c.own c'.own := by
  cases h.outline with
  | cons hown _ => exact hown

theorem SameClass.findMethod? {c c' : Class} (h : S.SameClass a c c') (x : String) :
    Option.Rel (S.SameMethod a) (c.findMethod? x) (c'.findMethod? x) :=
  h.methods x

namespace SameValue
variable {v v' : Value}

theorem ofLiteral (a : S.Stage) (literal : Literal) :
    S.SameValue a (.ofLiteral literal) (.ofLiteral literal) := by
  cases literal with
  | nil => exact .nil
  | bool b => exact .bool b
  | number x => exact .number x
  | string s => exact .string s

theorem isTruthy_eq (h : S.SameValue a v v') : v'.isTruthy = v.isTruthy := by
  cases h <;> rfl

theorem type_eq (h : S.SameValue a v v') : v'.type = v.type := by
  cases h <;> rfl

end SameValue

end Plain

section Mono
variable {S : Sameness} [S.Lasting] {a a' : S.Stage} (ha : S.Grows a a')
include ha

theorem SameEnv.mono {g : Gap} {env env' : Env} (h : S.SameEnv a g env env') :
    S.SameEnv a' g env env' := by
  induction h with
  | nil => exact .nil
  | scope hscope _ ih => exact .scope (Lasting.scope_mono ha hscope) ih
  | extra hextra _ ih => exact .extra (Lasting.extra_mono ha hextra) ih

theorem SameFunction.mono {c c' : Closure} (h : S.SameFunction a c c') :
    S.SameFunction a' c c' := by
  obtain ⟨g, henv, hdecl, hinitializer, hg⟩ := h
  exact ⟨g, henv.mono ha, hdecl, hinitializer, hg⟩

theorem SameMethod.mono {c c' : Closure} (h : S.SameMethod a c c') : S.SameMethod a' c c' := by
  obtain ⟨g, henv, hdecl, hinitializer⟩ := h
  exact ⟨g, henv.mono ha, hdecl, hinitializer⟩

theorem SameLayers.mono {layers layers' : List Layer} (h : S.SameLayers a layers layers') :
    S.SameLayers a' layers layers' where
  outline := h.outline.imp fun _ _ hlayer => { hlayer with id := Lasting.id_mono ha hlayer.id }
  methods x := rel_imp (SameMethod.mono ha) (h.methods x)

theorem SameValue.mono {v v' : Value} (h : S.SameValue a v v') : S.SameValue a' v v' := by
  cases h with
  | function hid hc => exact .function (Lasting.id_mono ha hid) (hc.mono ha)
  | method hid hc => exact .method (Lasting.id_mono ha hid) (hc.mono ha)
  | native host hid => exact .native host (Lasting.id_mono ha hid)
  | classRef hc => exact .classRef (SameLayers.mono ha hc)
  | object id hc => exact .object id (SameLayers.mono ha hc)
  | nil => exact .nil
  | bool b => exact .bool b
  | number x => exact .number x
  | string s => exact .string s

end Mono

open Lockstep

variable {L : Lockstep} [L.Coherent]

variable {a : L.Stage}

theorem SameFunction.arity_eq {c c' : Closure} (h : L.SameFunction a c c') :
    c'.arity = c.arity := by
  obtain ⟨g, -, hdecl, -⟩ := h
  rw [Closure.arity, Closure.arity, (Coherent.alike rfl hdecl).params_eq]

theorem SameMethod.arity_eq {c c' : Closure} (h : L.SameMethod a c c') : c'.arity = c.arity := by
  obtain ⟨g, -, hdecl, -⟩ := h
  rw [Closure.arity, Closure.arity, (Coherent.alike rfl hdecl).params_eq]

theorem SameFunction.display_eq {c c' : Closure} (h : L.SameFunction a c c') :
    c'.display = c.display := by
  obtain ⟨g, -, hdecl, -⟩ := h
  rw [Closure.display, Closure.display, (Coherent.alike rfl hdecl).name_eq]

theorem SameClass.arity_eq {c c' : Class} (h : L.SameClass a c c') : c'.arity = c.arity := by
  have hfound := h.findMethod? Class.initializerName
  unfold Class.arity
  generalize c.findMethod? Class.initializerName = found,
    c'.findMethod? Class.initializerName = found' at hfound
  cases hfound with
  | none => rfl
  | some hmethod => exact hmethod.arity_eq

namespace SameValue
variable {v v' u u' : Value}

theorem equals_eq {σ σ' : Store} (hσ : L.SameStore a σ σ') (h : L.SameValue a v v')
    (hu : L.SameValue a u u') : v'.equals u' = v.equals u := by
  cases h with
  | function hid hc =>
    cases hu with
    | function hid' hc' => exact Coherent.beq_eq hσ hid hid'
    | _ => rfl
  | method hid hc =>
    cases hu with
    | method hid' hc' => exact Coherent.beq_eq hσ hid hid'
    | _ => rfl
  | native host hid =>
    cases hu with
    | native host' hid' => exact Coherent.beq_eq hσ hid hid'
    | _ => rfl
  | classRef hc =>
    cases hu with
    | classRef hc' => exact Coherent.beq_eq hσ hc.own.id hc'.own.id
    | _ => rfl
  | _ => cases hu <;> rfl

theorem arity?_eq (h : L.SameValue a v v') : v'.arity? = v.arity? := by
  cases h with
  | function hid hc | method hid hc => exact congrArg some hc.arity_eq
  | classRef hc => exact congrArg some hc.arity_eq
  | _ => rfl

theorem display_eq (h : L.SameValue a v v') : v'.display = v.display := by
  cases h with
  | function hid hc | method hid hc => exact hc.display_eq
  | classRef hc => exact hc.own.name
  | object id hc => exact congrArg (· ++ " instance") hc.own.name
  | _ => rfl

end SameValue

end Sameness

/-! ## Scopes -/

/-- The scope at a distance is the same one, at the distance with the extra scope counted. -/
theorem Sameness.SameEnv.get? {S : Sameness} {a : S.Stage} {g : Gap} {env env' : Env}
    (h : S.SameEnv a g env env') (d : Nat) :
    Option.Rel (S.SameScope a) env[d]? env'[g.distance d]? := by
  induction h generalizing d with
  | nil => exact .none
  | @scope g i j env env' hscope _ ih =>
    cases d with
    | zero =>
      rw [Gap.distance_inner_zero]
      exact .some hscope
    | succ d =>
      rw [Gap.distance_inner_succ]
      exact ih d
  | extra _ _ ih => exact ih d

namespace Lockstep.SameStore
variable {L : Lockstep} [L.Coherent] {a : L.Stage} {σ σ' : Store} {g : Gap} {env env' : Env}

theorem topEnv (h : L.SameStore a σ σ') : L.SameEnv a none World.topEnv World.topEnv :=
  .scope (g := none) (Coherent.top h) .nil

theorem define (h : L.SameStore a σ σ') (henv : L.SameEnv a g env env') (hg : g ≠ some 0)
    (name : String) {v v' : Value} (hv : L.SameValue a v v') :
    L.SameStore a (σ.define env name v) (σ'.define env' name v') := by
  cases henv with
  | nil => exact h
  | scope hscope _ => exact Coherent.put h hscope name hv
  | extra => exact absurd rfl hg

/-- Nothing is found in the extra scope, so the search goes on outside it. -/
theorem get (h : L.SameStore a σ σ') (henv : L.SameEnv a g env env') (name : String) (line : Nat) :
    SameResult (L.SameValue a) (σ.get env name line) (σ'.get env' name line) := by
  induction henv with
  | nil => exact .error _
  | @scope _ i j _ _ hscope _ ih =>
    have hfind := Coherent.find? h hscope name
    rw [Store.get, Store.get]
    generalize σ.find? i name = found, σ'.find? j name = found' at hfind
    cases hfind with
    | none => exact ih
    | some hv => exact .ok hv
  | extra hextra _ ih =>
    rw [Store.get.eq_2, Coherent.find?_extra h hextra]
    exact ih

theorem assign (h : L.SameStore a σ σ') (henv : L.SameEnv a g env env') (name : String)
    {v v' : Value} (hv : L.SameValue a v v') (line : Nat) :
    (σ'.assign env' name v' line).1 = (σ.assign env name v line).1 ∧
      L.SameStore a (σ.assign env name v line).2 (σ'.assign env' name v' line).2 := by
  induction henv with
  | nil => exact ⟨rfl, h⟩
  | @scope _ i j _ _ hscope _ ih =>
    have hfind := Coherent.find? h hscope name
    rw [Store.assign, Store.assign]
    generalize σ.find? i name = found, σ'.find? j name = found' at hfind
    cases hfind with
    | none => exact ih
    | some _ => exact ⟨rfl, Coherent.put h hscope name hv⟩
  | extra hextra _ ih =>
    rw [Store.assign.eq_2, Coherent.find?_extra h hextra]
    exact ih

theorem getAt (h : L.SameStore a σ σ') (henv : L.SameEnv a g env env') (d : Nat) (name : String)
    (line : Nat) : SameResult (L.SameValue a) (σ.getAt env d name line)
      (σ'.getAt env' (g.distance d) name line) := by
  have hscope := henv.get? d
  rw [Store.getAt, Store.getAt]
  generalize env[d]? = i, env'[g.distance d]? = j at hscope
  cases hscope with
  | none => exact .error _
  | @some i j hscope =>
    have hfind := Coherent.find? h hscope name
    dsimp only
    generalize σ.find? i name = found, σ'.find? j name = found' at hfind
    cases hfind with
    | none => exact .error _
    | some hv => exact .ok hv

theorem assignAt (h : L.SameStore a σ σ') (henv : L.SameEnv a g env env') (d : Nat) (name : String)
    {v v' : Value} (hv : L.SameValue a v v') (line : Nat) :
    (σ'.assignAt env' (g.distance d) name v' line).1 = (σ.assignAt env d name v line).1 ∧
      L.SameStore a (σ.assignAt env d name v line).2
        (σ'.assignAt env' (g.distance d) name v' line).2 := by
  have hscope := henv.get? d
  rw [Store.assignAt, Store.assignAt]
  generalize env[d]? = i, env'[g.distance d]? = j at hscope
  cases hscope with
  | none => exact ⟨rfl, h⟩
  | @some i j hscope =>
    have hfind := Coherent.find? h hscope name
    dsimp only
    generalize σ.find? i name = found, σ'.find? j name = found' at hfind
    cases hfind with
    | none => exact ⟨rfl, h⟩
    | some _ => exact ⟨rfl, Coherent.put h hscope name hv⟩

end Lockstep.SameStore

/-! ## Worlds -/

namespace Lockstep.SameWorld

open Sameness

variable {L : Lockstep} {a : L.Stage} {g : Gap} {w w' : World}

theorem withStore {a' : L.Stage} (h : L.SameWorld a g w w') {σ σ' : Store}
    (hσ : L.SameStore a' σ σ') (henv : L.SameEnv a' g w.env w'.env) :
    L.SameWorld a' g { w with store := σ } { w' with store := σ' } :=
  { h with store := hσ, env := henv }

theorem withEnv {g' : Gap} (h : L.SameWorld a g w w') {env env' : Env}
    (henv : L.SameEnv a g' env env') :
    L.SameWorld a g' { w with env := env } { w' with env := env' } :=
  { h with env := henv }

theorem leave (h : L.SameWorld a g w w') :
    L.SameWorld a g { w with depth := w.depth - 1 } { w' with depth := w'.depth - 1 } :=
  { h with depth := congrArg (· - 1) h.depth }

theorem print (h : L.SameWorld a g w w') (text : String) :
    (w'.print text).1 = (w.print text).1 ∧ L.SameWorld a g (w.print text).2 (w'.print text).2 := by
  unfold World.print
  rw [h.sink]
  exact ⟨rfl, { h with sink := rfl }⟩

theorem readClock (h : L.SameWorld a g w w') :
    w'.readClock.1 = w.readClock.1 ∧ L.SameWorld a g w.readClock.2 w'.readClock.2 := by
  unfold World.readClock
  rw [h.clock]
  exact ⟨rfl, { h with clock := rfl }⟩

variable [L.Coherent]

theorem newId (h : L.SameWorld a g w w') : ∃ a', L.Grows a a' ∧
    L.SameWorld a' g w.newId.2 w'.newId.2 ∧ L.SameId a' w.newId.1 w'.newId.1 := by
  obtain ⟨a', ha, hstore, hid⟩ := Coherent.newId h.store
  exact ⟨a', ha, h.withStore hstore (h.env.mono ha), hid⟩

theorem newObject (h : L.SameWorld a g w w') :
    w'.newObject.1 = w.newObject.1 ∧ L.SameWorld a g w.newObject.2 w'.newObject.2 := by
  obtain ⟨hid, hstore⟩ := Coherent.newObject h.store
  exact ⟨hid, h.withStore hstore h.env⟩

/-- The new scope can be put in front of environments that are the same. -/
theorem newScope (h : L.SameWorld a g w w') {b b' : Bindings Value}
    (hb : Bindings.Same (L.SameValue a) b b') : ∃ a', L.Grows a a' ∧
      L.SameWorld a' g (w.newScope b).2 (w'.newScope b').2 ∧ ∀ {g' : Gap} {env env' : Env},
        L.SameEnv a g' env env' →
        L.SameEnv a' g'.inner ((w.newScope b).1 :: env) ((w'.newScope b').1 :: env') := by
  obtain ⟨a', ha, hstore, hscope⟩ := Coherent.newScope h.store hb
  exact ⟨a', ha, h.withStore hstore (h.env.mono ha), fun henv => .scope hscope (henv.mono ha)⟩

theorem define (h : L.SameWorld a g w w') (hg : g ≠ some 0) (name : String) {v v' : Value}
    (hv : L.SameValue a v v') : L.SameWorld a g (w.define name v) (w'.define name v') :=
  h.withStore (h.store.define h.env hg name hv) h.env

theorem setField (h : L.SameWorld a g w w') (id : ObjectId) (name : String) {v v' : Value}
    (hv : L.SameValue a v v') : L.SameWorld a g (w.setField id name v) (w'.setField id name v') :=
  h.withStore (Coherent.setField h.store id name hv) h.env

theorem makeFunction (h : L.SameWorld a g w w') {decl decl' : FunDecl}
    (hdecl : L.SameTree g (.function decl) (.function decl')) : ∃ a', L.Grows a a' ∧
      L.SameValue a' (w.makeFunction decl).1 (w'.makeFunction decl').1 ∧
      L.SameWorld a' g (w.makeFunction decl).2 (w'.makeFunction decl').2 := by
  obtain ⟨a', ha, hworld, hid⟩ := h.newId
  have hfunction : L.SameFunction a' ⟨decl, w.env, false⟩ ⟨decl', w'.env, false⟩ :=
    ⟨g, h.env.mono ha, hdecl, rfl, by simp⟩
  exact ⟨a', ha, .function hid hfunction, hworld⟩

theorem defineFunction (h : L.SameWorld a g w w') (hg : g ≠ some 0) {decl decl' : FunDecl}
    (hdecl : L.SameTree g (.function decl) (.function decl')) : ∃ a', L.Grows a a' ∧
      L.SameWorld a' g (w.defineFunction decl) (w'.defineFunction decl') := by
  rw [World.defineFunction, World.defineFunction, (Coherent.alike rfl hdecl).name_eq]
  split
  · exact ⟨a, Lasting.grows_refl a, h⟩
  · rename_i name _
    obtain ⟨a', ha, hf, hworld⟩ := h.makeFunction hdecl
    exact ⟨a', ha, hworld.define hg name.name hf⟩

/-- Statement by statement, the same functions are defined. -/
theorem defineFunctions_alike {body body' : List Stmt} (h : L.SameWorld a g w w') (hg : g ≠ some 0)
    (hbody : List.Forall₂ (fun s s' => L.SameTree g (.stmt s) (.stmt s')) body body') :
    ∃ a', L.Grows a a' ∧
      L.SameWorld a' g (w.defineFunctions body) (w'.defineFunctions body') := by
  induction hbody generalizing a w w' with
  | nil => exact ⟨a, Lasting.grows_refl a, h⟩
  | @cons s s' rest rest' hs hrest ih =>
    have halike := Coherent.alike rfl hs
    have hkind := halike.isFunction_eq
    cases hfunction : s.isFunction with
    | true =>
      cases halike with
      | functionDecl _ hdecl =>
        obtain ⟨a₁, ha₁, hdefined⟩ := h.defineFunction hg hdecl
        obtain ⟨a₂, ha₂, hall⟩ := ih hdefined
        exact ⟨a₂, Lasting.grows_trans ha₁ ha₂, hall⟩
      | _ => cases hfunction
    | false =>
      rw [hfunction] at hkind
      rw [World.defineFunctions_cons hfunction, World.defineFunctions_cons hkind]
      exact ih h

theorem read (h : L.SameWorld a g w w') (name : String) (line : Nat) (slot : Slot) :
    SameResult (L.SameValue a) (w.read name line slot) (w'.read name line (g.slot slot)) := by
  rcases slot with _ | d | _
  · exact .error _
  · exact h.store.getAt h.env d name line
  · exact h.store.get h.store.topEnv name line

theorem assign (h : L.SameWorld a g w w') (name : Ident) {v v' : Value} (hv : L.SameValue a v v')
    (slot : Slot) : (w'.assign name v' (g.slot slot)).1 = (w.assign name v slot).1 ∧
      L.SameWorld a g (w.assign name v slot).2 (w'.assign name v' (g.slot slot)).2 := by
  rcases slot with _ | d | _
  · exact ⟨rfl, h⟩
  · obtain ⟨hdone, hstore⟩ := h.store.assignAt h.env d name.name hv name.line
    exact ⟨hdone, h.withStore hstore h.env⟩
  · obtain ⟨hdone, hstore⟩ := h.store.assign h.store.topEnv name.name hv name.line
    exact ⟨hdone, h.withStore hstore h.env⟩

theorem bind (h : L.SameWorld a g w w') {method method' : Closure} {receiver receiver' : Value}
    (hmethod : L.SameMethod a method method') (hreceiver : L.SameValue a receiver receiver') :
    ∃ a', L.Grows a a' ∧
      L.SameFunction a' (w.bind method receiver).1 (w'.bind method' receiver').1 ∧
      L.SameWorld a' g (w.bind method receiver).2 (w'.bind method' receiver').2 := by
  obtain ⟨a', ha, hworld, henv⟩ := h.newScope (.single "this" hreceiver)
  obtain ⟨g', hscopes, hdecl, hinitializer⟩ := hmethod
  exact ⟨a', ha, ⟨g'.inner, henv hscopes, hdecl, hinitializer, fun _ => g'.inner_ne_zero⟩, hworld⟩

theorem boundMethod (h : L.SameWorld a g w w') {method method' : Closure}
    {receiver receiver' : Value} (hmethod : L.SameMethod a method method')
    (hreceiver : L.SameValue a receiver receiver') : ∃ a', L.Grows a a' ∧
      L.SameValue a' (w.boundMethod method receiver).1 (w'.boundMethod method' receiver').1 ∧
      L.SameWorld a' g (w.boundMethod method receiver).2 (w'.boundMethod method' receiver').2 := by
  obtain ⟨a₁, ha₁, hfunction, hbound⟩ := h.bind hmethod hreceiver
  obtain ⟨a₂, ha₂, hworld, hid⟩ := hbound.newId
  exact ⟨a₂, Lasting.grows_trans ha₁ ha₂, .method hid (hfunction.mono ha₂), hworld⟩

end Lockstep.SameWorld

end Lox
