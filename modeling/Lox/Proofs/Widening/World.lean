import Lox.Proofs.Lockstep.World
import Lox.Proofs.Widening.Syntax

/-!
# Stores with scopes that nothing is bound in

One store may have the scopes of another one at other addresses, and between them scopes in which
nothing is bound. A function is the same in both stores if its scopes are, but for one of those
empty scopes, and if its tree was moved past that scope. Two programs with such stores run in
lockstep.
-/

set_option autoImplicit false

namespace Lox

/-! ## Places of scopes -/

/-- Where the scopes of one store are in another store, which may have more. -/
structure Layout where
  /-- The addresses in the other store of the scopes of the first one, in order. -/
  shared : List ScopeId
  /-- The scopes that only the other store has. -/
  spare : List ScopeId

namespace Layout

/-- Scopes keep their places. -/
structure Grows (a a' : Layout) : Prop where
  shared : a.shared <+: a'.shared
  spare : a.spare ⊆ a'.spare

/-- The next scope of the first store is at this address in the other one. -/
def add (a : Layout) (id : ScopeId) : Layout :=
  { a with shared := a.shared ++ [id] }

def addSpare (a : Layout) (id : ScopeId) : Layout :=
  { a with spare := a.spare ++ [id] }

variable {a a' a'' : Layout}

theorem Grows.refl (a : Layout) : a.Grows a :=
  ⟨List.prefix_rfl, List.Subset.refl _⟩

theorem Grows.trans (h : a.Grows a') (h' : a'.Grows a'') : a.Grows a'' :=
  ⟨h.shared.trans h'.shared, List.Subset.trans h.spare h'.spare⟩

theorem grows_add (a : Layout) (id : ScopeId) : a.Grows (a.add id) :=
  ⟨List.prefix_append _ _, List.Subset.refl _⟩

theorem grows_addSpare (a : Layout) (id : ScopeId) : a.Grows (a.addSpare id) :=
  ⟨List.prefix_rfl, List.subset_append_left _ _⟩

end Layout

/-! ## Stores -/

/-- The second program may be in one more scope, in which nothing is bound. -/
abbrev Sameness.widened : Sameness where
  Stage := Layout
  Grows := Layout.Grows
  SameTree := Widened
  SameId _ i j := j = i
  SameScope a i j := a.shared[i]? = some j
  Extra a x := x ∈ a.spare

instance : Sameness.widened.Lasting where
  grows_refl := Layout.Grows.refl
  grows_trans h h' := h.trans h'
  id_mono _ h := h
  scope_mono ha h := getElem?_of_prefix ha.shared h
  extra_mono ha h := ha.spare h

namespace Layout

abbrev SameValue (a : Layout) : Value → Value → Prop :=
  Sameness.widened.SameValue a

/-- The second store has the scopes of the first one at their places and the spare ones, which are
empty, and no others. -/
structure SameStore (a : Layout) (σ σ' : Store) : Prop where
  places : (a.shared ++ a.spare).Perm (List.range σ'.scopes.size)
  size : a.shared.length = σ.scopes.size
  top : a.shared[0]? = some 0
  scopes : ∀ {i j : ScopeId}, a.shared[i]? = some j →
    Option.Rel (Bindings.Same a.SameValue) σ.scopes[i]? σ'.scopes[j]?
  spare : ∀ {x : ScopeId}, x ∈ a.spare → σ'.scopes[x]? = some .empty
  instances : σ'.objects.size = σ.objects.size
  objects : ∀ id : ObjectId,
    Option.Rel (Bindings.Same a.SameValue) σ.objects[id]? σ'.objects[id]?
  nextId : σ'.nextId = σ.nextId

namespace SameStore
variable {a : Layout} {σ σ' : Store}

theorem nodup (h : a.SameStore σ σ') : (a.shared ++ a.spare).Nodup :=
  h.places.nodup_iff.2 List.nodup_range

theorem lt_size (h : a.SameStore σ σ') {j : ScopeId} (hj : j ∈ a.shared ++ a.spare) :
    j < σ'.scopes.size :=
  List.mem_range.1 (h.places.mem_iff.1 hj)

theorem place_inj (h : a.SameStore σ σ') {i i' j : ScopeId} (hi : a.shared[i]? = some j)
    (hi' : a.shared[i']? = some j) : i = i' := by
  obtain ⟨hlt, -⟩ := List.getElem?_eq_some_iff.1 hi
  exact (List.getElem?_inj hlt (List.nodup_append.1 h.nodup).1).1 (hi.trans hi'.symm)

theorem not_spare (h : a.SameStore σ σ') {i j : ScopeId} (hij : a.shared[i]? = some j) :
    j ∉ a.spare := fun hspare =>
  (List.nodup_append.1 h.nodup).2.2 j (List.mem_of_getElem? hij) j hspare rfl

theorem find? (h : a.SameStore σ σ') {i j : ScopeId} (hij : a.shared[i]? = some j) (x : String) :
    Option.Rel a.SameValue (σ.find? i x) (σ'.find? j x) := by
  have hscope := h.scopes hij
  unfold Store.find?
  generalize σ.scopes[i]? = scope, σ'.scopes[j]? = scope' at hscope
  cases hscope with
  | none => exact .none
  | some hsame => exact hsame.find x

theorem find?_spare (h : a.SameStore σ σ') {x : ScopeId} (hx : x ∈ a.spare) (name : String) :
    σ'.find? x name = none := by
  rw [Store.find?, h.spare hx]
  rfl

theorem field? (h : a.SameStore σ σ') (id : ObjectId) (x : String) :
    Option.Rel a.SameValue (σ.field? id x) (σ'.field? id x) := by
  have hobject := h.objects id
  unfold Store.field?
  generalize σ.objects[id]? = fields, σ'.objects[id]? = fields' at hobject
  cases hobject with
  | none => exact .none
  | some hsame => exact hsame.find x

/-! ### Changes -/

theorem newId (h : a.SameStore σ σ') : a.SameStore σ.newId.2 σ'.newId.2 :=
  { h with nextId := congrArg (· + 1) h.nextId }

theorem put (h : a.SameStore σ σ') {i j : ScopeId} (hij : a.shared[i]? = some j) (name : String)
    {v v' : Value} (hv : a.SameValue v v') : a.SameStore (σ.put i name v) (σ'.put j name v') := by
  refine { h with places := ?_, size := ?_, scopes := ?_, spare := ?_ }
  · simpa [Store.put] using h.places
  · simpa [Store.put] using h.size
  · intro i' j' hij'
    have hscope := h.scopes hij'
    simp only [Store.put, Array.getElem?_modify]
    by_cases hi : i = i'
    · subst hi
      obtain rfl : j = j' := Option.some.inj (hij.symm.trans hij')
      rw [if_pos rfl, if_pos rfl]
      generalize σ.scopes[i]? = scope, σ'.scopes[j]? = scope' at hscope
      cases hscope with
      | none => exact .none
      | some hsame => exact .some (hsame.put name hv)
    · have hj : j ≠ j' := by
        rintro rfl
        exact hi (h.place_inj hij hij')
      rwa [if_neg hi, if_neg hj]
  · intro x hx
    have hj : j ≠ x := by
      rintro rfl
      exact h.not_spare hij hx
    simp only [Store.put, Array.getElem?_modify, if_neg hj]
    exact h.spare hx

theorem setField (h : a.SameStore σ σ') (id : ObjectId) (name : String) {v v' : Value}
    (hv : a.SameValue v v') : a.SameStore (σ.setField id name v) (σ'.setField id name v') := by
  refine { h with instances := by simpa [Store.setField] using h.instances, objects := ?_ }
  intro id'
  have hobject := h.objects id'
  simp only [Store.setField, Array.getElem?_modify]
  split
  · generalize σ.objects[id']? = fields, σ'.objects[id']? = fields' at hobject
    cases hobject with
    | none => exact .none
    | some hsame => exact .some (hsame.put name hv)
  · exact hobject

theorem newObject (h : a.SameStore σ σ') : a.SameStore σ.newObject.2 σ'.newObject.2 := by
  refine { h with instances := ?_, objects := fun id => ?_ }
  · simp [Store.newObject, h.instances]
  · simp only [Store.newObject, Array.getElem?_push, h.instances]
    split
    · exact .some (.empty _)
    · exact h.objects id

/-- The contents of the scopes are the same with regard to a larger layout. -/
theorem mono_scopes {a' : Layout} (h : a.SameStore σ σ') (ha : a.Grows a') {i j : ScopeId}
    (hij : a.shared[i]? = some j) :
    Option.Rel (Bindings.Same a'.SameValue) σ.scopes[i]? σ'.scopes[j]? :=
  rel_imp (fun hsame => hsame.mono (Sameness.SameValue.mono ha)) (h.scopes hij)

theorem mono_objects {a' : Layout} (h : a.SameStore σ σ') (ha : a.Grows a') (id : ObjectId) :
    Option.Rel (Bindings.Same a'.SameValue) σ.objects[id]? σ'.objects[id]? :=
  rel_imp (fun hsame => hsame.mono (Sameness.SameValue.mono ha)) (h.objects id)

/-- Scopes that are there already are not where a new one goes. -/
theorem getElem?_newScope (h : a.SameStore σ σ') {j : ScopeId} (hj : j ∈ a.shared ++ a.spare)
    (bindings : Bindings Value) : (σ'.newScope bindings).2.scopes[j]? = σ'.scopes[j]? := by
  simp only [Store.newScope, Array.getElem?_push]
  exact if_neg (Nat.ne_of_lt (h.lt_size hj))

theorem newScope (h : a.SameStore σ σ') {b b' : Bindings Value}
    (hb : Bindings.Same a.SameValue b b') :
    (a.add σ'.scopes.size).SameStore (σ.newScope b).2 (σ'.newScope b').2 := by
  have hgrows := a.grows_add σ'.scopes.size
  have htop := getElem?_of_prefix hgrows.shared h.top
  refine ⟨?_, ?_, htop, ?_, ?_, h.instances, h.mono_objects hgrows, h.nextId⟩
  · simp only [Store.newScope, Array.size_push, List.range_succ, add, List.append_assoc]
    refine (List.perm_middle.trans ?_).trans (List.perm_append_singleton _ _).symm
    exact h.places.cons _
  · simp [Store.newScope, add, h.size]
  · intro i j hij
    rw [add, List.getElem?_append] at hij
    split at hij
    · rename_i hlt
      have hi : i ≠ σ.scopes.size := Nat.ne_of_lt (h.size ▸ hlt)
      have hj : j ∈ a.shared ++ a.spare := List.mem_append_left _ (List.mem_of_getElem? hij)
      rw [h.getElem?_newScope hj]
      simp only [Store.newScope, Array.getElem?_push, if_neg hi]
      exact h.mono_scopes hgrows hij
    · rename_i hge
      obtain ⟨hlt, rfl⟩ := List.getElem?_eq_some_iff.1 hij
      have hle : i ≤ a.shared.length := Nat.sub_eq_zero_iff_le.1 (Nat.lt_one_iff.1 hlt)
      have hi : i = σ.scopes.size := h.size ▸ Nat.le_antisymm hle (Nat.le_of_not_lt hge)
      simp only [Store.newScope, Array.getElem?_push, if_pos hi, List.getElem_singleton]
      exact .some (hb.mono (Sameness.SameValue.mono hgrows))
  · intro x hx
    rw [h.getElem?_newScope (List.mem_append_right _ hx)]
    exact h.spare hx

/-- The new scope has its place in the larger layout. -/
theorem place_newScope (h : a.SameStore σ σ') :
    (a.add σ'.scopes.size).shared[σ.scopes.size]? = some σ'.scopes.size := by
  rw [add, ← h.size]
  exact List.getElem?_concat_length

theorem addSpare (h : a.SameStore σ σ') :
    (a.addSpare σ'.scopes.size).SameStore σ (σ'.newScope .empty).2 := by
  have hgrows := a.grows_addSpare σ'.scopes.size
  have htop := getElem?_of_prefix hgrows.shared h.top
  refine ⟨?_, h.size, htop, ?_, ?_, h.instances, h.mono_objects hgrows, h.nextId⟩
  · simp only [Store.newScope, Array.size_push, List.range_succ, Layout.addSpare,
      ← List.append_assoc]
    exact h.places.append_right _
  · intro i j hij
    rw [h.getElem?_newScope (List.mem_append_left _ (List.mem_of_getElem? hij))]
    exact h.mono_scopes hgrows hij
  · intro x hx
    rcases List.mem_append.1 hx with hx | hx
    · rw [h.getElem?_newScope (List.mem_append_right _ hx)]
      exact h.spare hx
    · obtain rfl := List.mem_singleton.1 hx
      simp [Store.newScope]

end SameStore

end Layout

/-! ## Lockstep -/

abbrev Lockstep.widened : Lockstep where
  toSameness := .widened
  SameStore := Layout.SameStore
  SameError e e' := e' = e

namespace Layout

instance : Lockstep.widened.Coherent where
  alike := Widened.alike
  turns h := h.statements.imp fun _ _ => Or.inr
  error_refl _ := rfl
  beq_eq := by
    rintro _ _ _ _ _ _ _ - rfl rfl
    rfl
  top := SameStore.top
  find? h hscope := h.find? hscope
  find?_extra h hextra := h.find?_spare hextra
  put h hscope name hv := h.put hscope name hv
  field? := SameStore.field?
  setField h id name hv := h.setField id name hv
  newObject h := ⟨h.instances, h.newObject⟩
  newId h := ⟨_, .refl _, h.newId, h.nextId⟩
  newScope h hb := ⟨_, grows_add _ _, h.newScope hb, h.place_newScope⟩

abbrev SameWorld (a : Layout) (g : Gap) (w w' : World) : Prop :=
  Lockstep.widened.SameWorld a g w w'

/-- The second program is in one more empty scope. -/
theorem SameWorld.addSpare {a : Layout} {w w' : World} (h : a.SameWorld none w w') :
    (a.addSpare w'.store.scopes.size).SameWorld (some 0) w
      { (w'.newScope .empty).2 with env := w'.store.scopes.size :: w'.env } :=
  { h with
    store := h.store.addSpare
    env := .extra (List.mem_append_right _ List.mem_cons_self) (h.env.mono (a.grows_addSpare _)) }

instance : Lockstep.widened.Lawful where
  defineFunctions h hg hbody := h.defineFunctions_alike hg hbody.statements

end Layout

/-! ## A world and itself -/

/-- The scopes of the function are among the first `n`. -/
def Closure.Within (n : Nat) (c : Closure) : Prop :=
  ∀ id ∈ c.env, id < n

def Value.Within (n : Nat) : Value → Prop
  | .function _ c => c.Within n
  | .method _ c => c.Within n
  | .classRef cls => ∀ name method, cls.findMethod? name = some method → method.Within n
  | .object _ cls => ∀ name method, cls.findMethod? name = some method → method.Within n
  | _ => True

/-- All scopes that the world refers to are in its store. -/
structure World.Closed (w : World) : Prop where
  top : 0 < w.store.scopes.size
  env : ∀ id ∈ w.env, id < w.store.scopes.size
  value : ∀ id x v, w.store.find? id x = some v → v.Within w.store.scopes.size
  field : ∀ id x v, w.store.field? id x = some v → v.Within w.store.scopes.size

namespace Layout

/-- Each of the first `n` scopes is at its own address. -/
def whole (n : Nat) : Layout := ⟨List.range n, []⟩

variable {n : Nat}

theorem whole_place {i : ScopeId} (h : i < n) : (whole n).shared[i]? = some i :=
  List.getElem?_range h

theorem whole_place_eq {i j : ScopeId} (h : (whole n).shared[i]? = some j) : i = j := by
  obtain ⟨hlt, rfl⟩ := List.getElem?_eq_some_iff.1 h
  exact (List.getElem_range hlt).symm

theorem whole_env {env : Env} (h : ∀ id ∈ env, id < n) :
    Sameness.widened.SameEnv (whole n) none env env := by
  induction env with
  | nil => exact .nil
  | cons id env ih =>
    have henv := ih fun id' hid' => h id' (List.mem_cons_of_mem _ hid')
    exact .scope (g := none) (whole_place (h id List.mem_cons_self)) henv

theorem whole_function {c : Closure} (h : c.Within n) :
    Sameness.widened.SameFunction (whole n) c c :=
  ⟨none, whole_env h, Node.stays (.function c.decl), rfl, by simp⟩

theorem whole_method {c : Closure} (h : c.Within n) : Sameness.widened.SameMethod (whole n) c c :=
  ⟨none, whole_env h, Node.stays (.function c.decl), rfl⟩

theorem whole_class {c : Class}
    (h : ∀ name method, c.findMethod? name = some method → method.Within n) :
    Sameness.widened.SameClass (whole n) c c := by
  refine ⟨List.forall₂_same.2 fun _ _ => ⟨rfl, rfl, rfl⟩, fun x => ?_⟩
  change Option.Rel _ (c.findMethod? x) (c.findMethod? x)
  cases hfound : c.findMethod? x with
  | none => exact .none
  | some method => exact .some (whole_method (h x method hfound))

theorem whole_value {v : Value} (h : v.Within n) : (whole n).SameValue v v := by
  cases v with
  | function id c => exact .function rfl (whole_function h)
  | method id c => exact .method rfl (whole_function h)
  | classRef c => exact .classRef (whole_class h)
  | object id c => exact .object id (whole_class h)
  | nil => exact .nil
  | bool b => exact .bool b
  | number x => exact .number x
  | string s => exact .string s
  | native id host => exact .native host rfl

theorem whole_bindings {b : Bindings Value} (h : ∀ x v, b.find? x = some v → v.Within n) :
    Bindings.Same (whole n).SameValue b b := by
  refine ⟨rfl, fun x => ?_⟩
  cases hfound : b.find? x with
  | none => exact .none
  | some v => exact .some (whole_value (h x v hfound))

theorem whole_world {w : World} (h : w.Closed) :
    (whole w.store.scopes.size).SameWorld none w w := by
  refine ⟨⟨?_, List.length_range, whole_place h.top, ?_, ?_, rfl, ?_, rfl⟩, whole_env h.env,
    rfl, rfl, rfl, rfl⟩
  · rw [whole, List.append_nil]
  · intro i j hij
    obtain rfl := whole_place_eq hij
    cases hscope : w.store.scopes[i]? with
    | none => exact .none
    | some scope =>
      refine .some (whole_bindings fun x v hv => h.value i x v ?_)
      rw [Store.find?, hscope]
      exact hv
  · intro x hx
    cases hx
  · intro id
    cases hobject : w.store.objects[id]? with
    | none => exact .none
    | some fields =>
      refine .some (whole_bindings fun x v hv => h.field id x v ?_)
      rw [Store.field?, hobject]
      exact hv

end Layout

end Lox
