import Lox.Proofs.Lockstep.World
import Lox.Proofs.Reordering.Syntax

/-!
# Worlds with exchanged identities

Functions and classes get their identities in the order in which they are made. Where two functions
have been exchanged, they get each other's identities, and their scope has its names in another
order. A value that is compared, called or shown does not tell the difference, and two such programs
run in lockstep. The line that a report of an internal error names may differ, as a block has the
line of its first statement. No other error differs.
-/

set_option autoImplicit false

namespace Lox

/-- The identities that the second world has for those of the first one, in order. -/
abbrev Renaming := List Nat

/-- The second program is the first one, or has two functions exchanged. There is no extra scope. -/
abbrev Sameness.reordered : Sameness where
  Stage := Renaming
  Grows a a' := a <+: a'
  SameTree := ReorderedAt
  SameId a i j := a[i]? = some j
  SameScope _ i j := j = i
  Extra _ _ := False

namespace Renaming

/-- Identities are the same in one world if they are the same in the other one. -/
theorem beq_eq {a : Renaming} (ha : a.Nodup) {i i' j j' : Nat} (h : a[i]? = some j)
    (h' : a[i']? = some j') : (j == j') = (i == i') := by
  rw [Bool.eq_iff_iff, beq_iff_eq, beq_iff_eq]
  constructor
  · rintro rfl
    exact (List.getElem?_inj (List.getElem?_eq_some_iff.1 h).1 ha).1 (h.trans h'.symm)
  · rintro rfl
    exact Option.some.inj (h.symm.trans h')

instance : Sameness.reordered.Lasting where
  grows_refl _ := List.prefix_rfl
  grows_trans h h' := h.trans h'
  id_mono ha h := getElem?_of_prefix ha h
  scope_mono _ h := h
  extra_mono _ h := h

theorem sameEnv_iff {a : Renaming} {g : Gap} {env env' : Env} :
    Sameness.reordered.SameEnv a g env env' ↔ g = none ∧ env' = env := by
  constructor
  · intro h
    induction h with
    | nil => exact ⟨rfl, rfl⟩
    | scope hscope _ ih =>
      obtain ⟨rfl, rfl⟩ := ih
      obtain rfl := hscope
      exact ⟨rfl, rfl⟩
    | extra hextra => exact hextra.elim
  · rintro ⟨rfl, rfl⟩
    induction env' with
    | nil => exact .nil
    | cons id env ih => exact .scope (g := none) rfl ih

theorem function_self (a : Renaming) (c : Closure) : Sameness.reordered.SameFunction a c c :=
  ⟨none, sameEnv_iff.2 ⟨rfl, rfl⟩, ⟨rfl, .refl _⟩, rfl, by simp⟩

abbrev SameValue (a : Renaming) : Value → Value → Prop :=
  Sameness.reordered.SameValue a

/-! ## Stores -/

/-- The stores have the same scopes and instances, with values that are the same, and have given out
the same identities. -/
structure SameStore (a : Renaming) (σ σ' : Store) : Prop where
  ids : a.Perm (List.range σ.nextId)
  nextId : σ'.nextId = σ.nextId
  size : σ'.scopes.size = σ.scopes.size
  find? : ∀ id x, Option.Rel a.SameValue (σ.find? id x) (σ'.find? id x)
  instances : σ'.objects.size = σ.objects.size
  field? : ∀ id x, Option.Rel a.SameValue (σ.field? id x) (σ'.field? id x)

/-- Where there is something in one array, there is something in the other. -/
theorem rel_map_const {α : Type} {R : α → α → Prop} {entries entries' : Array (Bindings α)}
    (hsize : entries'.size = entries.size) (i : Nat) {v v' : α} (hv : R v v') :
    Option.Rel R (entries[i]?.map fun _ => v) (entries'[i]?.map fun _ => v') := by
  by_cases hi : i < entries.size
  · rw [Array.getElem?_eq_getElem hi, Array.getElem?_eq_getElem (hsize ▸ hi)]
    exact .some hv
  · rw [Array.getElem?_eq_none (Nat.le_of_not_lt hi),
      Array.getElem?_eq_none (hsize ▸ Nat.le_of_not_lt hi)]
    exact .none

namespace SameStore
variable {a a' : Renaming} {σ σ' : Store}

theorem nodup (h : a.SameStore σ σ') : a.Nodup :=
  h.ids.nodup_iff.2 List.nodup_range

theorem length_eq (h : a.SameStore σ σ') : a.length = σ.nextId := by
  rw [h.ids.length_eq, List.length_range]

/-- More identities have been given out. -/
theorem extend (h : a.SameStore σ σ') (ha : a <+: a') {n : Nat} (hids : a'.Perm (List.range n)) :
    a'.SameStore { σ with nextId := n } { σ' with nextId := n } :=
  { h with
    ids := hids
    nextId := rfl
    find? := fun id x => rel_imp (Sameness.SameValue.mono ha) (h.find? id x)
    field? := fun id x => rel_imp (Sameness.SameValue.mono ha) (h.field? id x) }

theorem newId (h : a.SameStore σ σ') :
    (a ++ [σ.nextId]).SameStore σ.newId.2 σ'.newId.2 := by
  have hids : (a ++ [σ.nextId]).Perm (List.range (σ.nextId + 1)) := by
    rw [List.range_succ]
    exact h.ids.append_right _
  have hstore : σ'.newId.2 = { σ' with nextId := σ.nextId + 1 } := by rw [Store.newId, h.nextId]
  rw [hstore]
  exact h.extend (List.prefix_append a _) hids

/-- A new identity is the same one in both stores. -/
theorem place_newId (h : a.SameStore σ σ') : (a ++ [σ.nextId])[σ.nextId]? = some σ'.nextId := by
  rw [h.nextId, ← h.length_eq]
  exact List.getElem?_concat_length

theorem put (h : a.SameStore σ σ') (id : ScopeId) (name : String) {v v' : Value}
    (hv : a.SameValue v v') : a.SameStore (σ.put id name v) (σ'.put id name v') := by
  refine { h with size := by simp [Store.put, h.size], find? := fun id' x => ?_ }
  rw [Store.find?_put, Store.find?_put]
  split
  · exact rel_map_const h.size id hv
  · exact h.find? id' x

/-- Different names may be bound in either order. -/
theorem define_exchange (h : a.SameStore σ σ') (env : Env) {x y : String} (hxy : x ≠ y)
    {u u' v v' : Value} (hu : a.SameValue u u') (hv : a.SameValue v v') :
    a.SameStore ((σ.define env x u).define env y v) ((σ'.define env y v').define env x u') := by
  cases env with
  | nil => exact h
  | cons id outer =>
    simp only [Store.define]
    refine { h with size := by simp [Store.put, h.size], find? := fun id' z => ?_ }
    have hsize : (σ'.put id y v').scopes.size = σ.scopes.size := by simp [Store.put, h.size]
    have hsize' : σ'.scopes.size = (σ.put id x u).scopes.size := by simp [Store.put, h.size]
    simp only [Store.find?_put]
    by_cases hx : id = id' ∧ x = z
    · have hy : ¬ (id = id' ∧ y = z) := fun hy => hxy (hx.2.trans hy.2.symm)
      simp only [if_pos hx, if_neg hy]
      exact rel_map_const hsize id hu
    · by_cases hy : id = id' ∧ y = z
      · simp only [if_neg hx, if_pos hy]
        exact rel_map_const hsize' id hv
      · simp only [if_neg hx, if_neg hy]
        exact h.find? id' z

theorem setField (h : a.SameStore σ σ') (id : ObjectId) (name : String) {v v' : Value}
    (hv : a.SameValue v v') : a.SameStore (σ.setField id name v) (σ'.setField id name v') := by
  refine { h with instances := by simp [Store.setField, h.instances], field? := fun id' x => ?_ }
  rw [Store.field?_setField, Store.field?_setField]
  split
  · exact rel_map_const h.instances id hv
  · exact h.field? id' x

theorem newObject (h : a.SameStore σ σ') : a.SameStore σ.newObject.2 σ'.newObject.2 := by
  refine { h with instances := by simp [Store.newObject, h.instances], field? := fun id x => ?_ }
  rw [Store.field?_newObject, Store.field?_newObject]
  exact h.field? id x

theorem newScope (h : a.SameStore σ σ') {b b' : Bindings Value}
    (hb : Bindings.Same a.SameValue b b') :
    a.SameStore (σ.newScope b).2 (σ'.newScope b').2 := by
  refine { h with size := by simp [Store.newScope, h.size], find? := fun id x => ?_ }
  rw [Store.find?_newScope, Store.find?_newScope, h.size]
  split
  · exact hb.find x
  · exact h.find? id x

end SameStore

end Renaming

/-! ## Lockstep -/

abbrev Lockstep.reordered : Lockstep where
  toSameness := .reordered
  SameStore := Renaming.SameStore
  SameError e e' := e.isInternal = false → e' = e

instance : Lockstep.reordered.Coherent where
  alike hn h := by
    obtain ⟨rfl, h⟩ := h
    exact h.alike hn
  turns h := by
    obtain ⟨rfl, h⟩ := h
    exact h.turns
  error_refl _ _ := rfl
  beq_eq h := Renaming.beq_eq h.nodup
  top _ := rfl
  find? h hscope := by
    obtain rfl := hscope
    exact h.find? _
  find?_extra _ hextra := hextra.elim
  put h hscope name hv := by
    obtain rfl := hscope
    exact h.put _ name hv
  field? h := h.field?
  setField h id name hv := h.setField id name hv
  newObject h := ⟨h.instances, h.newObject⟩
  newId h := ⟨_, List.prefix_append _ _, h.newId, h.place_newId⟩
  newScope h hb := ⟨_, List.prefix_rfl, h.newScope hb, h.size⟩

/-! ## Worlds -/

theorem World.defineFunction_twice (w : World) {f g : FunDecl} {x y : Ident} (hf : f.name = some x)
    (hg : g.name = some y) :
    let σ : Store := { w.store with nextId := w.store.nextId + 2 }
    let first := Value.function w.store.nextId ⟨f, w.env, false⟩
    let second := Value.function (w.store.nextId + 1) ⟨g, w.env, false⟩
    (w.defineFunction f).defineFunction g =
      { w with store := (σ.define w.env x.name first).define w.env y.name second } := by
  obtain ⟨store, env, depth, maxDepth, sink, clock⟩ := w
  simp only [defineFunction, hf, hg]
  cases env with
  | nil => rfl
  | cons id outer => rfl

namespace Renaming

/-- The worlds differ in the identities that have been given out and in the order of names in a
scope. -/
abbrev SameWorld (a : Renaming) (w w' : World) : Prop :=
  Lockstep.reordered.SameWorld a none w w'

namespace SameWorld
variable {a : Renaming} {w w' : World}

/-- The same function is defined in both worlds. -/
theorem defineFunction {decl decl' : FunDecl} (h : a.SameWorld w w')
    (hdecl : Reordered (.function decl) (.function decl')) :
    ∃ a' : Renaming, a <+: a' ∧ a'.SameWorld (w.defineFunction decl) (w'.defineFunction decl') :=
  Lockstep.SameWorld.defineFunction h (by simp) ⟨rfl, hdecl⟩

/-- Two functions that are defined in the other order get each other's identities. -/
theorem defineFunction_exchange (h : a.SameWorld w w') {f g : FunDecl}
    (hnames : (f.name.toList.map Ident.name ++ g.name.toList.map Ident.name).Nodup) :
    ∃ a' : Renaming, a <+: a' ∧ a'.SameWorld ((w.defineFunction f).defineFunction g)
      ((w'.defineFunction g).defineFunction f) := by
  have hdefines (decl : FunDecl) := h.defineFunction (.refl (.function decl))
  cases hf : f.name with
  | none => simpa only [World.defineFunction, hf] using hdefines g
  | some x =>
    cases hg : g.name with
    | none => simpa only [World.defineFunction, hg] using hdefines f
    | some y =>
      have hxy : x.name ≠ y.name := by simpa [hf, hg] using hnames
      have hids : (a ++ [w.store.nextId + 1, w.store.nextId]).Perm
          (List.range (w.store.nextId + 2)) := by
        rw [List.range_succ, List.range_succ, List.append_assoc]
        exact h.store.ids.append (.swap _ _ _)
      have hlength := h.store.length_eq
      have hfirst : (a ++ [w.store.nextId + 1, w.store.nextId])[w.store.nextId]? =
          some (w.store.nextId + 1) := by simp [← hlength]
      have hsecond : (a ++ [w.store.nextId + 1, w.store.nextId])[w.store.nextId + 1]? =
          some w.store.nextId := by simp [← hlength]
      have hstore := (h.store.extend (List.prefix_append a _) hids).define_exchange w.env hxy
        (.function hfirst (function_self _ ⟨f, w.env, false⟩))
        (.function hsecond (function_self _ ⟨g, w.env, false⟩))
      refine ⟨a ++ [w.store.nextId + 1, w.store.nextId], List.prefix_append a _, ?_⟩
      rw [w.defineFunction_twice hf hg, w'.defineFunction_twice hg hf, (sameEnv_iff.1 h.env).2,
        h.store.nextId]
      exact { h with store := hstore, env := sameEnv_iff.2 ⟨rfl, rfl⟩ }

theorem defineFunctions {body body' : List Stmt} (h : a.SameWorld w w')
    (hbody : Reordered (.body body) (.body body')) :
    ∃ a' : Renaming, a <+: a' ∧
      a'.SameWorld (w.defineFunctions body) (w'.defineFunctions body') := by
  obtain ⟨way, heq, htidy⟩ := hbody
  obtain rfl := Node.body.inj heq
  clear heq
  induction body generalizing a w w' way with
  | nil => exact ⟨a, List.prefix_rfl, h⟩
  | cons s rest ih =>
    rcases exchangeInBody_cases way s rest with
      ⟨f, g, more, hfunctions, hway, hexchange⟩ | ⟨first, later, hway, hexchange⟩
    · have hnames : (functionNames (s :: rest)).Nodup := (htidy hway).own
      rw [hexchange, hfunctions]
      rw [hfunctions, functionNames, functionNames, ← List.append_assoc] at hnames
      obtain ⟨a₁, ha₁, hboth⟩ := h.defineFunction_exchange (List.nodup_append.1 hnames).1
      obtain ⟨a₂, ha₂, hall⟩ := hboth.defineFunctions_alike (by simp)
        (List.forall₂_same.2 fun s _ => ⟨rfl, .refl (.stmt s)⟩ : List.Forall₂ _ more more)
      exact ⟨a₂, ha₁.trans ha₂, hall⟩
    · rw [hexchange]
      cases hs : s.isFunction with
      | false =>
        have hrest : later ≠ [] → Tidy (.body rest) := fun hlater =>
          (htidy fun hnil => hlater (hway hnil).2).part (by simp [Node.parts_body_cons hs])
        rw [World.defineFunctions_cons hs, World.defineFunctions_cons (by simp [hs])]
        exact ih h later hrest
      | true =>
        cases s with
        | function decl =>
          have hdecl := Reordered.of_part htidy (.head _) fun hnil => (hway hnil).1
          have hrest : later ≠ [] → Tidy (.body rest) := fun hlater =>
            (htidy fun hnil => hlater (hway hnil).2).part (.tail _ (.head _))
          obtain ⟨a₁, ha₁, hfirst⟩ := h.defineFunction hdecl
          obtain ⟨a₂, ha₂, hall⟩ := ih hfirst later hrest
          exact ⟨a₂, ha₁.trans ha₂, hall⟩
        | _ => cases hs

end SameWorld

end Renaming

instance : Lockstep.reordered.Lawful where
  defineFunctions h _ hbody := by
    obtain ⟨rfl, hbody⟩ := hbody
    exact Renaming.SameWorld.defineFunctions h hbody

end Lox
