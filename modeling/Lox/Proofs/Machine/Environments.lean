import Lox.Proofs.Machine.Shapes
import Mathlib.Order.Bounds.Basic

/-!
# Reading and writing through environments

Environments share their scopes, so what is written through one of them is seen through others. An
access picks a scope by name, as the nearest one that binds it, or by its distance. Reading and
writing pick the same scope and succeed or fail alike. A write changes one binding, which is seen
by those accesses that pick the same scope for the same name, whatever environment they start from.
-/

set_option autoImplicit false

namespace Lox

/-- How an environment is searched for the scope of a name. -/
inductive Access where
  | byName
  | atDistance (distance : Nat)

/-- Why an access fails, if it does. -/
def Access.failure (env : Env) (x : String) (line : Nat) : Access → Error
  | .byName => .runtime (.undefinedVariable x) line
  | .atDistance d =>
    if env.length ≤ d then .internal (.scopeTooDeep x line)
    else .runtime (.undefinedVariable x) line

namespace Store

variable {σ τ : Store} {env : Env} {id : ScopeId} {x y : String} {v : Value} {k d line : Nat}
  {access : Access}

/-! ## Single scopes -/

theorem not_binds_iff : ¬ σ.Binds id x ↔ σ.find? id x = none := by
  simp [Binds]

theorem binds_of_find? {u : Value} (h : σ.find? id x = some u) : σ.Binds id x := by
  rw [Binds, h]
  rfl

theorem get_single_of_none (h : σ.find? id x = none) (line : Nat) :
    σ.get [id] x line = .error (undefined x line) := by
  rw [get, h]
  rfl

theorem get_single_of_some {u : Value} (h : σ.find? id x = some u) (line : Nat) :
    σ.get [id] x line = .ok u := by
  rw [get, h]

theorem assign_single_of_none (h : σ.find? id x = none) (v : Value) (line : Nat) :
    σ.assign [id] x v line = (.error (undefined x line), σ) := by
  rw [assign, h]
  rfl

theorem assign_single_of_some {u : Value} (h : σ.find? id x = some u) (v : Value) (line : Nat) :
    σ.assign [id] x v line = (.ok (), σ.put id x v) := by
  rw [assign, h]

/-! ## The nearest scope -/

/-- The nearest scope that binds the name. -/
def nearest? (σ : Store) (env : Env) (x : String) : Option ScopeId :=
  env.find? fun id => (σ.find? id x).isSome

/-- A walk outward that passes the scopes without the name and stops at the first one with it is
one on the nearest scope alone. -/
theorem walk_nearest {α : Type} (walk : Env → α)
    (hpass : ∀ id outer, σ.find? id x = none → walk (id :: outer) = walk outer)
    (hstop : ∀ id outer u, σ.find? id x = some u → walk (id :: outer) = walk [id]) (env : Env) :
    walk env = walk (σ.nearest? env x).toList := by
  induction env with
  | nil => rfl
  | cons first outer ih =>
    cases hfirst : σ.find? first x with
    | none =>
      rw [hpass first outer hfirst, ih, nearest?, nearest?, List.find?_cons_of_neg (by simp [hfirst])]
    | some u =>
      rw [hstop first outer u hfirst, nearest?, List.find?_cons_of_pos (by simp [hfirst])]
      rfl

theorem get_nearest (line : Nat) : σ.get env x line = σ.get (σ.nearest? env x).toList x line := by
  refine walk_nearest (fun env => σ.get env x line) ?_ ?_ env
  · intro id outer h
    simp only [get, h]
  · intro id outer u h
    simp only [get, h]

theorem assign_nearest (v : Value) (line : Nat) :
    σ.assign env x v line = σ.assign (σ.nearest? env x).toList x v line := by
  refine walk_nearest (fun env => σ.assign env x v line) ?_ ?_ env
  · intro id outer h
    simp only [assign, h]
  · intro id outer u h
    simp only [assign, h]

/-! ## Distances -/

theorem getAt_eq (hid : env[d]? = some id) (line : Nat) :
    σ.getAt env d x line = σ.get [id] x line := by
  rw [getAt, hid]
  rfl

theorem assignAt_eq (hid : env[d]? = some id) (v : Value) (line : Nat) :
    σ.assignAt env d x v line = σ.assign [id] x v line := by
  rw [assignAt, hid]
  rfl

/-- The scope at this distance binds the name. -/
def BindsAt (σ : Store) (env : Env) (k : Nat) (x : String) : Prop :=
  ∃ id, env[k]? = some id ∧ σ.Binds id x

/-- The nearest scope is that at the least distance where the name is bound. -/
theorem nearest?_of_isLeast (h : IsLeast {k | σ.BindsAt env k x} k) :
    ∃ id, σ.nearest? env x = some id ∧ env[k]? = some id := by
  obtain ⟨⟨id, hid, hbinds⟩, hleast⟩ := h
  obtain ⟨hlt, hget⟩ := List.getElem?_eq_some_iff.1 hid
  refine ⟨id, List.find?_eq_some_iff_getElem.2 ⟨hbinds, k, hlt, hget, ?_⟩, hid⟩
  -- A scope before this one that bound the name would be at a lesser distance.
  intro j hj
  rw [Bool.not_eq_true', ← Bool.not_eq_true]
  intro hbound
  have hle : k ≤ j := hleast ⟨env[j], List.getElem?_eq_getElem (hj.trans hlt), hbound⟩
  exact Nat.not_le.2 hj hle

theorem get_eq_getAt (h : IsLeast {k | σ.BindsAt env k x} k) (line : Nat) :
    σ.get env x line = σ.getAt env k x line := by
  obtain ⟨id, hnearest, hid⟩ := nearest?_of_isLeast h
  rw [get_nearest, hnearest, getAt_eq hid]
  rfl

theorem assign_eq_assignAt (h : IsLeast {k | σ.BindsAt env k x} k) (v : Value) (line : Nat) :
    σ.assign env x v line = σ.assignAt env k x v line := by
  obtain ⟨id, hnearest, hid⟩ := nearest?_of_isLeast h
  rw [assign_nearest, hnearest, assignAt_eq hid]
  rfl

/-! ## What an access comes to -/

/-- The scope that an access picks for a name. -/
def picked? (σ : Store) (env : Env) (x : String) : Access → Option ScopeId
  | .byName => σ.nearest? env x
  | .atDistance d => env[d]?

def readBy (σ : Store) (env : Env) (x : String) (line : Nat) : Access → Except Error Value
  | .byName => σ.get env x line
  | .atDistance d => σ.getAt env d x line

def writeBy (σ : Store) (env : Env) (x : String) (v : Value) (line : Nat) :
    Access → Except Error Unit × Store
  | .byName => σ.assign env x v line
  | .atDistance d => σ.assignAt env d x v line

theorem access_of_picked (h : σ.picked? env x access = some id) (v : Value) (line : Nat) :
    σ.readBy env x line access = σ.get [id] x line ∧
      σ.writeBy env x v line access = σ.assign [id] x v line ∧
      access.failure env x line = undefined x line := by
  cases access with
  | byName =>
    have hnearest : σ.nearest? env x = some id := h
    refine ⟨get_nearest line |>.trans ?_, assign_nearest v line |>.trans ?_, rfl⟩
    · rw [hnearest]
      rfl
    · rw [hnearest]
      rfl
  | atDistance d =>
    have hlt : d < env.length := (List.getElem?_eq_some_iff.1 h).1
    exact ⟨getAt_eq h line, assignAt_eq h v line, if_neg (Nat.not_le.2 hlt)⟩

theorem access_of_none (h : σ.picked? env x access = none) (v : Value) (line : Nat) :
    σ.readBy env x line access = .error (access.failure env x line) ∧
      σ.writeBy env x v line access = (.error (access.failure env x line), σ) := by
  cases access with
  | byName =>
    have hnearest : σ.nearest? env x = none := h
    refine ⟨get_nearest line |>.trans ?_, assign_nearest v line |>.trans ?_⟩
    · rw [hnearest]
      rfl
    · rw [hnearest]
      rfl
  | atDistance d =>
    have hnone : env[d]? = none := h
    rw [Access.failure, if_pos (List.getElem?_eq_none_iff.1 hnone), readBy, getAt, writeBy, assignAt,
      hnone]
    exact ⟨rfl, rfl⟩

/-- Reading and writing fail alike, because the access picks no scope that binds the name, or they
act on the same binding. -/
theorem access_cases (σ : Store) (env : Env) (x : String) (v : Value) (line : Nat)
    (access : Access) :
    (σ.readBy env x line access = .error (access.failure env x line) ∧
      σ.writeBy env x v line access = (.error (access.failure env x line), σ) ∧
      ∀ id, σ.picked? env x access = some id → ¬ σ.Binds id x) ∨
    ∃ id u, σ.picked? env x access = some id ∧ σ.find? id x = some u ∧
      σ.readBy env x line access = .ok u ∧
      σ.writeBy env x v line access = (.ok (), σ.put id x v) := by
  cases hpicked : σ.picked? env x access with
  | none =>
    obtain ⟨hread, hwrite⟩ := access_of_none hpicked v line
    refine Or.inl ⟨hread, hwrite, ?_⟩
    intro id hid
    cases hid
  | some id =>
    obtain ⟨hread, hwrite, hfailure⟩ := access_of_picked hpicked v line
    cases hu : σ.find? id x with
    | none =>
      rw [hread, hwrite, hfailure]
      refine Or.inl ⟨get_single_of_none hu line, assign_single_of_none hu v line, ?_⟩
      rintro id' ⟨rfl⟩
      exact not_binds_iff.2 hu
    | some u =>
      exact Or.inr ⟨id, u, rfl, hu, hread.trans (get_single_of_some hu line),
        hwrite.trans (assign_single_of_some hu v line)⟩

theorem readBy_eq_ok_iff {u : Value} :
    σ.readBy env x line access = .ok u ↔
      ∃ id, σ.picked? env x access = some id ∧ σ.find? id x = some u := by
  rcases σ.access_cases env x .nil line access with
    ⟨hread, -, hunbound⟩ | ⟨id, u', hpicked, hu', hread, -⟩
  · rw [hread]
    constructor
    · intro h
      cases h
    · rintro ⟨id, hpicked, hu⟩
      exact absurd (binds_of_find? hu) (hunbound id hpicked)
  · rw [hread]
    constructor
    · intro h
      cases h
      exact ⟨id, hpicked, hu'⟩
    · rintro ⟨id', hpicked', hu⟩
      obtain rfl := Option.some.inj (hpicked.symm.trans hpicked')
      rw [Option.some.inj (hu'.symm.trans hu)]

theorem readBy_eq_error_iff {e : Error} :
    σ.readBy env x line access = .error e ↔
      (∀ id, σ.picked? env x access = some id → ¬ σ.Binds id x) ∧
        e = access.failure env x line := by
  rcases σ.access_cases env x .nil line access with
    ⟨hread, -, hunbound⟩ | ⟨id, u, hpicked, hu, hread, -⟩
  · rw [hread, Except.error.injEq]
    exact ⟨fun h => ⟨hunbound, h.symm⟩, fun h => h.2.symm⟩
  · rw [hread]
    constructor
    · intro h
      cases h
    · rintro ⟨hunbound, -⟩
      exact absurd (binds_of_find? hu) (hunbound id hpicked)

/-- What holds of a store, and of it with any bound name overwritten, holds after a write. -/
theorem writeBy_keeps (P : Store → Prop) (h : P σ) (hput : ∀ id, σ.Binds id x → P (σ.put id x v))
    (env : Env) (line : Nat) (access : Access) : P (σ.writeBy env x v line access).2 := by
  rcases σ.access_cases env x v line access with ⟨-, hwrite, -⟩ | ⟨id, u, -, hu, -, hwrite⟩
  · rw [hwrite]
    exact h
  · rw [hwrite]
    exact hput id (binds_of_find? hu)

/-! ## Overwritten bindings -/

/-- The stores differ at most in what the scope binds the name to, which is `v` in `τ`. -/
structure Overwritten (σ : Store) (id : ScopeId) (x : String) (v : Value) (τ : Store) : Prop where
  bound : σ.Binds id x
  holds : τ.find? id x = some v
  others : ∀ id' y, ¬ (id' = id ∧ y = x) → τ.find? id' y = σ.find? id' y
  names : τ.scopes.map Bindings.names = σ.scopes.map Bindings.names
  objects : τ.objects = σ.objects
  nextId : τ.nextId = σ.nextId

theorem names_put_of_binds (h : σ.Binds id x) (v : Value) :
    (σ.put id x v).scopes.map Bindings.names = σ.scopes.map Bindings.names := by
  apply Array.ext_getElem?
  intro i
  simp only [put, Array.getElem?_map, Array.getElem?_modify]
  split
  · subst i
    cases hscope : σ.scopes[id]? with
    | none => rfl
    | some scope =>
      have hx : x ∈ scope.names := by
        simp only [Binds, find?, hscope] at h
        obtain ⟨entry, hentry, hx⟩ := List.lookup_isSome_iff.1 h
        exact List.mem_map.2 ⟨entry, hentry, (eq_of_beq hx).symm⟩
      simp [Bindings.names_put, hx]
  · rfl

theorem overwritten_put (h : σ.Binds id x) (v : Value) : σ.Overwritten id x v (σ.put id x v) where
  bound := h
  holds := by
    rw [find?_put, if_pos ⟨rfl, rfl⟩]
    cases hscope : σ.scopes[id]? with
    | none => simp [Binds, find?, hscope] at h
    | some scope => rfl
  others := by
    intro id' y hother
    rw [find?_put, if_neg]
    rintro ⟨rfl, rfl⟩
    exact hother ⟨rfl, rfl⟩
  names := names_put_of_binds h v
  objects := rfl
  nextId := rfl

namespace Overwritten

theorem binds_iff (h : σ.Overwritten id x v τ) (id' : ScopeId) (y : String) :
    τ.Binds id' y ↔ σ.Binds id' y := by
  by_cases hother : id' = id ∧ y = x
  · obtain ⟨rfl, rfl⟩ := hother
    exact iff_of_true (binds_of_find? h.holds) h.bound
  · rw [Binds, Binds, h.others id' y hother]

/-- Every access picks the same scope after the write as before it. -/
theorem picked?_eq (h : σ.Overwritten id x v τ) (env : Env) (y : String) (access : Access) :
    τ.picked? env y access = σ.picked? env y access := by
  cases access with
  | byName =>
    have hsome (id' : ScopeId) : (τ.find? id' y).isSome = (σ.find? id' y).isSome :=
      Bool.eq_iff_iff.2 (h.binds_iff id' y)
    simp only [picked?, nearest?, hsome]
  | atDistance d => rfl

theorem readBy_hit (h : σ.Overwritten id x v τ) (hhit : σ.picked? env x access = some id)
    (line : Nat) : τ.readBy env x line access = .ok v :=
  readBy_eq_ok_iff.2 ⟨id, (h.picked?_eq env x access).trans hhit, h.holds⟩

/-- An access of another binding yields the same value, and one that fails does so as before. -/
theorem readBy_miss (h : σ.Overwritten id x v τ)
    (hmiss : ¬ (σ.picked? env y access = some id ∧ y = x)) (line : Nat) :
    τ.readBy env y line access = σ.readBy env y line access := by
  have hpicked := h.picked?_eq env y access
  cases hread : σ.readBy env y line access with
  | ok u =>
    obtain ⟨id', hid', hu⟩ := readBy_eq_ok_iff.1 hread
    have hother : ¬ (id' = id ∧ y = x) := by
      rintro ⟨rfl, rfl⟩
      exact hmiss ⟨hid', rfl⟩
    exact readBy_eq_ok_iff.2 ⟨id', hpicked.trans hid', (h.others id' y hother).trans hu⟩
  | error e =>
    obtain ⟨hunbound, rfl⟩ := readBy_eq_error_iff.1 hread
    refine readBy_eq_error_iff.2 ⟨?_, rfl⟩
    intro id' hid'
    rw [h.binds_iff]
    exact hunbound id' (hpicked.symm.trans hid')

end Overwritten

/-! ## The laws -/

/-- By name, reading and writing act at the least distance where the name is bound. By name and at a
distance, they succeed on the same binding or fail with the same error. A write that succeeds
changes this binding only, and it shows in exactly those reads, through any environment, that pick
the same scope for the same name. A write that fails changes nothing. -/
theorem reads_and_writes_agree (σ : Store) (env : Env) (x : String) (v : Value) (line : Nat) :
    (∀ k, IsLeast {k | σ.BindsAt env k x} k →
      σ.nearest? env x = env[k]? ∧
      σ.get env x line = σ.getAt env k x line ∧
      σ.assign env x v line = σ.assignAt env k x v line) ∧
    ∀ access : Access,
      (∀ u, σ.readBy env x line access = .ok u ↔
        ∃ id, σ.picked? env x access = some id ∧ σ.find? id x = some u) ∧
      (∀ e, σ.readBy env x line access = .error e ↔
        (∀ id, σ.picked? env x access = some id → ¬ σ.Binds id x) ∧
          e = access.failure env x line) ∧
      ((σ.writeBy env x v line access).1 = .ok () ↔ ∃ u, σ.readBy env x line access = .ok u) ∧
      (∀ e, (σ.writeBy env x v line access).1 = .error e ↔
        σ.readBy env x line access = .error e) ∧
      (∀ τ, σ.writeBy env x v line access = (.ok (), τ) →
        ∃ id, σ.picked? env x access = some id ∧ σ.Overwritten id x v τ ∧
          ∀ env' y line' access',
            (σ.picked? env' y access' = some id ∧ y = x →
              τ.readBy env' y line' access' = .ok v) ∧
            (¬ (σ.picked? env' y access' = some id ∧ y = x) →
              τ.readBy env' y line' access' = σ.readBy env' y line' access')) ∧
      ∀ e τ, σ.writeBy env x v line access = (.error e, τ) → τ = σ := by
  constructor
  · intro k hk
    obtain ⟨id, hnearest, hid⟩ := nearest?_of_isLeast hk
    exact ⟨hnearest.trans hid.symm, get_eq_getAt hk line, assign_eq_assignAt hk v line⟩
  intro access
  refine ⟨fun u => readBy_eq_ok_iff, fun e => readBy_eq_error_iff, ?_⟩
  rcases σ.access_cases env x v line access with
    ⟨hread, hwrite, -⟩ | ⟨id, u, hpicked, hu, hread, hwrite⟩
  · rw [hread, hwrite]
    refine ⟨by simp, by simp, ?_, ?_⟩
    · intro τ h
      cases h
    · intro e τ h
      cases h
      rfl
  · rw [hread, hwrite]
    refine ⟨by simp, by simp, ?_, ?_⟩
    · intro τ h
      cases h
      have hover := overwritten_put (binds_of_find? hu) v
      refine ⟨id, hpicked, hover, ?_⟩
      intro env' y line' access'
      refine ⟨?_, fun hmiss => hover.readBy_miss hmiss line'⟩
      rintro ⟨hhit, rfl⟩
      exact hover.readBy_hit hhit line'
    · intro e τ h
      cases h

/-- Two blocks in a scope that shadows a global name: a write through one of them shows through the
other, and not in reads that pass the scope by. -/
theorem reads_and_writes_agree_shadowed :
    let σ : Store := ⟨#[.single "x" .nil, .single "x" (.bool false), .empty, .empty], #[], 0⟩
    IsLeast {k | σ.BindsAt [2, 1, 0] k "x"} 1 ∧
    σ.get [2, 1, 0] "x" 7 = σ.getAt [2, 1, 0] 1 "x" 7 ∧
    (∃ τ, σ.assign [2, 1, 0] "x" (.bool true) 7 = (.ok (), τ) ∧
      τ.get [3, 1, 0] "x" 8 = .ok (.bool true) ∧
      τ.getAt [3, 1, 0] 2 "x" 8 = σ.getAt [3, 1, 0] 2 "x" 8) ∧
    ∃ e τ, σ.assignAt [2, 1, 0] 3 "x" (.bool true) 7 = (.error e, τ) ∧ τ = σ := by
  intro σ
  have hleast : IsLeast {k | σ.BindsAt [2, 1, 0] k "x"} 1 := by
    refine ⟨⟨1, rfl, rfl⟩, ?_⟩
    rintro (_ | k) ⟨id, hid, hbinds⟩
    · cases hid
      cases hbinds
    · exact Nat.succ_pos k
  obtain ⟨hnearest, haccess⟩ := σ.reads_and_writes_agree [2, 1, 0] "x" (.bool true) 7
  obtain ⟨-, -, -, -, hdone, -⟩ := haccess .byName
  obtain ⟨-, -, -, -, -, hfailed⟩ := haccess (.atDistance 3)
  refine ⟨hleast, (hnearest 1 hleast).2.1, ⟨_, rfl, ?_⟩, _, _, rfl, hfailed _ _ rfl⟩
  obtain ⟨id, hpicked, -, hreads⟩ := hdone _ rfl
  obtain rfl : 1 = id := Option.some.inj hpicked
  refine ⟨(hreads [3, 1, 0] "x" 8 .byName).1 ⟨rfl, rfl⟩, ?_⟩
  apply (hreads [3, 1, 0] "x" 8 (.atDistance 2)).2
  rintro ⟨hpicked', -⟩
  cases hpicked'

end Store

end Lox
