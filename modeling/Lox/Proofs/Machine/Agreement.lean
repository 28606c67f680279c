import Lox.Proofs.Machine.Places
import Mathlib.Data.List.Forall2

/-!
# Machines that agree with the resolver

A machine agrees if the expression or statement it is about to work on is what the resolver made of
a site of an accepted program, the scopes in force are those of the site, and its frames wait as
the resolver expects. This module holds the notion and what the actions of a world do to it.
-/

set_option autoImplicit false

namespace Lox

open Scoping ResolveM

/-- Whether an internal error is among those reported. -/
def Error.isInternal (e : Error) : Bool :=
  e.members.any fun
    | .internal _ => true
    | _ => false

namespace World

/-- The store fits what its scopes were made for. -/
structure Ready (C : Corpus) (shapes : Shapes) (w : World) : Prop where
  typed : w.store.Typed C shapes
  definite : w.store.Definite shapes

/-- The world is at a place with these scopes and this knowledge. -/
structure At (C : Corpus) (shapes : Shapes) (os : List ScopeOrigin) (r : Scoping) (w : World) : Prop
    extends Ready C shapes w where
  here : Here shapes w.store ⟨os, r, w.env⟩

end World

/-- The completion is one of those that may occur. -/
def Completion.Permitted (C : Corpus) (shapes : Shapes) (mayBreak mayReturn : Bool) :
    Completion → Prop
  | .normal => True
  | .broken => mayBreak = true
  | .returned v => mayReturn = true ∧ ValueFits C shapes v

/-- What a machine does next was resolved for the place where it is. -/
inductive Agrees (C : Corpus) (shapes : Shapes) : Machine → Prop where
  | evaluate {os : List ScopeOrigin} {r : Scoping} {e : Expr} {frames : List Frame} {w : World} :
      w.At C shapes os r → KnownIn C ⟨os, r, .expr e⟩ →
      Waits C shapes w.store ⟨os, r, w.env⟩ .value frames →
      Agrees C shapes ⟨.evaluate (e.resolve.outcome r), frames, w⟩
  | execute {os : List ScopeOrigin} {r : Scoping} {s : Stmt} {frames : List Frame} {w : World}
      {b c : Bool} :
      w.At C shapes os r → KnownIn C ⟨os, r, .stmt s⟩ → Allows r b c →
      Waits C shapes w.store ⟨os, s.resolve.after r, w.env⟩ (.completion b c) frames →
      Agrees C shapes ⟨.execute (s.resolve.outcome r), frames, w⟩
  | value {os : List ScopeOrigin} {r : Scoping} {v : Value} {frames : List Frame} {w : World} :
      w.At C shapes os r → ValueFits C shapes v →
      Waits C shapes w.store ⟨os, r, w.env⟩ .value frames → Agrees C shapes ⟨.value v, frames, w⟩
  | completed {os : List ScopeOrigin} {r : Scoping} {k : Completion} {frames : List Frame}
      {w : World} {b c : Bool} :
      w.At C shapes os r → k.Permitted C shapes b c →
      Waits C shapes w.store ⟨os, r, w.env⟩ (.completion b c) frames →
      Agrees C shapes ⟨.completed k, frames, w⟩
  | failed {e : Error} {frames : List Frame} {w : World} :
      w.Ready C shapes → e.isInternal = false → Agrees C shapes ⟨.failed e, frames, w⟩

theorem Agrees.ready {C : Corpus} {shapes : Shapes} {m : Machine} (h : Agrees C shapes m) :
    m.world.Ready C shapes := by
  cases h with
  | evaluate hat | execute hat | value hat | completed hat => exact hat.toReady
  | failed hready => exact hready

/-- A machine that agrees, with nothing lost from an earlier store. -/
def Advances (C : Corpus) (shapes : Shapes) (σ : Store) (m : Machine) : Prop :=
  ∃ shapes', Extends shapes σ shapes' m.world.store ∧ Agrees C shapes' m

theorem Advances.stay {C : Corpus} {shapes : Shapes} {focus : Focus} {frames : List Frame}
    {w : World} (h : Agrees C shapes ⟨focus, frames, w⟩) :
    Advances C shapes w.store ⟨focus, frames, w⟩ :=
  ⟨shapes, .refl _ _, h⟩

theorem Advances.after {C : Corpus} {shapes shapes' : Shapes} {σ σ' : Store} {m : Machine}
    (hextends : Extends shapes σ shapes' σ') (h : Advances C shapes' σ' m) :
    Advances C shapes σ m := by
  obtain ⟨shapes'', hextends', hagrees⟩ := h
  exact ⟨shapes'', hextends.trans hextends', hagrees⟩

/-- A machine that agrees once the causes have made their scopes, each for an origin of its own. -/
def AdvancesBy (C : Corpus) (shapes : Shapes) (σ : Store) (causes : Causes) (m : Machine) : Prop :=
  ∃ more, Extends shapes σ (shapes ++ more) m.world.store ∧ Agrees C (shapes ++ more) m ∧
    List.Forall₂ (Cause.Serves C (shapes ++ more)) causes more

namespace AdvancesBy

variable {C : Corpus} {shapes : Shapes} {σ σ' : Store} {causes : Causes} {m : Machine}

theorem advances (h : AdvancesBy C shapes σ causes m) : Advances C shapes σ m := by
  obtain ⟨more, hextends, hagrees, -⟩ := h
  exact ⟨shapes ++ more, hextends, hagrees⟩

theorem quiet (hextends : Extends shapes σ shapes m.world.store) (h : Agrees C shapes m) :
    AdvancesBy C shapes σ [] m := by
  refine ⟨[], ?_, ?_, .nil⟩
  · rwa [List.append_nil]
  · rwa [List.append_nil]

theorem stay {focus : Focus} {frames : List Frame} {w : World}
    (h : Agrees C shapes ⟨focus, frames, w⟩) :
    AdvancesBy C shapes w.store [] ⟨focus, frames, w⟩ :=
  quiet (.refl _ _) h

theorem after (hextends : Extends shapes σ shapes σ') (h : AdvancesBy C shapes σ' causes m) :
    AdvancesBy C shapes σ causes m := by
  obtain ⟨more, hextends', hagrees, hserves⟩ := h
  exact ⟨more, hextends.trans hextends', hagrees, hserves⟩

/-- One scope is made before the others. -/
theorem cons {cause : Cause} {o : ScopeOrigin} (hextends : Extends shapes σ (shapes ++ [o]) σ')
    (hcause : cause.Serves C (shapes ++ [o]) o) (h : AdvancesBy C (shapes ++ [o]) σ' causes m) :
    AdvancesBy C shapes σ (cause :: causes) m := by
  obtain ⟨more, hextends', hagrees, hserves⟩ := h
  have hshapes : shapes ++ [o] ++ more = shapes ++ o :: more := List.append_assoc _ _ _
  rw [hshapes] at hextends' hagrees hserves
  exact ⟨o :: more, hextends.trans hextends', hagrees,
    .cons (hcause.mono hextends'.shapes) hserves⟩

end AdvancesBy

/-- The computation yields a value that fits, or fails for a reason of its own. -/
def ResultFits (C : Corpus) (shapes : Shapes) : Except Error Value → Prop
  | .ok v => ValueFits C shapes v
  | .error e => e.isInternal = false

theorem advances_ofResult {C : Corpus} {shapes : Shapes} {os : List ScopeOrigin} {r : Scoping}
    {frames : List Frame} {w : World} {result : Except Error Value} (hat : w.At C shapes os r)
    (hresult : ResultFits C shapes result)
    (hwaits : Waits C shapes w.store ⟨os, r, w.env⟩ .value frames) :
    Advances C shapes w.store (Machine.ofResult result frames w) := by
  cases result with
  | ok v => exact .stay (.value hat hresult hwaits)
  | error e => exact .stay (.failed hat.toReady hresult)

theorem Store.get_top (σ : Store) (x : String) (line : Nat) :
    σ.get World.topEnv x line =
      match σ.find? 0 x with
      | some v => .ok v
      | none => .error (undefined x line) := rfl

theorem World.read_eq_ok {w : World} {d : Nat} {id : ScopeId} {x : String} {v : Value} {line : Nat}
    (hid : w.env[d]? = some id) (hv : w.store.find? id x = some v) :
    w.read x line (some (.atDistance d)) = .ok v := by
  simp only [read, Store.getAt, hid, hv]

/-- An occurrence at a distance is looked up in a scope that is in force. -/
theorem World.At.scope_of_binding {C : Corpus} {shapes : Shapes} {os : List ScopeOrigin}
    {r : Scoping} {w : World} {node : Node} {d : Nat} {x : String} (hat : w.At C shapes os r)
    (hknown : KnownIn C ⟨os, r, node⟩) (hd : r.binding x = .atDistance d) :
    ∃ id o, w.env[d]? = some id ∧ shapes.origin? id = some o ∧ os[d]? = some o ∧ x ∈ o.names := by
  obtain ⟨o, ho, hx⟩ := hknown.declared (shows_of_visible? (visible?_of_binding hd))
  obtain ⟨id, hid, horigin⟩ := hat.here.fits.get? ho
  exact ⟨id, o, hid, horigin, ho, hx⟩

/-- Looking up an occurrence yields a value of the store or finds nothing. -/
theorem World.At.read_cases {C : Corpus} {shapes : Shapes} {os : List ScopeOrigin} {r : Scoping}
    {w : World} {node : Node} (hat : w.At C shapes os r) (hknown : KnownIn C ⟨os, r, node⟩)
    (x : String) (line : Nat) :
    (∃ id v, w.store.find? id x = some v ∧ w.read x line (some (r.binding x)) = .ok v) ∨
      w.read x line (some (r.binding x)) = .error (Store.undefined x line) := by
  cases hbinding : r.binding x with
  | atTop =>
    rw [World.read, Store.get_top]
    cases hfind : w.store.find? 0 x with
    | none => exact Or.inr rfl
    | some v => exact Or.inl ⟨0, v, hfind, rfl⟩
  | atDistance d =>
    obtain ⟨id, o, hid, -⟩ := hat.scope_of_binding hknown hbinding
    simp only [World.read, Store.getAt, hid]
    cases hfind : w.store.find? id x with
    | none => exact Or.inr rfl
    | some v => exact Or.inl ⟨id, v, hfind, rfl⟩


namespace World

theorem defineFunctions_cons {s : Stmt} (hs : s.isFunction = false) (rest : List Stmt) (w : World) :
    w.defineFunctions (s :: rest) = w.defineFunctions rest := by
  cases s with
  | function decl => cases hs
  | _ => rfl

variable {C : Corpus} {shapes shapes' : Shapes} {os : List ScopeOrigin} {r : Scoping} {w w' : World}

theorem At.extend (h : w.At C shapes os r) (hready : w'.Ready C shapes')
    (hextends : Extends shapes w.store shapes' w'.store) (henv : w'.env = w.env) :
    w'.At C shapes' os r :=
  ⟨hready, henv ▸ hextends.here h.here⟩

theorem At.newId (h : w.At C shapes os r) :
    Extends shapes w.store shapes w.newId.2.store ∧ w.newId.2.At C shapes os r := by
  have hextends : Extends shapes w.store shapes w.newId.2.store := .of_grows fun _ _ hx => hx
  exact ⟨hextends, h.extend ⟨h.typed.newId, h.definite⟩ hextends rfl⟩

theorem At.functionFits {decl : FunDecl} (h : w.At C shapes os r)
    (hknown : KnownIn C ⟨os, r, .function decl⟩) :
    FunctionFits C shapes ⟨decl.resolve.outcome r, w.env, false⟩ :=
  ⟨os, r, decl, hknown, rfl, h.here.fits, by simp⟩

theorem store_define {id : ScopeId} (hid : w.env[0]? = some id) (x : String) (v : Value) :
    (w.define x v).store = w.store.put id x v := by
  show w.store.define w.env x v = _
  cases henv : w.env with
  | nil =>
    rw [henv] at hid
    cases hid
  | cons id' outer =>
    rw [henv] at hid
    cases hid
    rfl

/-- A name is bound in the innermost scope in force, where it is declared. -/
theorem define_fits {x : String} {v : Value} (htyped : w.store.Typed C shapes)
    (hfits : Fits shapes w.env os) (hv : ValueFits C shapes v) (hx : DeclaredIn C os x) :
    (w.define x v).store.Typed C shapes ∧ w.store.Grows (w.define x v).store ∧
      ∃ id, w.env[0]? = some id ∧ (w.define x v).store.Binds id x := by
  obtain ⟨id, hid, horigin, htop⟩ := hfits.innermost
  rw [store_define hid]
  refine ⟨?_, Store.grows_put _ _ _ _, id, hid, ?_⟩
  · apply htyped.put hv
    · intro o ho
      exact ⟨hx.inner o (horigin o ho), hx.plain⟩
    · exact fun hid => hx.top (htop hid)
  · exact Store.binds_put (htyped.size_of_innermost hfits hid)

theorem defineFunction_fits {decl : FunDecl} (htyped : w.store.Typed C shapes)
    (hfits : Fits shapes w.env os) (hknown : KnownIn C ⟨os, r, .function decl⟩)
    (hname : ∀ name ∈ decl.name, DeclaredIn C os name.name) :
    (w.defineFunction (decl.resolve.outcome r)).store.Typed C shapes ∧
      w.store.Grows (w.defineFunction (decl.resolve.outcome r)).store ∧
      ∀ name ∈ decl.name, ∃ id, w.env[0]? = some id ∧
        (w.defineFunction (decl.resolve.outcome r)).store.Binds id name.name := by
  obtain ⟨name, params, body, line⟩ := decl
  cases name with
  | none => exact ⟨htyped, .refl _, by simp⟩
  | some name =>
    have hclosure : FunctionFits C shapes
        ⟨(FunDecl.resolve ⟨some name, params, body, line⟩).outcome r, w.env, false⟩ :=
      ⟨os, r, _, hknown, rfl, hfits, by simp⟩
    obtain ⟨htyped', hgrows, hbinds⟩ := define_fits (w := w.newId.2)
      (v := .function w.newId.1 _) htyped.newId hfits hclosure (hname name rfl)
    refine ⟨htyped', hgrows, ?_⟩
    intro name' hname'
    obtain rfl := Option.some.inj hname'
    exact hbinds

/-- The functions of a body are bound in the innermost scope in force. -/
theorem defineFunctions_fits {body : List Stmt} {o : ScopeOrigin}
    (htyped : w.store.Typed C shapes) (hfits : Fits shapes w.env (o :: os))
    (hknown : KnownIn C ⟨o :: os, r, .body body⟩) (hnames : functionNames body ⊆ o.names) :
    (w.defineFunctions ((resolveBody body).outcome r)).store.Typed C shapes ∧
      w.store.Grows (w.defineFunctions ((resolveBody body).outcome r)).store ∧
      ∀ x ∈ functionNames body, ∃ id, w.env[0]? = some id ∧
        (w.defineFunctions ((resolveBody body).outcome r)).store.Binds id x := by
  induction body generalizing r w with
  | nil => exact ⟨htyped, .refl _, by simp [functionNames]⟩
  | cons s rest ih =>
    cases hknown.proper.regular with
    | @bodyFunction decl _ hplain _ _ =>
      obtain ⟨hdecl, hrest, houtcome⟩ := hknown.body_function
      rw [houtcome]
      obtain ⟨hnames₁, hnames₂⟩ := List.append_subset.1 hnames
      obtain ⟨htyped₁, hgrows₁, hbinds₁⟩ := defineFunction_fits htyped hfits hdecl
        fun name hname => ⟨hplain name hname, fun o' ho' => by
          obtain rfl := Option.some.inj ho'
          exact hnames₁ (List.mem_map_of_mem (Option.mem_toList.2 hname)), by simp⟩
      have henv : (w.defineFunction (decl.resolve.outcome r)).env = w.env := env_defineFunction _ _
      obtain ⟨htyped₂, hgrows₂, hbinds₂⟩ :=
        ih (w := w.defineFunction (decl.resolve.outcome r)) htyped₁ (by rw [henv]; exact hfits) hrest
          hnames₂
      refine ⟨htyped₂, hgrows₁.trans hgrows₂, ?_⟩
      intro x hx
      rcases List.mem_append.1 hx with hx | hx
      · obtain ⟨name, hname, rfl⟩ := List.mem_map.1 hx
        obtain ⟨id, hid, hbinds⟩ := hbinds₁ name (Option.mem_toList.1 hname)
        exact ⟨id, hid, hgrows₂ _ _ hbinds⟩
      · obtain ⟨id, hid, hbinds⟩ := hbinds₂ x hx
        exact ⟨id, henv ▸ hid, hbinds⟩
    | bodyStmt hs _ _ =>
      obtain ⟨-, hrest, houtcome⟩ := hknown.body_stmt hs
      rw [functionNames_cons hs] at hnames ⊢
      rw [houtcome, defineFunctions_cons (by rw [Stmt.isFunction_resolve, hs])]
      exact ih htyped hfits hrest hnames

end World

end Lox
