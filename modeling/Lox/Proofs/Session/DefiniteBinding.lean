import Lox.Proofs.Machine.Environments
import Lox.Proofs.Session.Scopes

/-!
# Definite binding of local names

A name that is looked up at a distance is missing only if a function was called before the
declaration of the variable or class completed in the scope that is meant. What has been declared
and which scopes were made by calls is told by the history of a session.
-/

set_option autoImplicit false

namespace Lox

open Scoping ResolveM

/-! ## Lookups and declarations -/

namespace Machine

/-- The name that the next step looks up, with its slot. -/
def lookup? : Machine → Option (String × Slot)
  | ⟨.evaluate (.variable name slot), _, _⟩ => some (name.name, slot)
  | ⟨.evaluate (.this _ slot), _, _⟩ => some ("this", slot)
  | ⟨.evaluate (.super _ _ slot), _, _⟩ => some ("super", slot)
  | ⟨.value _, .assign name slot :: _, _⟩ => some (name.name, slot)
  | _ => none

/-- The next step looks up the name that this expression stands for: the machine is about to evaluate
the expression, or has the value that the expression assigns. -/
def LooksUp (m : Machine) (r : Scoping) (e : Expr) : Prop :=
  m.focus = .evaluate (e.resolve.outcome r) ∨
    ∃ v name value slot frames, m.focus = .value v ∧ e = .assign name value slot ∧
      m.frames = .assign name (some (r.binding name.name)) :: frames

/-- The name that was not found, if the machine failed for want of it. -/
def missing? (m : Machine) : Option String :=
  match m.focus with
  | .failed (.runtime (.undefinedVariable x) _) => some x
  | _ => none

/-- The name of the variable or class whose declaration the next step completes. -/
def completes? : Machine → Option String
  | ⟨.execute (.var name none), _, _⟩ => some name.name
  | ⟨.value _, .define name :: _, _⟩ => some name.name
  | ⟨.execute (.classDecl name none _), _, _⟩ => some name.name
  | ⟨.value (.classRef _), .inherit name _ _ :: _, _⟩ => some name.name
  | _ => none

/-- The next step completes the declaration of the name in the scope. -/
def Declares (m : Machine) (id : ScopeId) (x : String) : Prop :=
  m.completes? = some x ∧ m.world.env[0]? = some id

end Machine

/-- A call has made one of the scopes inside the one at this distance. -/
def Causes.CallWithin (causes : Causes) (env : Env) (d : Nat) : Prop :=
  ∃ id ∈ env.take d, ∃ closure, causes.cause? id = some (.call closure)

/-! ## What has been declared is bound -/

theorem Store.grows_assign (σ : Store) (env : Env) (x : String) (v : Value) (line : Nat) :
    σ.Grows (σ.assign env x v line).2 :=
  writeBy_keeps σ.Grows (.refl σ) (fun id _ => grows_put σ id x v) env line .byName

namespace Machine

theorem grows_finishClass (name : Ident) (env : Env) (inherited : List Layer)
    (methods : List FunDecl) (frames : List Frame) (w : World) :
    w.store.Grows (finishClass name env inherited methods frames w).world.store := by
  simp only [finishClass]
  split
  · exact Store.grows_assign w.newId.2.store _ _ _ _
  · exact Store.grows_assign w.newId.2.store _ _ _ _

theorem grows_makeClass (name : Ident) (superclass : Option Class) (methods : List FunDecl)
    (frames : List Frame) (w : World) :
    (w.define name.name .nil).store.Grows
      (makeClass name superclass methods frames w).world.store := by
  cases superclass with
  | none =>
    rw [makeClass_none]
    exact grows_finishClass _ _ _ _ _ _
  | some parent =>
    rw [makeClass_some]
    refine .trans ?_ (grows_finishClass _ _ _ _ _ _)
    exact Store.grows_newScope _ _

end Machine

namespace Agrees

variable {C : Corpus} {shapes : Shapes} {m : Machine}

theorem place (h : Agrees C shapes m) (hfocus : ∀ e, m.focus ≠ .failed e) :
    ∃ os r, m.world.At C shapes os r := by
  cases h with
  | evaluate hat | execute hat | value hat | completed hat => exact ⟨_, _, hat⟩
  | failed => exact absurd rfl (hfocus _)

/-- A name that is declared is bound from the next step on. -/
theorem binds_step {id : ScopeId} {x : String} (h : Agrees C shapes m) (hm : m.Declares id x) :
    m.step.world.store.Binds id x := by
  obtain ⟨hx, hid⟩ := hm
  have hdefine (hfocus : ∀ e, m.focus ≠ .failed e) (v : Value) :
      (m.world.define x v).store.Binds id x := by
    obtain ⟨os, r, hat⟩ := h.place hfocus
    rw [World.store_define hid]
    exact Store.binds_put (hat.typed.size_of_innermost hat.here.fits hid)
  unfold Machine.completes? at hx
  split at hx
  · cases hx
    exact hdefine (by simp) .nil
  · cases hx
    exact hdefine (by simp) _
  · cases hx
    exact Machine.grows_makeClass _ none _ _ _ _ _ (hdefine (by simp) .nil)
  · cases hx
    exact Machine.grows_makeClass _ (some _) _ _ _ _ _ (hdefine (by simp) .nil)
  · cases hx

end Agrees

/-- All that was declared by these machines is bound. -/
def Store.Remembers (σ : Store) (past : List Machine) : Prop :=
  ∀ m ∈ past, ∀ id x, m.Declares id x → σ.Binds id x

namespace Store.Remembers

variable {σ σ' : Store} {past past' : List Machine}

theorem mono (h : σ.Remembers past) (hgrows : σ.Grows σ') : σ'.Remembers past :=
  fun m hm id x hx => hgrows id x (h m hm id x hx)

theorem append (h : σ.Remembers past) (h' : σ.Remembers past') : σ.Remembers (past ++ past') := by
  intro m hm
  rcases List.mem_append.1 hm with hm | hm
  · exact h m hm
  · exact h' m hm

end Store.Remembers

theorem Agrees.remembers_moments {C : Corpus} {shapes : Shapes} {m : Machine}
    (h : Agrees C shapes m) (n : Nat) :
    (m.after n).world.store.Remembers (m.moments n) := by
  induction n with
  | zero =>
    intro m₀ hm₀
    cases hm₀
  | succ n ih =>
    obtain ⟨shapes', -, hagrees⟩ := Machine.advances_after h n
    obtain ⟨_, hextends, -⟩ := Machine.advances_step hagrees
    refine (ih.mono hextends.grows).append ?_
    intro m₀ hm₀ id x hx
    obtain rfl := List.mem_singleton.1 hm₀
    exact hagrees.binds_step hx

namespace Session

variable {s : Session} {past : List Machine}

/-- In the course of a task, what the session and the task have declared is bound. -/
theorem remembers_task {shapes : Shapes} {request : Request} {source : String} {task : Task}
    (hready : s.Ready AnyProgram shapes) (henv : s.env = World.topEnv)
    (hpast : s.store.Remembers past) (htask : request.task source = .ok task) (n : Nat) :
    ((task.start s).after n).world.store.Remembers (past ++ (task.start s).moments n) := by
  obtain ⟨_, hextends, -⟩ := advances_task hready henv htask n
  have hagrees := (Request.prepared (fun _ _ => trivial) htask).agrees_start hready henv
  exact (hpast.mono hextends.grows).append (hagrees.remembers_moments n)

theorem Recorded.remembers {texts : List String} (h : s.Recorded texts past) :
    s.store.Remembers past := by
  induction h with
  | new sink reading =>
    intro m hm
    cases hm
  | @performed s texts past request source task n hs htask _ ih =>
    obtain ⟨henv, -, shapes, hready, -⟩ :=
      hs.settled (C := AnyProgram) (fun _ _ _ _ => trivial) fun _ => trivial
    exact remembers_task hready henv ih htask n
  | limited maxDepth _ ih => exact ih
  | provided native _ ih => exact ih.mono (Store.grows_put _ _ _ _)

end Session

theorem Machine.Occurs.remembers {texts : List String} {past : List Machine} {m : Machine}
    (h : m.Occurs texts past) : m.world.store.Remembers past := by
  obtain ⟨s, earlier, before, request, source, task, n, hs, htask, -, rfl, rfl⟩ := h
  obtain ⟨henv, -, shapes, hready, -⟩ :=
    hs.settled (C := AnyProgram) (fun _ _ _ _ => trivial) fun _ => trivial
  exact Session.remembers_task hready henv hs.remembers htask n

/-! ## Lookups -/

theorem World.missing?_read {w : World} {d : Nat} {id : ScopeId} {x : String} {line : Nat}
    {frames : List Frame} (hid : w.env[d]? = some id) :
    (w.store.Binds id x →
        (Machine.ofResult (w.read x line (some (.atDistance d))) frames w).missing? = none) ∧
      (¬ w.store.Binds id x →
        (Machine.ofResult (w.read x line (some (.atDistance d))) frames w).missing? = some x) := by
  simp only [read, Store.getAt, hid, Store.Binds]
  cases hv : w.store.find? id x with
  | some v => simp [Machine.ofResult, Machine.missing?]
  | none => simp [Machine.ofResult, Machine.missing?, Store.undefined]

theorem Store.binds_of_getAt {σ : Store} {env : Env} {d : Nat} {id : ScopeId} {x : String}
    {line : Nat} {v : Value} (hid : env[d]? = some id) (h : σ.getAt env d x line = .ok v) :
    σ.Binds id x := by
  rw [getAt, hid] at h
  rw [Binds]
  cases hv : σ.find? id x with
  | some u => rfl
  | none =>
    simp only [hv] at h
    cases h

namespace Agrees

variable {C : Corpus} {shapes : Shapes} {m : Machine} {x : String} {slot : Slot}

/-- What is looked up is the name of an occurrence, where the resolver found it. -/
theorem lookup_site (h : Agrees C shapes m) (hx : m.lookup? = some (x, slot)) :
    ∃ os r e, m.world.At C shapes os r ∧ KnownIn C ⟨os, r, .expr e⟩ ∧
      Waits C shapes m.world.store ⟨os, r, m.world.env⟩ .value m.frames ∧ m.LooksUp r e ∧
      (∃ slot₀, e.occurrence? = some (x, slot₀)) ∧ slot = some (r.binding x) := by
  cases h with
  | @evaluate os r e frames w hat hknown hwaits =>
    have hoccurrence : (e.resolve.outcome r).occurrence? = some (x, slot) := by
      generalize e.resolve.outcome r = e' at hx
      cases e' with
      | «variable» | this | super => exact hx
      | _ => cases hx
    obtain ⟨hslot, hname⟩ := hknown.occurrence hoccurrence
    exact ⟨os, r, e, hat, hknown, hwaits, Or.inl rfl, hname, hslot⟩
  | execute => cases hx
  | @value os r v frames w hat _ hwaits =>
    cases frames with
    | nil => cases hx
    | cons frame frames =>
      have hall := hwaits
      cases hwaits with
      | @assign _ _ _ name value slot₀ _ hknown _ =>
        cases hx
        exact ⟨os, r, _, hat, hknown, hall, Or.inr ⟨v, name, value, slot₀, frames, rfl, rfl, rfl⟩,
          ⟨slot₀, rfl⟩, rfl⟩
      | _ => cases hx
  | completed => cases hx
  | failed => cases hx

theorem superParts_isOk {line : Nat} {method : Ident} (h : Agrees C shapes m)
    (he : m.focus = .evaluate (.super line method slot)) :
    ∃ cls receiver, Machine.superParts line slot m.world = .ok (cls, receiver) := by
  cases h with
  | evaluate hat hknown _ =>
    obtain ⟨d, rfl, hsuper, hthis⟩ := hknown.of_super (Focus.evaluate.inj he)
    obtain ⟨cls, id, own, hparts, -⟩ := Machine.superParts_eq line hat hsuper hthis
    exact ⟨cls, .object id own, hparts⟩
  | _ => cases he

/-- A bound name is found, and a name that is not bound is missing. -/
theorem missing?_step {d : Nat} {id : ScopeId} (h : Agrees C shapes m)
    (hx : m.lookup? = some (x, some (.atDistance d))) (hid : m.world.env[d]? = some id) :
    (m.world.store.Binds id x → m.step.missing? = none) ∧
      (¬ m.world.store.Binds id x → m.step.missing? = some x) := by
  unfold Machine.lookup? at hx
  split at hx
  · rename_i name slot frames w
    cases hx
    show (_ → (Machine.ofResult (w.read name.name name.line _) frames w).missing? = _) ∧
      (_ → (Machine.ofResult (w.read name.name name.line _) frames w).missing? = _)
    exact World.missing?_read hid
  · rename_i line slot frames w
    cases hx
    show (_ → (Machine.ofResult (w.read "this" line _) frames w).missing? = _) ∧
      (_ → (Machine.ofResult (w.read "this" line _) frames w).missing? = _)
    exact World.missing?_read hid
  · rename_i line method slot frames w
    cases hx
    obtain ⟨cls, receiver, hparts⟩ := h.superParts_isOk rfl
    refine ⟨fun _ => ?_, fun hbinds => absurd ?_ hbinds⟩
    · show (Machine.evaluateSuper line method _ frames w).missing? = none
      simp only [Machine.evaluateSuper, hparts]
      split
      · rfl
      · rfl
    · obtain ⟨d', hslot, hsuper, -⟩ := Machine.superParts_eq_ok hparts
      obtain rfl : d = d' + 1 := by simpa using hslot
      exact Store.binds_of_getAt hid hsuper
  · rename_i u name slot frames w
    cases hx
    show (_ → (Machine.passValue u (.assign name (some (.atDistance d))) frames w).missing? = _) ∧
      (_ → (Machine.passValue u (.assign name (some (.atDistance d))) frames w).missing? = _)
    simp only [Machine.passValue, World.assign, Store.assignAt, hid, Store.Binds]
    cases hv : w.store.find? id name.name with
    | some v => simp [Machine.missing?]
    | none => simp [Machine.missing?, Store.undefined, Machine.failing]
  · cases hx

end Agrees

/-- Where the resolver knows of a function, there was a call. -/
theorem Opened.callWithin {C : Corpus} {causes : Causes} {env : Env} {os : List ScopeOrigin}
    {d : Nat} (h : Opened C causes env os) (hlength : env.length = os.length + 1)
    (hf : ∃ f ∈ os.take d, f.isFunction = true) : causes.CallWithin env d := by
  obtain ⟨f, hmem, hfunction⟩ := hf
  obtain ⟨j, hj, rfl⟩ := List.mem_take_iff_getElem.1 hmem
  have hlt : j < env.length := by omega
  obtain ⟨cause, hcause, hopens, -⟩ :=
    h.get? (List.getElem?_eq_getElem hlt) (List.getElem?_eq_getElem (by omega))
  refine ⟨env[j], List.mem_take_iff_getElem.2 ⟨j, by omega, rfl⟩, ?_⟩
  generalize os[j] = f at hopens hfunction
  cases hopens with
  | call => exact ⟨_, hcause⟩
  | _ => cases hfunction

/-- A lookup at a distance is at an occurrence in a program handed over, and the scope that is meant
was made for the one that the resolver found the name in. The lookup fails only if the name is that
of a variable or class, the scope is outside the function that was called, and the declaration has
not completed in that scope. Within the activation, no lookup fails. -/
theorem missing_local_awaits_declaration {texts : List String} {past : List Machine} {m : Machine}
    {x : String} {d : Nat} (hm : m.Occurs texts past)
    (hx : m.lookup? = some (x, some (.atDistance d))) :
    ∃ os r e id o cause, m.StandsAt (.handed texts) (causesOf past) ⟨os, r, .expr e⟩ ∧
      m.LooksUp r e ∧ (∃ slot, e.occurrence? = some (x, slot)) ∧ r.binding x = .atDistance d ∧
      m.world.env[d]? = some id ∧ os[d]? = some o ∧
      (causesOf past).cause? id = some cause ∧ cause.Opens (.handed texts) o (os.drop (d + 1)) ∧
      (¬ (causesOf past).CallWithin m.world.env d → m.step.missing? = none) ∧
      (m.step.missing? ≠ none →
        m.step.missing? = some x ∧ (x ∈ o.introduced ∧ x ∉ o.definite) ∧
          (∃ f ∈ os.take d, f.isFunction = true) ∧ (causesOf past).CallWithin m.world.env d ∧
          ∀ m₀ ∈ past, ¬ m₀.Declares id x) := by
  obtain ⟨shapes, hagrees, htraced, hserves⟩ := hm.placed
  obtain ⟨os, r, e, hat, hknown, hwaits, hlooks, hname, hslot⟩ := hagrees.lookup_site hx
  have hfocus : ∀ e, m.focus ≠ .failed e := by
    rcases hlooks with hfocus | ⟨_, _, _, _, _, hfocus, -⟩
    · simp [hfocus]
    · simp [hfocus]
  have hstands := hat.standsAt hknown hwaits htraced hfocus hserves
  have hbinding : r.binding x = .atDistance d := (Option.some.inj hslot).symm
  obtain ⟨id, o, hid, horigin, ho, hmem⟩ := hat.scope_of_binding hknown hbinding
  obtain ⟨cause, hcause, hopens, -⟩ := hstands.opened.get? hid ho
  obtain ⟨hfound, hnotFound⟩ := hagrees.missing?_step hx hid
  have hfails : m.step.missing? ≠ none →
      m.step.missing? = some x ∧ (x ∈ o.introduced ∧ x ∉ o.definite) ∧
        (∃ f ∈ os.take d, f.isFunction = true) ∧ (causesOf past).CallWithin m.world.env d ∧
        ∀ m₀ ∈ past, ¬ m₀.Declares id x := by
    intro hmissing
    have hdefinite : x ∉ o.definite := fun hx => hmissing (hfound (hat.definite id o x horigin hx))
    have hfunction : ∃ f ∈ os.take d, f.isFunction = true := by
      apply Classical.byContradiction
      intro hnone
      have hinside : ∀ f ∈ os.take d, f.isFunction = false :=
        fun f hf => eq_false_of_ne_true fun hfunction => hnone ⟨f, hf, hfunction⟩
      obtain ⟨id', hid', hbinds⟩ :=
        hat.here.bound hinside (shows_of_visible? (visible?_of_binding hbinding))
      obtain rfl := Option.some.inj (hid.symm.trans hid')
      exact hmissing (hfound hbinds)
    refine ⟨hnotFound fun hbinds => hmissing (hfound hbinds),
      ⟨(List.mem_append.1 hmem).resolve_left hdefinite, hdefinite⟩, hfunction,
      hstands.opened.callWithin hat.here.fits.length_eq hfunction, ?_⟩
    intro m₀ hm₀ hdeclares
    exact hmissing (hfound (hm.remembers m₀ hm₀ id x hdeclares))
  refine ⟨os, r, e, id, o, cause, hstands, hlooks, hname, hbinding, hid, ho, hcause, hopens, ?_,
    hfails⟩
  intro hinside
  apply Classical.byContradiction
  intro hmissing
  exact hinside (hfails hmissing).2.2.2.1

/-- A function that stands after the variable it prints and is called before it. -/
theorem missing_local_awaits_declaration_hoisted :
    let source := "\x7b f(); var x; fun f() \x7b print x; \x7d \x7d"
    ∃ task, Request.run.task source = .ok task ∧
      let start := task.start (Session.new .unlimited fun _ => 0)
      let m := start.after 9
      m.Occurs [source] (start.moments 9) ∧ m.lookup? = some ("x", some (.atDistance 1)) ∧
        m.step.missing? = some "x" ∧
        ∃ os r e id o, m.StandsAt (.handed [source]) (causesOf (start.moments 9)) ⟨os, r, .expr e⟩ ∧
          m.world.env[1]? = some id ∧ os[1]? = some o ∧
          ("x" ∈ o.introduced ∧ "x" ∉ o.definite) ∧
          (causesOf (start.moments 9)).CallWithin m.world.env 1 ∧
          ∀ m₀ ∈ start.moments 9, ¬ m₀.Declares id "x" := by
  intro source
  let s := Session.new .unlimited fun _ => 0
  have hrun : ((Request.run.task source).toOption.any fun task =>
      ((task.start s).after 9).lookup? = some ("x", some (.atDistance 1)) ∧
        ((task.start s).after 9).step.missing? = some "x") = true := by decide +kernel
  cases htask : Request.run.task source with
  | error e =>
    rw [htask] at hrun
    cases hrun
  | ok task =>
    rw [htask] at hrun
    obtain ⟨hlookup, hmissing⟩ := of_decide_eq_true hrun
    have hoccurs : ((task.start s).after 9).Occurs [source] ((task.start s).moments 9) :=
      ⟨s, [], [], .run, source, task, 9, .new .unlimited _, htask, rfl, rfl, rfl⟩
    have hfails : ((task.start s).after 9).step.missing? ≠ none := by
      rw [hmissing]
      exact Option.some_ne_none _
    obtain ⟨os, r, e, id, o, cause, hstands, -, -, -, hid, ho, -, -, -, h⟩ :=
      missing_local_awaits_declaration hoccurs hlookup
    obtain ⟨-, hnames, -, hcall, hdeclares⟩ := h hfails
    exact ⟨task, rfl, hoccurs, hlookup, hmissing, os, r, e, id, o, hstands, hid, ho, hnames, hcall,
      hdeclares⟩

end Lox
