import Lox.Proofs.Session.Histories

/-!
# The scopes in force are those of the resolver

Whatever a session is handed, each expression and statement is worked on in scopes that were made,
one by one, for those that the resolver had open where it stands in a program handed over, and
these bind no other names than those declared there. This is why no lookup goes wrong in a way
that the resolver should have prevented, and why `break` and `return` stay inside the loop and the
function that they belong to.
-/

set_option autoImplicit false

namespace Lox

open Scoping ResolveM

/-- The name that an expression looks up itself, with its slot. -/
def Expr.occurrence? : Expr → Option (String × Slot)
  | .variable name slot => some (name.name, slot)
  | .assign name _ slot => some (name.name, slot)
  | .this _ slot => some ("this", slot)
  | .super _ _ slot => some ("super", slot)
  | _ => none

/-- The frame ends the body of a function or a statement of the top level. -/
def Frame.endsBody : Frame → Bool
  | .finish _ => true
  | .top _ _ => true
  | _ => false

/-- The machine is at work at the site of a program of the collection. The scopes in force were made
for those open there, one inside the other, and what waits goes on from the same place. There are
as many as the resolver has open, inside the top level, and each binds only names that are declared
in its counterpart. -/
structure Machine.StandsAt (C : Corpus) (causes : Causes) (m : Machine) (site : Site) : Prop where
  known : KnownIn C site
  opened : Opened C causes m.world.env site.origins
  continues : Continues C causes m.world.env site.origins m.frames
  describes : Describes site.origins site.state.scopes
  length : m.world.env.length = site.state.scopes.length + 1
  top : m.world.env.getLast? = some 0
  names : ∀ (d : Nat) (id : ScopeId) (o : ScopeOrigin) (x : String), m.world.env[d]? = some id →
    site.origins[d]? = some o → m.world.store.Binds id x → x ∈ o.names

/-- What the machine does next is as the resolver expects. -/
structure Machine.Foreseen (C : Corpus) (causes : Causes) (m : Machine) : Prop where
  evaluate : ∀ e, m.focus = .evaluate e → ∃ os r e₀, m.StandsAt C causes ⟨os, r, .expr e₀⟩ ∧
    e = e₀.resolve.outcome r ∧ ∀ x slot, e.occurrence? = some (x, slot) → slot = some (r.binding x)
  execute : ∀ s, m.focus = .execute s → ∃ os r s₀, m.StandsAt C causes ⟨os, r, .stmt s₀⟩ ∧
    s = s₀.resolve.outcome r
  super : ∀ line method slot, m.focus = .evaluate (.super line method slot) →
    ∃ d sid tid cls id own, slot = some (.atDistance (d + 1)) ∧ m.world.env[d + 1]? = some sid ∧
      m.world.store.find? sid "super" = some (.classRef cls) ∧ m.world.env[d]? = some tid ∧
      m.world.store.find? tid "this" = some (.object id own)
  broken : m.focus = .completed .broken →
    ∃ frame frames, m.frames = frame :: frames ∧ frame.endsBody = false
  returned : ∀ v, m.focus = .completed (.returned v) →
    ∃ frame frames, m.frames = frame :: frames ∧ frame.isTop = false

/-- A machine that agrees with the resolver and is traced stands where its code does. -/
theorem World.At.standsAt {C : Corpus} {shapes : Shapes} {causes : Causes} {os : List ScopeOrigin}
    {r r' : Scoping} {m : Machine} {node : Node} {awaited : Awaited}
    (hat : m.world.At C shapes os r) (hknown : KnownIn C ⟨os, r, node⟩)
    (hwaits : Waits C shapes m.world.store ⟨os, r', m.world.env⟩ awaited m.frames)
    (htraced : m.Traced causes) (hfocus : ∀ e, m.focus ≠ .failed e)
    (hserves : List.Forall₂ (Cause.Serves C shapes) causes shapes) :
    m.StandsAt C causes ⟨os, r, node⟩ := by
  obtain ⟨a, hwithin, hcarried⟩ := htraced.within hfocus
  have hfits := hat.here.fits
  have hdescribes : Describes os r.scopes := hknown.proper.describes
  have hlength : m.world.env.length = os.length + 1 := hfits.length_eq
  refine ⟨hknown, hfits.opened (hwithin.chained htraced.follows) hserves,
    hwaits.continues htraced.follows hserves hcarried, hdescribes, ?_, hfits.getLast?_eq, ?_⟩
  · rw [hlength, hdescribes.length_eq]
  · intro d id o x hid ho hbinds
    obtain ⟨id', hid', horigin⟩ := hfits.get? ho
    obtain rfl := Option.some.inj (hid.symm.trans hid')
    obtain ⟨v, hv⟩ := Option.isSome_iff_exists.1 hbinds
    exact hat.typed.name hv horigin

/-- The resolver fills the slot of every occurrence, and keeps its name. -/
theorem KnownIn.occurrence {C : Corpus} {os : List ScopeOrigin} {r : Scoping} {e : Expr}
    {x : String} {slot : Slot} (h : KnownIn C ⟨os, r, .expr e⟩)
    (hx : (e.resolve.outcome r).occurrence? = some (x, slot)) :
    slot = some (r.binding x) ∧ ∃ slot₀, e.occurrence? = some (x, slot₀) := by
  cases e with
  | «variable» name slot₀ =>
    cases hx
    exact ⟨rfl, slot₀, rfl⟩
  | assign name value slot₀ =>
    cases hx
    have hvalue : KnownIn C ⟨os, r, .expr value⟩ := h.child List.mem_cons_self
    refine ⟨?_, slot₀, rfl⟩
    show some ((value.resolve.after r).binding name.name) = _
    rw [hvalue.expr_after]
  | this line slot₀ =>
    obtain ⟨d, houtcome, hvisible, -⟩ := h.this
    rw [houtcome] at hx
    cases hx
    rw [binding_of_visible? hvisible]
    exact ⟨rfl, slot₀, rfl⟩
  | super line method slot₀ =>
    obtain ⟨d, houtcome, hvisible, -⟩ := h.super
    rw [houtcome] at hx
    cases hx
    rw [binding_of_visible? hvisible]
    exact ⟨rfl, slot₀, rfl⟩
  | literal | group | unary | binary | logical | call | get | set | lambda => cases hx

/-- A completion that is not normal meets a frame that may take it. -/
theorem Waits.takes {C : Corpus} {shapes : Shapes} {σ : Store} {p : Place} {b c : Bool}
    {frames : List Frame} (h : Waits C shapes σ p (.completion b c) frames) :
    (b = true → ∃ frame rest, frames = frame :: rest ∧ frame.endsBody = false) ∧
      (c = true → ∃ frame rest, frames = frame :: rest ∧ frame.isTop = false) := by
  cases h with
  | again | sequence | restore => exact ⟨fun _ => ⟨_, _, rfl, rfl⟩, fun _ => ⟨_, _, rfl, rfl⟩⟩
  | finish =>
    refine ⟨?_, fun _ => ⟨_, _, rfl, rfl⟩⟩
    intro hb
    cases hb
  | top | done =>
    refine ⟨?_, ?_⟩
    · intro hb
      cases hb
    · intro hc
      cases hc

namespace Agrees

variable {C : Corpus} {shapes : Shapes} {m : Machine}

theorem ordinary {e : Error} (h : Agrees C shapes m) (he : m.focus = .failed e) :
    e.isInternal = false := by
  cases h with
  | failed _ hordinary =>
    cases he
    exact hordinary
  | _ => cases he

end Agrees

theorem Machine.Placed.foreseen {C : Corpus} {causes : Causes} {m : Machine}
    (h : m.Placed C causes) : m.Foreseen C causes := by
  obtain ⟨shapes, hagrees, htraced, hserves⟩ := h
  refine ⟨?_, ?_, ?_, ?_, ?_⟩
  · intro e he
    cases hagrees with
    | @evaluate os r e₀ _ _ hat hknown hwaits =>
      cases he
      exact ⟨os, r, e₀, hat.standsAt hknown hwaits htraced (by simp) hserves, rfl,
        fun x slot hx => (hknown.occurrence hx).1⟩
    | _ => cases he
  · intro s hs
    cases hagrees with
    | @execute os r s₀ _ _ _ _ hat hknown _ hwaits =>
      cases hs
      exact ⟨os, r, s₀, hat.standsAt hknown hwaits htraced (by simp) hserves, rfl⟩
    | _ => cases hs
  · intro line method slot he
    cases hagrees with
    | evaluate hat hknown _ =>
      obtain ⟨d, rfl, hsuper, hthis⟩ := hknown.of_super (Focus.evaluate.inj he)
      obtain ⟨sid, tid, cls, id, own, hfound⟩ := Machine.super_and_this hat hsuper hthis
      exact ⟨d, sid, tid, cls, id, own, rfl, hfound⟩
    | _ => cases he
  · intro hk
    cases hagrees with
    | @completed _ _ k _ _ _ _ _ hpermitted hwaits =>
      obtain rfl := Focus.completed.inj hk
      exact hwaits.takes.1 hpermitted
    | _ => cases hk
  · intro v hk
    cases hagrees with
    | @completed _ _ k _ _ _ _ _ hpermitted hwaits =>
      obtain rfl := Focus.completed.inj hk
      exact hwaits.takes.2 hpermitted.1
    | _ => cases hk

/-- The resolver and the machine agree on the scopes, so that no source text leads a session to an
internal error. Whatever a session has been handed, each machine in the course of a text stands at a
site of the programs handed over, in scopes made for those that the resolver has open there. -/
theorem resolver_agrees_with_machine {s : Session} (hs : s.Reachable) (request : Request)
    (source : String) :
    (∀ (s' : Session) (e : Error), Session.Answers request source s s' (some e) →
      e.isInternal = false) ∧
    (∃ texts past, s.Recorded texts past) ∧
    ∀ texts past, s.Recorded texts past → ∀ task, request.task source = .ok task → ∀ n,
      ((task.start s).after n).Foreseen (.handed (texts ++ [source]))
        (causesOf (past ++ (task.start s).moments n)) := by
  refine ⟨?_, hs.recorded, ?_⟩
  · intro s' e hanswers
    rcases Session.performed_or_refused hanswers with ⟨e', he', -, heq⟩ | ⟨task, htask, n, -, -, he⟩
    · obtain rfl := Option.some.inj heq
      exact FailsOrdinarily.task request source e he'
    · rcases he e rfl with hfailed | rfl
      · obtain ⟨shapes, hready⟩ := hs.ready
        obtain ⟨shapes', -, hagrees⟩ := Session.advances_task hready hs.at_top.1 htask n
        exact hagrees.ordinary hfailed
      · rfl
  · intro texts past hrecorded task htask n
    have hoccurs : ((task.start s).after n).Occurs (texts ++ [source])
        (past ++ (task.start s).moments n) :=
      ⟨s, texts, past, request, source, task, n, hrecorded, htask, rfl, rfl, rfl⟩
    exact hoccurs.placed.foreseen

/-- A method that leaves a loop and returns what the method of its superclass does. -/
theorem resolver_agrees_with_machine_inherited :
    let source := "class A { f(x) { return x; } }
      class B < A { f(x) { while (true) { break; } return super.f(this); } }
      B().f(nil);"
    let s := Session.new .unlimited fun _ => 0
    s.Reachable ∧ s.Recorded [] [] ∧ ∃ task, Request.run.task source = .ok task ∧
      ∀ n, ((task.start s).after n).Foreseen (.handed [source])
        (causesOf ((task.start s).moments n)) := by
  intro source s
  have hs : s.Reachable := .new .unlimited fun _ => 0
  have hrecorded : s.Recorded [] [] := .new .unlimited fun _ => 0
  have hok : (Request.run.task source).isOk = true := by decide +kernel
  cases htask : Request.run.task source with
  | error e =>
    rw [htask] at hok
    cases hok
  | ok task =>
    obtain ⟨-, -, hforeseen⟩ := resolver_agrees_with_machine hs .run source
    exact ⟨hs, hrecorded, task, rfl, hforeseen [] [] hrecorded task htask⟩

end Lox
