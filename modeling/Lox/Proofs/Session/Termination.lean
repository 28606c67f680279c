import Lox.Proofs.Grammar.Loops
import Lox.Proofs.Machine.Termination
import Lox.Proofs.Session.DepthLimit
import Lox.Proofs.Session.Incremental

/-!
# Only loops diverge

In a session that has been handed only source texts without loops, no function in the store
contains a loop, so no machine of the session gets to one. The limit on open calls then bounds every
run, however recursive the functions, methods and initializers are.
-/

set_option autoImplicit false

namespace Lox

open Scoping ResolveM Machine

/-! ## Sessions that were handed certain texts only -/

/-- The sessions that handing over source texts of a certain kind leads to. -/
inductive Session.ReachableBy (allowed : String → Prop) : Session → Prop where
  | new (sink : Sink) (reading : Nat → Float) : ReachableBy allowed (new sink reading)
  | answered {s s' : Session} {request : Request} {source : String} {error? : Option Error} :
      ReachableBy allowed s → allowed source → Answers request source s s' error? →
      ReachableBy allowed s'
  | limited {s : Session} (maxDepth : Nat) :
      ReachableBy allowed s → ReachableBy allowed (s.setMaxDepth maxDepth)
  | provided {s : Session} (native : Native) :
      ReachableBy allowed s → ReachableBy allowed (s.defineNative native)

namespace Session.ReachableBy

variable {allowed : String → Prop} {s : Session}

theorem reachable (h : s.ReachableBy allowed) : s.Reachable := by
  induction h with
  | new sink reading => exact .new sink reading
  | answered _ _ hanswers ih => exact .answered ih hanswers
  | limited maxDepth _ ih => exact .limited maxDepth ih
  | provided native _ ih => exact .provided native ih

/-- What the store holds comes from programs that such texts stand for. -/
theorem ready {C : Corpus} (hC : ∀ source p, allowed source → StandsFor source p → C.programs p)
    (hhosts : ∀ native, C.hosts native) (h : s.ReachableBy allowed) :
    ∃ shapes, World.Ready C shapes s := by
  induction h with
  | new sink reading => exact ⟨[], World.ready_initial (hhosts .clock) sink reading⟩
  | @answered s s' request source error? hs hsource hanswers ih =>
    obtain ⟨shapes, hready⟩ := ih
    rcases performed_or_refused hanswers with ⟨_, _, rfl, _⟩ | ⟨task, htask, n, _, rfl, _⟩
    · exact ⟨shapes, hready⟩
    · have hprepared := Request.prepared (fun p => hC source p hsource) htask
      have hagrees := hprepared.agrees_start hready hs.reachable.at_top.1
      obtain ⟨shapes', -, hagrees'⟩ := advances_after hagrees n
      exact ⟨shapes', hagrees'.ready⟩
  | limited maxDepth _ ih =>
    obtain ⟨shapes, hready⟩ := ih
    exact ⟨shapes, hready.typed, hready.definite⟩
  | provided native _ ih =>
    obtain ⟨shapes, hready⟩ := ih
    exact ⟨shapes, hready.defineNative (hhosts native)⟩

end Session.ReachableBy

/-! ## Machines without loops -/

/-- The collection of programs without loops. -/
def WithoutLoops : Corpus := ⟨fun p => LoopFree (.top p), fun _ => True⟩

theorem loopFree_of_standsFor {source : String} {p : Program} (hsource : NoLoop (tokens source))
    (h : StandsFor source p) : LoopFree (.top p) := by
  rcases h with h | ⟨e, he, rfl⟩
  · exact loopFree_of_parsed_program hsource (withLexical_eq_ok h).2
  · exact loopFree_of_parsed_expression hsource (withLexical_eq_ok he).2

theorem KnownIn.loopFree {site : Site} (h : KnownIn WithoutLoops site) : LoopFree site.node := by
  obtain ⟨p, hp, -, hvisited⟩ := h
  exact LoopFree.visited hp hvisited

theorem Agrees.isLooping_eq_false {shapes : Shapes} {m : Machine} (h : Agrees WithoutLoops shapes m) :
    m.isLooping = false := by
  have hnone {os : List ScopeOrigin} {r : Scoping} {condition : Expr} {body : Stmt}
      (hknown : KnownIn WithoutLoops ⟨os, r, .stmt (.loop condition body)⟩) : False := by
    cases hknown.loopFree.isLoop_eq_false
  cases h with
  | evaluate => rfl
  | @execute os r s frames w b c hat hknown hallows hwaits =>
    cases hs : s.resolve.outcome r with
    | loop condition body =>
      obtain ⟨condition', body', rfl⟩ := Stmt.resolve_eq_loop hs
      exact (hnone hknown).elim
    | _ => rfl
  | value hat hv hwaits =>
    cases hwaits with
    | test hknown => exact (hnone hknown).elim
    | _ => rfl
  | completed hat hk hwaits =>
    cases hwaits with
    | again hknown => exact (hnone hknown).elim
    | _ => rfl
  | failed => rfl

/-! ## Open calls -/

theorem Machine.AtTop.openCalls_le {m : Machine} (h : AtTop m) :
    openCalls m.frames ≤ m.world.depth := by
  rcases h with ⟨line, rest, inner, hframes, -, -, -, hdepth⟩ | ⟨hfinal, -, -⟩
  · rw [hframes, openCalls_append, hdepth]
    simp [openCalls, Frame.calls]
  · rw [(handsOver_of_isFinal hfinal).1]
    exact Nat.zero_le _

/-- The frames of a machine stand for no more calls than are open. -/
theorem Task.openCalls_le (task : Task) {s : Session} (henv : s.env = World.topEnv)
    (hdepth : s.depth = 0) (n : Nat) :
    openCalls ((task.start s).after n).frames ≤ ((task.start s).after n).world.depth := by
  cases task with
  | program p => exact (atTop_after p henv hdepth n).openCalls_le
  | expression e =>
    obtain ⟨inner, hframes, -, -, -, hopen⟩ := above_nil_after e s n
    change openCalls ((evaluating e s).after n).frames ≤ ((evaluating e s).after n).world.depth
    rw [hframes, List.append_nil, hopen]
    exact Nat.le_add_left _ _

/-! ## Runs -/

theorem Machine.outcome?_of_isFinal {m : Machine} (h : m.isFinal = true) :
    ∃ outcome, m.outcome? = some outcome := by
  obtain ⟨focus, frames, w⟩ := m
  obtain ⟨rfl, hfocus⟩ := handsOver_of_isFinal h
  cases focus with
  | evaluate | execute => cases hfocus
  | value | completed | failed => exact ⟨_, rfl⟩

theorem Task.result?_of_isFinal (task : Task) {m : Machine} (h : m.isFinal = true) :
    ∃ answer, task.result? m = some answer := by
  obtain ⟨outcome, houtcome⟩ := outcome?_of_isFinal h
  cases task with
  | program p =>
    rw [Task.result?, programResult?, houtcome]
    exact ⟨_, rfl⟩
  | expression e =>
    rw [Task.result?, valueResult?, houtcome]
    exact ⟨_, rfl⟩

/-- Once a machine has come to its end, more steps make no difference to what is read off it. -/
theorem Machine.settles {α : Type} (result : Machine → Option α) {m : Machine} {n : Nat}
    (h : (m.after n).isFinal = true) (hresult : ∃ a, result (m.after n) = some a) :
    ∃ bound answer, ∀ fuel ≥ bound, result (m.run fuel) = some answer := by
  obtain ⟨a, ha⟩ := hresult
  refine ⟨n, a, ?_⟩
  intro fuel hfuel
  obtain ⟨k, rfl⟩ := Nat.exists_eq_add_of_le hfuel
  rw [run_eq_after, after_add, after_eq_self_of_isFinal h, ha]

namespace Session

variable {s : Session} {source : String}

/-- What a text without loops asks for is done after some number of steps. -/
theorem halts_task (hs : s.ReachableBy fun source => NoLoop (tokens source))
    (hsource : NoLoop (tokens source)) {request : Request} {task : Task}
    (htask : request.task source = .ok task) :
    ∃ n, ((task.start s).after n).isFinal = true := by
  obtain ⟨henv, hdepth⟩ := hs.reachable.at_top
  obtain ⟨shapes, hready⟩ := hs.ready (C := WithoutLoops)
    (fun _ _ hsource h => loopFree_of_standsFor hsource h) (fun _ => trivial)
  have hprepared : task.Prepared WithoutLoops :=
    Request.prepared (fun _ h => loopFree_of_standsFor hsource h) htask
  apply halts s.maxDepth
  · intro n
    exact Nat.le_trans (task.openCalls_le henv hdepth n) (hs.reachable.depth_le s.maxDepth task n)
  · intro n
    obtain ⟨shapes', -, hagrees⟩ := advances_after (hprepared.agrees_start hready henv) n
    exact hagrees.isLooping_eq_false

/-- In a session that has been handed only texts without loops, every text without loops is answered
once enough steps are allowed, in each of the three ways to hand it over and under every limit on
open calls. -/
theorem only_loops_diverge (hs : s.ReachableBy fun source => NoLoop (tokens source))
    (hsource : NoLoop (tokens source)) :
    (∃ bound answer, ∀ fuel ≥ bound, run fuel source s = some answer) ∧
    (∃ bound answer, ∀ fuel ≥ bound, evaluate fuel source s = some answer) ∧
    (∃ bound answer, ∀ fuel ≥ bound, runLine fuel source s = some answer) := by
  refine ⟨?_, ?_, ?_⟩
  · unfold run
    cases hp : parseProgram source >>= resolveProgram with
    | error e => exact ⟨0, (.error e, s), fun _ _ => rfl⟩
    | ok p =>
      have htask : Request.run.task source = .ok (.program p) := by
        rw [Request.task, Task.ofProgram, hp]
        rfl
      obtain ⟨n, hfinal⟩ := halts_task hs hsource htask
      obtain ⟨outcome, houtcome⟩ := outcome?_of_isFinal hfinal
      exact settles programResult? hfinal ⟨_, congrArg (Option.map _) houtcome⟩
  · unfold evaluate
    cases he : parseExpression source >>= resolveExpression with
    | error e => exact ⟨0, (.error e, s), fun _ _ => rfl⟩
    | ok e =>
      have htask : Request.evaluate.task source = .ok (.expression e) := by
        rw [Request.task, Task.ofExpression, he]
        rfl
      obtain ⟨n, hfinal⟩ := halts_task hs hsource htask
      obtain ⟨outcome, houtcome⟩ := outcome?_of_isFinal hfinal
      exact settles valueResult? hfinal ⟨_, congrArg (Option.map _) houtcome⟩
  · unfold runLine
    cases htask : Task.ofLine source with
    | error e => exact ⟨0, (.error e, s), fun _ _ => rfl⟩
    | ok task =>
      have htask' : Request.line.task source = .ok task := htask
      obtain ⟨n, hfinal⟩ := halts_task hs hsource htask'
      exact settles (fun m => task.result? m) hfinal (task.result?_of_isFinal hfinal)

/-- A class whose initializer makes another instance, with a limit of three open calls. -/
theorem only_loops_diverge_initializer :
    let source := "class A \x7b init() \x7b A(); \x7d \x7d"
    let s := (new .unlimited fun _ => 0).setMaxDepth 3
    ∃ s', run 40 source s = some (.ok (), s') ∧
      s'.ReachableBy (fun source => NoLoop (tokens source)) ∧ NoLoop (tokens "A()") ∧
      ∃ bound answer, ∀ fuel ≥ bound, evaluate fuel "A()" s' = some answer := by
  intro source s
  have hs : s.ReachableBy fun source => NoLoop (tokens source) := .limited 3 (.new .unlimited _)
  have hsource : NoLoop (tokens source) := by
    unfold NoLoop
    decide +kernel
  have hexpression : NoLoop (tokens "A()") := by
    unfold NoLoop
    decide +kernel
  have hok : ((run 40 source s).any fun r => r.1.isOk) = true := by decide +kernel
  obtain ⟨⟨result, s'⟩, hrun, hresult⟩ := (Option.any_eq_true _ _).1 hok
  obtain ⟨u, rfl⟩ := eq_ok_of_isOk hresult
  have hs' : s'.ReachableBy fun source => NoLoop (tokens source) := by
    have hanswers : Answers .run source s s' none := ⟨40, .ok u, hrun, rfl⟩
    exact .answered hs hsource hanswers
  exact ⟨s', hrun, hs', hexpression, (only_loops_diverge hs' hexpression).2.1⟩

end Session

end Lox
