import Lox.Proofs.Machine.Origins
import Lox.Proofs.Session.Agreement

/-!
# Histories of sessions

The history of a session is told by the source texts that it was handed and by all machines that
were in the course of what they asked for. It tells why each scope of the session was made: every
machine of a session works where the resolver expects it for the programs handed over so far, in
scopes that the machines before it have made.
-/

set_option autoImplicit false

namespace Lox

open Scoping ResolveM Machine

/-- The session has been handed these source texts, and has the machines of `past` behind it. -/
inductive Session.Recorded : Session → List String → List Machine → Prop where
  | new (sink : Sink) (reading : Nat → Float) : Recorded (new sink reading) [] []
  | performed {s : Session} {texts : List String} {past : List Machine} {request : Request}
      {source : String} {task : Task} {n : Nat} :
      Recorded s texts past → request.task source = .ok task →
      ((task.start s).after n).isFinal = true →
      Recorded ((task.start s).after n).world (texts ++ [source]) (past ++ (task.start s).moments n)
  | limited {s : Session} {texts : List String} {past : List Machine} (maxDepth : Nat) :
      Recorded s texts past → Recorded (s.setMaxDepth maxDepth) texts past
  | provided {s : Session} {texts : List String} {past : List Machine} (native : Native) :
      Recorded s texts past → Recorded (s.defineNative native) texts past

/-- The machine comes about in a session that has been handed these source texts, the last of which
it is at work on, with the machines of `past` behind it. -/
def Machine.Occurs (texts : List String) (past : List Machine) (m : Machine) : Prop :=
  ∃ (s : Session) (earlier : List String) (before : List Machine) (request : Request)
    (source : String) (task : Task) (n : Nat), s.Recorded earlier before ∧
      request.task source = .ok task ∧ texts = earlier ++ [source] ∧
      past = before ++ (task.start s).moments n ∧ m = (task.start s).after n

/-- Every session has a history. -/
theorem Session.Reachable.recorded {s : Session} (h : s.Reachable) :
    ∃ texts past, s.Recorded texts past := by
  induction h with
  | new sink reading => exact ⟨[], [], .new sink reading⟩
  | answered _ hanswers ih =>
    obtain ⟨texts, past, hs⟩ := ih
    rcases performed_or_refused hanswers with ⟨_, _, rfl, _⟩ | ⟨task, htask, n, hfinal, rfl, _⟩
    · exact ⟨texts, past, hs⟩
    · exact ⟨_, _, .performed hs htask hfinal⟩
  | limited maxDepth _ ih =>
    obtain ⟨texts, past, hs⟩ := ih
    exact ⟨texts, past, .limited maxDepth hs⟩
  | provided native _ ih =>
    obtain ⟨texts, past, hs⟩ := ih
    exact ⟨texts, past, .provided native hs⟩

/-- The programs that the source texts stand for, with all host functions. -/
def Corpus.handed (texts : List String) : Corpus :=
  ⟨fun p => ∃ source ∈ texts, StandsFor source p, fun _ => True⟩

/-! ## Between two texts -/

theorem Native.plain (native : Native) : Plain native.name := by
  cases native <;> simp [Native.name, Plain]

theorem Store.follows_initial (sink : Sink) (reading : Nat → Float) :
    (World.initial sink reading).store.Follows [] := by
  refine ⟨rfl, ?_, ?_, ?_, ?_, ?_⟩
  · intro id x hx
    cases id with
    | zero =>
      apply Bindings.find?_single_of_ne
      rintro rfl
      exact hx Native.clock.plain
    | succ id => rfl
  · intro id x cause hcause
    cases id <;> cases hcause
  · intro id method receiver hcause
    cases id <;> cases hcause
  · intro id x v hv
    cases id with
    | zero =>
      obtain ⟨-, rfl⟩ := Bindings.mem_of_find?_single hv
      trivial
    | succ id => cases hv
  · intro id x v hv
    cases hv

theorem Store.Follows.defineNative {causes : Causes} {s : Session} (h : s.store.Follows causes)
    (native : Native) : (s.defineNative native).store.Follows causes := by
  have hvalue : Value.Sound causes (.native (World.newId s).1 native) := trivial
  exact h.newId.define .top hvalue native.plain

theorem World.settled_initial {C : Corpus} (hC : C.hosts .clock) (sink : Sink)
    (reading : Nat → Float) : (World.initial sink reading).Settled C [] :=
  ⟨[], World.ready_initial hC sink reading, Store.follows_initial sink reading, .nil⟩

theorem World.Settled.defineNative {C : Corpus} {causes : Causes} {s : Session} {native : Native}
    (h : s.Settled C causes) (hnative : C.hosts native) :
    (s.defineNative native).Settled C causes := by
  obtain ⟨shapes, hready, hfollows, hserves⟩ := h
  exact ⟨shapes, hready.defineNative hnative, hfollows.defineNative native, hserves⟩

/-! ## In the course of a text -/

theorem Task.traced_start {causes : Causes} {s : Session} (task : Task)
    (h : s.store.Follows causes) (henv : s.env = World.topEnv) : Traced causes (task.start s) := by
  have hwithin : Within causes none s.env := henv ▸ .top
  have hcovers (node : Node) : Covers none node := by
    intro active hactive
    cases hactive
  cases task with
  | program p => exact .running h hwithin trivial ⟨suits_one rfl rfl (hcovers _), trivial⟩
  | expression e => exact .running h hwithin (hcovers _) trivial

section Handed
variable {C : Corpus} {s : Session} {texts : List String} {past : List Machine}

/-- In the course of a task, the causes are those of the session and of the task so far. -/
theorem World.Settled.placed_task {causes : Causes} {request : Request} {source : String}
    {task : Task} (h : s.Settled C causes) (henv : s.env = World.topEnv)
    (hC : ∀ p, StandsFor source p → C.programs p) (htask : request.task source = .ok task) (n : Nat) :
    ((task.start s).after n).Placed C (causes ++ causesOf ((task.start s).moments n)) := by
  obtain ⟨shapes, hready, hfollows, hserves⟩ := h
  have hstart : (task.start s).Placed C causes :=
    ⟨shapes, (Request.prepared hC htask).agrees_start hready henv, task.traced_start hfollows henv,
      hserves⟩
  exact hstart.after n

/-- Between two texts, the causes of the scopes are those of the history. -/
theorem Session.Recorded.settled (h : s.Recorded texts past)
    (hC : ∀ source ∈ texts, ∀ p, StandsFor source p → C.programs p)
    (hhosts : ∀ native, C.hosts native) :
    s.env = World.topEnv ∧ s.depth = 0 ∧ World.Settled C (causesOf past) s := by
  induction h with
  | new sink reading => exact ⟨rfl, rfl, World.settled_initial (hhosts .clock) sink reading⟩
  | @performed s texts past request source task n hs htask hfinal ih =>
    obtain ⟨henv, hdepth, hsettled⟩ := ih fun text htext => hC text (List.mem_append_left _ htext)
    obtain ⟨henv', hdepth'⟩ := task.ends_at_top henv hdepth hfinal
    have hplaced := hsettled.placed_task henv (hC source (by simp)) htask n
    rw [causesOf, List.flatMap_append]
    exact ⟨henv', hdepth', hplaced.settled⟩
  | limited maxDepth _ ih =>
    obtain ⟨henv, hdepth, shapes, hready, hfollows, hserves⟩ := ih hC
    exact ⟨henv, hdepth, shapes, ⟨hready.typed, hready.definite⟩, hfollows, hserves⟩
  | provided native _ ih =>
    obtain ⟨henv, hdepth, hsettled⟩ := ih hC
    exact ⟨henv, hdepth, hsettled.defineNative (hhosts native)⟩

end Handed

namespace Machine.Occurs

variable {texts : List String} {past : List Machine} {m : Machine}

/-- A machine of a session is where the resolver expects it for the programs handed over. -/
theorem placed (h : m.Occurs texts past) : m.Placed (.handed texts) (causesOf past) := by
  obtain ⟨s, earlier, before, request, source, task, n, hs, htask, rfl, rfl, rfl⟩ := h
  have hearlier : ∀ text ∈ earlier, ∀ p, StandsFor text p →
      (Corpus.handed (earlier ++ [source])).programs p :=
    fun text htext p hp => ⟨text, List.mem_append_left _ htext, hp⟩
  obtain ⟨henv, -, hsettled⟩ := hs.settled hearlier fun _ => trivial
  rw [causesOf, List.flatMap_append]
  exact hsettled.placed_task henv (fun p hp => ⟨source, by simp, hp⟩) htask n

theorem traced (h : m.Occurs texts past) : Traced (causesOf past) m := by
  obtain ⟨_, -, htraced, -⟩ := h.placed
  exact htraced

theorem step (h : m.Occurs texts past) : m.step.Occurs texts (past ++ [m]) := by
  obtain ⟨s, earlier, before, request, source, task, n, hs, htask, htexts, rfl, rfl⟩ := h
  exact ⟨s, earlier, before, request, source, task, n + 1, hs, htask, htexts,
    List.append_assoc _ _ _, rfl⟩

end Machine.Occurs

end Lox
