import Lox.Proofs.Machine.Basic

/-!
# Sessions that can come about

A session starts in a new world and is handed source texts, in any order and with any outcome.
Each of the three ways to hand over a text either refuses it, and then the session is as before,
or lets a machine do the task that the text stands for. `performed_or_refused` says this once for
all three.
-/

set_option autoImplicit false

namespace Lox

/-- The ways to hand a source text to a session. -/
inductive Request where
  | run
  | evaluate
  | line
  deriving DecidableEq

/-- What a source text asks for when it is handed over in this way. -/
def Request.task : Request → String → Except Error Task
  | .run => Task.ofProgram
  | .evaluate => Task.ofExpression
  | .line => Task.ofLine

/-- The error of a computation that failed. -/
def failure? {α : Type} : Except Error α → Option Error
  | .ok _ => none
  | .error e => some e

namespace Session

/-- The session `s'` and the error, if any, that handing over a source text leads to. -/
def Answers (request : Request) (source : String) (s s' : Session) (error? : Option Error) :
    Prop :=
  match request with
  | .run => ∃ fuel result, run fuel source s = some (result, s') ∧ error? = failure? result
  | .evaluate => ∃ fuel result, evaluate fuel source s = some (result, s') ∧ error? = failure? result
  | .line => ∃ fuel result, runLine fuel source s = some (result, s') ∧ error? = failure? result

/-- The sessions that handing over source texts leads to. Between two texts the host may set the
limit on open calls and provide functions. -/
inductive Reachable : Session → Prop where
  | new (sink : Sink) (reading : Nat → Float) : Reachable (new sink reading)
  | answered {s s' : Session} {request : Request} {source : String} {error? : Option Error} :
      Reachable s → Answers request source s s' error? → Reachable s'
  | limited {s : Session} (maxDepth : Nat) : Reachable s → Reachable (s.setMaxDepth maxDepth)
  | provided {s : Session} (native : Native) : Reachable s → Reachable (s.defineNative native)

end Session

namespace Machine

theorem isFinal_of_outcome? {m : Machine} {o : Outcome × World} (h : m.outcome? = some o) :
    m.isFinal = true ∧ o.2 = m.world ∧ ∀ e, o.1 = .failed e → m.focus = .failed e := by
  obtain ⟨focus, frames, w⟩ := m
  cases frames with
  | cons frame frames => cases focus <;> cases h
  | nil =>
    cases focus with
    | evaluate e => cases h
    | execute s => cases h
    | value v =>
      cases h
      exact ⟨rfl, rfl, fun e he => by cases he⟩
    | completed c =>
      cases h
      exact ⟨rfl, rfl, fun e he => by cases he⟩
    | failed e =>
      cases h
      exact ⟨rfl, rfl, fun e' he => by cases he; rfl⟩

theorem isFinal_of_valueResult? {m : Machine} {result : Except Error Value} {w : World}
    (h : m.valueResult? = some (result, w)) :
    m.isFinal = true ∧ w = m.world ∧ ∀ e, result = .error e → m.focus = .failed e := by
  obtain ⟨⟨outcome, w'⟩, ho, hr⟩ := Option.map_eq_some_iff.mp h
  obtain ⟨hfinal, hw, hfailed⟩ := isFinal_of_outcome? ho
  cases outcome with
  | value v => cases hr; exact ⟨hfinal, hw, fun e he => by cases he⟩
  | completed c => cases hr; exact ⟨hfinal, hw, fun e he => by cases he⟩
  | failed e => cases hr; exact ⟨hfinal, hw, fun e' he => by cases he; exact hfailed e rfl⟩

/-- The flush after a program's last statement is the only cause of failure that the machine does
not know. -/
theorem isFinal_of_programResult? {m : Machine} {result : Except Error Unit} {w : World}
    (h : m.programResult? = some (result, w)) :
    m.isFinal = true ∧ w = m.world ∧
      ∀ e, result = .error e → m.focus = .failed e ∨ e = .io .flushRefused := by
  obtain ⟨⟨outcome, w'⟩, ho, hr⟩ := Option.map_eq_some_iff.mp h
  obtain ⟨hfinal, hw, hfailed⟩ := isFinal_of_outcome? ho
  have flushed {result : Except Error Unit}
      (hres : (if w'.sink.refusesFlush then .error (.io .flushRefused) else .ok ()) = result) :
      ∀ e, result = .error e → m.focus = .failed e ∨ e = .io .flushRefused := by
    intro e he
    subst hres
    split at he
    · cases he; exact Or.inr rfl
    · cases he
  cases outcome with
  | value v => cases hr; exact ⟨hfinal, hw, flushed rfl⟩
  | completed c => cases hr; exact ⟨hfinal, hw, flushed rfl⟩
  | failed e => cases hr; exact ⟨hfinal, hw, fun e' he => by cases he; exact Or.inl (hfailed e rfl)⟩

end Machine

namespace Session
variable {source : String} {s s' : Session} {error? : Option Error}

/-- A session that does a task to its end. -/
def Performs (task : Task) (s s' : Session) (error? : Option Error) : Prop :=
  ∃ n, ((task.start s).after n).isFinal = true ∧ s' = ((task.start s).after n).world ∧
    ∀ e, error? = some e → ((task.start s).after n).focus = .failed e ∨ e = .io .flushRefused

theorem performs_of_runTree {p : Program} {fuel : Nat} {result : Except Error Unit}
    (h : runTree fuel p s = some (result, s')) :
    Performs (.program p) s s' (failure? result) := by
  unfold runTree at h
  rw [Machine.run_eq_after] at h
  obtain ⟨hfinal, hs, herror⟩ := Machine.isFinal_of_programResult? h
  refine ⟨fuel, hfinal, hs, fun e he => ?_⟩
  cases result with
  | ok a => cases he
  | error e' => cases he; exact herror e rfl

theorem performs_of_evaluateTree {e : Expr} {fuel : Nat} {result : Except Error Value}
    (h : evaluateTree fuel e s = some (result, s')) :
    Performs (.expression e) s s' (failure? result) := by
  unfold evaluateTree at h
  rw [Machine.run_eq_after] at h
  obtain ⟨hfinal, hs, herror⟩ := Machine.isFinal_of_valueResult? h
  refine ⟨fuel, hfinal, hs, fun e he => ?_⟩
  cases result with
  | ok a => cases he
  | error e' => cases he; exact Or.inl (herror e rfl)

/-- A source text is either refused, and leaves the session alone, or becomes a task that is
done. -/
theorem performed_or_refused {request : Request} (h : Answers request source s s' error?) :
    (∃ e, request.task source = .error e ∧ s' = s ∧ error? = some e) ∨
      ∃ task, request.task source = .ok task ∧ Performs task s s' error? := by
  cases request with
  | run =>
    obtain ⟨fuel, result, hrun, rfl⟩ := h
    unfold run at hrun
    split at hrun
    · rename_i e he
      cases hrun
      exact Or.inl ⟨e, by simp [Request.task, Task.ofProgram, he, Except.map], rfl, rfl⟩
    · rename_i p hp
      exact Or.inr ⟨.program p, by simp [Request.task, Task.ofProgram, hp, Except.map],
        performs_of_runTree hrun⟩
  | evaluate =>
    obtain ⟨fuel, result, hrun, rfl⟩ := h
    unfold evaluate at hrun
    split at hrun
    · rename_i e he
      cases hrun
      exact Or.inl ⟨e, by simp [Request.task, Task.ofExpression, he, Except.map], rfl, rfl⟩
    · rename_i e he
      exact Or.inr ⟨.expression e, by simp [Request.task, Task.ofExpression, he, Except.map],
        performs_of_evaluateTree hrun⟩
  | line =>
    obtain ⟨fuel, result, hrun, rfl⟩ := h
    unfold runLine at hrun
    split at hrun
    · rename_i e he
      cases hrun
      exact Or.inl ⟨e, he, rfl, rfl⟩
    · rename_i task htask
      refine Or.inr ⟨task, htask, ?_⟩
      cases task with
      | program p =>
        obtain ⟨⟨r, w⟩, hr, hpair⟩ := Option.map_eq_some_iff.mp hrun
        cases hpair
        have h : Performs (.program p) s s' (failure? r) := performs_of_runTree hr
        cases r <;> exact h
      | expression e =>
        obtain ⟨⟨r, w⟩, hr, hpair⟩ := Option.map_eq_some_iff.mp hrun
        cases hpair
        have h : Performs (.expression e) s s' (failure? r) := performs_of_evaluateTree hr
        cases r <;> exact h

end Session

end Lox
