import Lox.Proofs.Lockstep.Machine
import Lox.Proofs.Reordering.Scoping
import Lox.Proofs.Reordering.World
import Lox.Proofs.Session.Agreement

/-!
# The order of functions in a body

The functions that stand next to each other in a block or in the body of a function may be written
in either order. The resolver accepts both programs and fills the same slots, and what a session
prints and how it ends is the same.
-/

set_option autoImplicit false

namespace Lox

/-! ## Results -/

namespace Renaming
variable {a : Renaming} {wanted : Handed} {m m' : Machine}

/-- The machines do the same, and have no other frames. -/
abbrev SameMachine (a : Renaming) (wanted : Handed) (m m' : Machine) : Prop :=
  Lockstep.reordered.SameMachine a ⟨[], wanted, none⟩ m m'

/-- Machines that do the same end with the same result, unless an internal error is raised. -/
theorem SameMachine.programResult?_eq (h : a.SameMachine wanted m m')
    (hm : ∀ e, m.focus = .failed e → e.isInternal = false) :
    (m'.programResult?.map fun (result, w) => (result, w.sink)) =
      m.programResult?.map fun (result, w) => (result, w.sink) := by
  cases h with
  | evaluate _ _ hfs | execute _ _ hfs => cases hfs <;> rfl
  | value hw _ hfs | completed hw _ hfs =>
    cases hfs with
    | basis => simp [Machine.programResult?, Machine.outcome?, hw.sink]
    | frame => rfl
  | failed hw he hfs =>
    obtain rfl := he (hm _ rfl)
    cases hfs with
    | basis => simp [Machine.programResult?, Machine.outcome?, hw.sink]
    | frame => rfl

/-- Programs that are the same but for an exchange start alike. A signal at top level is an internal
error, and those may differ. -/
theorem SameWorld.running {w w' : World} {p q : Program} (h : a.SameWorld w w')
    (hp : Reordered (.top p) (.top q)) :
    a.SameMachine .completion (.running p w) (.running q w') := by
  have htop : Lockstep.reordered.SameFrame a none none (.top 0 p) (.top 0 q) :=
    .top 0 0 (fun _ _ hordinary => by cases hordinary) hp.top_statements
  exact .completed h .normal (.frame htop rfl (.basis rfl rfl))

end Renaming

/-! ## Sessions -/

theorem Task.start_renamed {a : Renaming} {s : Session} (task : Task) (h : a.SameWorld s s) :
    ∃ wanted, a.SameMachine wanted (task.start s) (task.start s) := by
  cases task with
  | program p => exact ⟨.completion, h.running (.refl _)⟩
  | expression e => exact ⟨.value, .evaluate h ⟨rfl, .refl _⟩ (.basis rfl rfl)⟩

/-- All identities in a session have been given out before. -/
theorem Session.Reachable.renames {s : Session} (h : s.Reachable) :
    ∃ a : Renaming, a.SameWorld s s := by
  induction h with
  | new sink reading =>
    refine ⟨[0], ⟨.refl _, rfl, rfl, fun id x => ?_, rfl, fun id x => .none⟩,
      Renaming.sameEnv_iff.2 ⟨rfl, rfl⟩, rfl, rfl, rfl, rfl⟩
    cases id with
    | zero => exact (Bindings.Same.single Native.clock.name (.native .clock rfl)).find x
    | succ id => exact .none
  | answered hs hanswers ih =>
    obtain ⟨a, hsame⟩ := ih
    rcases performed_or_refused hanswers with ⟨_, _, rfl, _⟩ | ⟨task, _, n, _, rfl, _⟩
    · exact ⟨a, hsame⟩
    · obtain ⟨wanted, hstart⟩ := task.start_renamed hsame
      obtain ⟨a', -, hafter⟩ := hstart.after_follows n
      obtain ⟨g, hworld⟩ := hafter.world
      obtain ⟨rfl, -⟩ := Renaming.sameEnv_iff.1 hworld.env
      exact ⟨a', hworld⟩
  | limited maxDepth _ ih =>
    obtain ⟨a, hsame⟩ := ih
    exact ⟨a, { hsame with maxDepth := rfl }⟩
  | provided native _ ih =>
    obtain ⟨a, hsame⟩ := ih
    obtain ⟨a', -, hworld, hid⟩ := hsame.newId
    have hstore := hworld.store.define hworld.store.topEnv (by simp) native.name
      (.native native hid)
    exact ⟨a', hworld.withStore hstore hworld.env⟩

/-- The machine of a program that a session runs raises no internal error. -/
theorem Session.Reachable.ordinary {s : Session} (h : s.Reachable) {source : String} {task : Task}
    (htask : Request.run.task source = .ok task) (n : Nat) {e : Error}
    (he : ((task.start s).after n).focus = .failed e) : e.isInternal = false := by
  obtain ⟨shapes, hready⟩ := h.ready
  obtain ⟨shapes', -, hagrees⟩ := advances_task hready h.at_top.1 htask n
  generalize (task.start s).after n = m at he hagrees
  cases hagrees with
  | failed _ hordinary =>
    cases he
    exact hordinary
  | _ => cases he

/-- Two functions that stand next to each other in a block, or in the body of a function, a method
or an anonymous function, may be exchanged. -/
theorem sibling_functions_in_either_order {source : String} {p q : Program}
    (hp : parseProgram source = .ok p) (hq : resolveProgram p = .ok q) (way : Way) :
    resolveProgram (p.exchange way) = .ok (q.exchange way) ∧
      ∀ s : Session, s.Reachable → ∀ fuel,
        ((Session.runTree fuel (q.exchange way) s).map fun (result, s') => (result, s'.sink)) =
          (Session.runTree fuel q s).map fun (result, s') => (result, s'.sink) := by
  obtain ⟨hresolved, htidy⟩ := Program.resolved_exchange (resolved_of_resolveProgram hq) way
  refine ⟨by rw [resolveProgram, hresolved]; rfl, fun s hs fuel => ?_⟩
  obtain ⟨a, hsame⟩ := hs.renames
  have hstart : a.SameMachine .completion (.running q s) (.running (q.exchange way) s) :=
    hsame.running ⟨way, rfl, fun _ => htidy⟩
  have hparsed : parseProgram source >>= resolveProgram = .ok q := by
    rw [hp]
    exact hq
  have htask : Request.run.task source = .ok (.program q) := by
    rw [Request.task, Task.ofProgram, hparsed]
    rfl
  obtain ⟨a', -, hafter⟩ := hstart.after_follows fuel
  rw [Session.runTree, Session.runTree, Machine.run_eq_after, Machine.run_eq_after]
  exact Renaming.SameMachine.programResult?_eq hafter fun e => hs.ordinary htask fuel

/-- Two functions of a block that refer to each other, and are compared. A block has the line of
its first statement. -/
theorem sibling_functions_in_either_order_mutual :
    let source := "\x7b fun f() \x7b return g; \x7d\nfun g() \x7b return f; \x7d\n" ++
      "print f == g; print f() == g; print g; \x7d"
    let s := Session.new .unlimited fun _ => 0
    ∃ p q, parseProgram source = .ok p ∧ resolveProgram p = .ok q ∧
      p.map Stmt.line = [1] ∧ (p.exchange [0, 0]).map Stmt.line = [2] ∧
      ((Session.runTree 100 q s).map fun (result, s') => (result.isOk, s'.sink.written)) =
        some (true, "false\ntrue\n<fn g>\n".toUTF8) ∧
      resolveProgram (p.exchange [0, 0]) = .ok (q.exchange [0, 0]) ∧
      ((Session.runTree 100 (q.exchange [0, 0]) s).map fun (result, s') => (result, s'.sink)) =
        (Session.runTree 100 q s).map fun (result, s') => (result, s'.sink) := by
  intro source s
  have hcheck : ((parseProgram source).toOption.any fun p =>
      (resolveProgram p).toOption.any fun q => decide (p.map Stmt.line = [1] ∧
        (p.exchange [0, 0]).map Stmt.line = [2] ∧
        ((Session.runTree 100 q s).map fun (result, s') => (result.isOk, s'.sink.written)) =
          some (true, "false\ntrue\n<fn g>\n".toUTF8))) = true := by decide +kernel
  cases hp : parseProgram source with
  | error e =>
    rw [hp] at hcheck
    cases hcheck
  | ok p =>
    rw [hp] at hcheck
    cases hq : resolveProgram p with
    | error e =>
      simp only [Except.toOption, Option.any, hq] at hcheck
      cases hcheck
    | ok q =>
      simp only [Except.toOption, Option.any, hq] at hcheck
      obtain ⟨hline, hline', hrun⟩ := of_decide_eq_true hcheck
      obtain ⟨hresolved, hsame⟩ := sibling_functions_in_either_order hp hq [0, 0]
      exact ⟨p, q, rfl, hq, hline, hline', hrun, hresolved, hsame s (.new _ _) 100⟩

end Lox
