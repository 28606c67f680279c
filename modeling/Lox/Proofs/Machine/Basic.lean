import Lox.Machine.Step
import Lox.Session

/-!
# Machines step by step

A run is an iteration of single steps, because a machine with nothing left to do stays as it is.
What the actions of a world leave alone, the scopes in force and the number of open calls above
all, is stated here once, so that proofs about steps need not open them.
-/

set_option autoImplicit false

namespace Lox

namespace World

variable (w : World)

@[simp] theorem reset_eq_self (henv : w.env = topEnv) (hdepth : w.depth = 0) : w.reset = w := by
  cases w
  simp_all [reset]

@[simp] theorem env_defineFunction (decl : FunDecl) : (w.defineFunction decl).env = w.env := by
  unfold defineFunction
  split <;> rfl

@[simp] theorem depth_defineFunction (decl : FunDecl) :
    (w.defineFunction decl).depth = w.depth := by
  unfold defineFunction
  split <;> rfl

@[simp] theorem env_defineFunctions (body : List Stmt) : (w.defineFunctions body).env = w.env := by
  fun_induction defineFunctions w body with
  | case1 => rfl
  | case2 w decl rest ih => rw [ih, env_defineFunction]
  | case3 w s rest _ ih => exact ih

@[simp] theorem depth_defineFunctions (body : List Stmt) :
    (w.defineFunctions body).depth = w.depth := by
  fun_induction defineFunctions w body with
  | case1 => rfl
  | case2 w decl rest ih => rw [ih, depth_defineFunction]
  | case3 w s rest _ ih => exact ih

@[simp] theorem env_assign (name : Ident) (v : Value) (slot : Slot) :
    (w.assign name v slot).2.env = w.env := by
  unfold assign
  split <;> rfl

@[simp] theorem depth_assign (name : Ident) (v : Value) (slot : Slot) :
    (w.assign name v slot).2.depth = w.depth := by
  unfold assign
  split <;> rfl

end World

namespace Machine

/-- The machine after `n` steps. -/
def after (m : Machine) : Nat → Machine
  | 0 => m
  | n + 1 => (m.after n).step

theorem after_succ (m : Machine) (n : Nat) : m.after (n + 1) = m.step.after n := by
  induction n with
  | zero => rfl
  | succ n ih => exact congrArg step ih

theorem after_add (m : Machine) (i n : Nat) : m.after (i + n) = (m.after i).after n := by
  induction n with
  | zero => rfl
  | succ n ih => exact congrArg step ih

theorem step_eq_self_of_isFinal {m : Machine} (h : m.isFinal = true) : m.step = m := by
  obtain ⟨focus, frames, w⟩ := m
  cases frames with
  | nil =>
    cases focus with
    | evaluate | execute => cases h
    | value | completed | failed => rfl
  | cons frame frames => cases focus <;> cases h

theorem after_eq_self_of_isFinal {m : Machine} (h : m.isFinal = true) (n : Nat) :
    m.after n = m := by
  induction n with
  | zero => rfl
  | succ n ih => rw [after_succ, step_eq_self_of_isFinal h, ih]

theorem run_eq_after (fuel : Nat) (m : Machine) : m.run fuel = m.after fuel := by
  induction fuel generalizing m with
  | zero => rfl
  | succ fuel ih =>
    by_cases h : m.isFinal = true
    · rw [run, if_pos h, after_eq_self_of_isFinal h]
    · rw [run, if_neg h, ih, after_succ]

theorem passCompletion_sequence {s : Stmt} (hs : s.isFunction = false) (rest : List Stmt)
    (frames : List Frame) (w : World) :
    passCompletion .normal (.sequence (s :: rest)) frames w =
      ⟨.execute s, .sequence rest :: frames, w⟩ := by
  cases s with
  | function decl => cases hs
  | _ => rfl

theorem passCompletion_sequence_of_ne {k : Completion} (hk : k ≠ .normal) (rest : List Stmt)
    (frames : List Frame) (w : World) :
    passCompletion k (.sequence rest) frames w = ⟨.completed k, frames, w⟩ := by
  cases k with
  | normal => exact absurd rfl hk
  | broken | returned =>
    rcases rest with _ | ⟨s, rest⟩
    · rfl
    · cases s <;> rfl

/-- The last part of the declaration of a class, whose methods see the scopes `env`. -/
def finishClass (name : Ident) (env : Env) (inherited : List Layer) (methods : List FunDecl)
    (frames : List Frame) (w : World) : Machine :=
  let cls : Class := ⟨⟨w.newId.1, name.name, methodTable env methods⟩, inherited⟩
  let assigned := w.newId.2.store.assign w.newId.2.env name.name (.classRef cls) name.line
  match assigned.1 with
  | .ok () => ⟨.completed .normal, frames, { w.newId.2 with store := assigned.2 }⟩
  | .error e => failing e frames { w.newId.2 with store := assigned.2 }

theorem makeClass_none (name : Ident) (methods : List FunDecl) (frames : List Frame) (w : World) :
    makeClass name none methods frames w =
      finishClass name w.env [] methods frames (w.define name.name .nil) :=
  rfl

theorem makeClass_some (name : Ident) (parent : Class) (methods : List FunDecl)
    (frames : List Frame) (w : World) :
    makeClass name (some parent) methods frames w =
      finishClass name ((w.define name.name .nil).store.scopes.size :: w.env)
        (parent.own :: parent.inherited) methods frames
        ((w.define name.name .nil).newScope (.single "super" (.classRef parent))).2 :=
  rfl

/-- The last statement of the top level has completed. -/
def AtEnd (m : Machine) : Prop :=
  ∃ line frames w, m = ⟨.completed .normal, .top line [] :: frames, w⟩

theorem passCompletion_top_of_ne {k : Completion} (hk : k ≠ .normal) (line : Nat) (rest : List Stmt)
    (frames : List Frame) (w : World) :
    passCompletion k (.top line rest) frames w =
      failing (.internal (.signalAtTop (inspectCompletion w k) line)) frames w := by
  cases k with
  | normal => exact absurd rfl hk
  | broken | returned => cases rest <;> rfl

/-- A property that every step keeps holds after any number of steps. -/
theorem after_invariant {P : Machine → Prop} (hstep : ∀ m, P m → P m.step) {m : Machine}
    (h : P m) (n : Nat) : P (m.after n) := by
  induction n with
  | zero => exact h
  | succ n ih => exact hstep _ ih

end Machine

end Lox
