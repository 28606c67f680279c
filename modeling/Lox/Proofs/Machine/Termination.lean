import Mathlib.Data.DFinsupp.WellFounded
import Lox.Proofs.Machine.Restoration

/-!
# Work that is left

The frames of a machine belong to levels, one for each open call. What a level has left to do is
measured by the size of the syntax that waits in it. A step that neither starts a loop nor goes
round one takes something away from a level and adds at most to levels further in, namely to the
level of the call that it opens. With a limit on the number of levels this cannot go on forever:
the levels from the outermost on decrease in the lexicographic order.
-/

set_option autoImplicit false

namespace Lox

/-! ## Weights -/

/-- What is left to do about the focus itself. -/
noncomputable def Focus.weight : Focus → Nat
  | .evaluate e => 3 * sizeOf e
  | .execute s => 3 * sizeOf s
  | .value _ | .completed _ | .failed _ => 0

/-- What is left to do once a frame has what it waits for, and the step that gives it this. -/
noncomputable def Frame.weight : Frame → Nat
  | .left _ operand _ => 3 * sizeOf operand + 2
  | .logical _ operand => 3 * sizeOf operand + 1
  | .callee arguments _ => 3 * sizeOf arguments + 1
  | .argument _ _ after _ => 3 * sizeOf after + 1
  | .setTarget _ value => 3 * sizeOf value + 2
  | .branch thenBranch elseBranch => 3 * sizeOf thenBranch + 3 * sizeOf elseBranch + 1
  | .sequence rest => 3 * sizeOf rest + 1
  | .top _ rest => 3 * sizeOf rest + 1
  | _ => 1

theorem Frame.weight_pos (frame : Frame) : 0 < frame.weight := by
  cases frame <;> simp [Frame.weight]

namespace Machine

/-- What the frames of a level have left to do. The level of a frame is the number of calls that
end within it and the frames outside it. -/
noncomputable def framesWork : List Frame → Nat → Nat
  | [], _ => 0
  | frame :: frames, level =>
    (if openCalls (frame :: frames) = level then frame.weight else 0) + framesWork frames level

/-- What a level has left to do if the focus is that of a machine with these frames. -/
noncomputable def workOn (focus : Focus) (frames : List Frame) (level : Nat) : Nat :=
  (if openCalls frames = level then focus.weight else 0) + framesWork frames level

noncomputable def work (m : Machine) (level : Nat) : Nat :=
  workOn m.focus m.frames level

section Levels
variable (inner base : List Frame)

/-- Frames on top of others leave the work of the levels below alone. -/
theorem framesWork_append_of_lt {level : Nat} (h : level < openCalls base) :
    framesWork (inner ++ base) level = framesWork base level := by
  induction inner with
  | nil => rfl
  | cons frame inner ih =>
    have hlevel : openCalls (frame :: (inner ++ base)) ≠ level := by
      rw [openCalls, openCalls_append]
      omega
    rw [List.cons_append, framesWork, if_neg hlevel, ih, Nat.zero_add]

/-- Frames on top of others have levels from those on. -/
theorem framesWork_append (k : Nat) :
    framesWork (inner ++ base) (openCalls base + k) =
      framesWork inner k + framesWork base (openCalls base + k) := by
  induction inner with
  | nil => simp [framesWork]
  | cons frame inner ih =>
    have hlevel : openCalls (frame :: (inner ++ base)) = openCalls base + k ↔
        openCalls (frame :: inner) = k := by
      rw [openCalls, openCalls_append, openCalls]
      omega
    simp only [List.cons_append, framesWork, hlevel, ih, Nat.add_assoc]

theorem workOn_append_of_lt (focus : Focus) {level : Nat} (h : level < openCalls base) :
    workOn focus (inner ++ base) level = framesWork base level := by
  have hlevel : openCalls (inner ++ base) ≠ level := by
    rw [openCalls_append]
    omega
  rw [workOn, if_neg hlevel, framesWork_append_of_lt inner base h, Nat.zero_add]

theorem workOn_append (focus : Focus) (k : Nat) :
    workOn focus (inner ++ base) (openCalls base + k) =
      workOn focus inner k + framesWork base (openCalls base + k) := by
  have hlevel : openCalls (inner ++ base) = openCalls base + k ↔ openCalls inner = k := by
    rw [openCalls_append]
    omega
  simp only [workOn, hlevel, framesWork_append, Nat.add_assoc]

end Levels

/-! ## What a step spends

The lemmas of this section say that what is done on top of `base` weighs less than the focus or
frame that the step deals with. -/

/-- The machine works on top of `base`, and what it has to do at the level there weighs less than
`n`. -/
def Spends (base : List Frame) (n : Nat) (m : Machine) : Prop :=
  ∃ inner, m.frames = inner ++ base ∧ workOn m.focus inner 0 < n

/-- The machine has a result for `base`. -/
def Idle (base : List Frame) (m : Machine) : Prop :=
  m.frames = base ∧ m.focus.weight = 0

section Spending
variable {base : List Frame} {w : World} {n : Nat}

theorem Idle.spends {m : Machine} (h : Idle base m) (hn : 0 < n) : Spends base n m := by
  refine ⟨[], h.1, ?_⟩
  rw [workOn, h.2]
  simpa [framesWork] using hn

theorem idle_ofResult (result : Except Error Value) : Idle base (ofResult result base w) := by
  cases result with
  | ok v => exact ⟨rfl, rfl⟩
  | error e => exact ⟨rfl, rfl⟩

theorem spends_focus {focus : Focus} (h : focus.weight < n) : Spends base n ⟨focus, base, w⟩ :=
  ⟨[], rfl, by simpa [workOn, framesWork, openCalls] using h⟩

theorem spends_push {focus : Focus} {frame : Frame} (h : focus.weight + frame.weight < n)
    (hcalls : frame.calls = 0) : Spends base n ⟨focus, frame :: base, w⟩ :=
  ⟨[frame], rfl, by simpa [workOn, framesWork, openCalls, hcalls] using h⟩

/-- The body of a call is work for another level. -/
theorem spends_call (callee : Value) (arguments : List Value) (line : Nat) (hn : 0 < n) :
    Spends base n (call callee arguments line base w) := by
  unfold call
  split
  · exact Idle.spends ⟨rfl, rfl⟩ hn
  split
  · exact Idle.spends ⟨rfl, rfl⟩ hn
  split
  · exact Idle.spends ⟨rfl, rfl⟩ hn
  · obtain ⟨inner, hframes, -⟩ :=
      above_invoke (.leave :: base) { w with depth := w.depth + 1 } callee arguments line
    refine ⟨inner ++ [.leave], by rw [hframes, List.append_assoc]; rfl, ?_⟩
    rw [workOn_append_of_lt inner [.leave] _ (by decide)]
    exact hn

theorem idle_makeClass (name : Ident) (superclass : Option Class) (methods : List FunDecl) :
    Idle base (makeClass name superclass methods base w) := by
  have hfinish (env : Env) (inherited : List Layer) (w : World) :
      Idle base (finishClass name env inherited methods base w) := by
    unfold finishClass
    dsimp only
    split
    · exact ⟨rfl, rfl⟩
    · exact ⟨rfl, rfl⟩
  cases superclass with
  | none =>
    rw [makeClass_none]
    exact hfinish _ _ _
  | some parent =>
    rw [makeClass_some]
    exact hfinish _ _ _

theorem idle_getProperty (id : ObjectId) (cls : Class) (name : Ident) :
    Idle base (getProperty id cls name base w) := by
  unfold getProperty
  split
  · exact ⟨rfl, rfl⟩
  split
  · exact ⟨rfl, rfl⟩
  · exact ⟨rfl, rfl⟩

theorem idle_evaluateSuper (line : Nat) (method : Ident) (slot : Slot) :
    Idle base (evaluateSuper line method slot base w) := by
  unfold evaluateSuper
  split
  · exact ⟨rfl, rfl⟩
  split
  · exact ⟨rfl, rfl⟩
  · exact ⟨rfl, rfl⟩

theorem spends_evaluate (e : Expr) : Spends base (3 * sizeOf e) (evaluate e base w) := by
  have hpos : 0 < 3 * sizeOf e := by cases e <;> simp +arith
  cases e with
  | literal value line => exact Idle.spends ⟨rfl, rfl⟩ hpos
  | «variable» name slot => exact (idle_ofResult _).spends hpos
  | this line slot => exact (idle_ofResult _).spends hpos
  | super line method slot => exact (idle_evaluateSuper line method slot).spends hpos
  | lambda decl => exact Idle.spends ⟨rfl, rfl⟩ hpos
  | group inner =>
    apply spends_focus
    simp +arith [Focus.weight]
  | _ =>
    apply spends_push
    · simp +arith [Focus.weight, Frame.weight]
    · rfl

/-- A block weighs more than its statements and the step back to the scopes outside it. -/
theorem spends_block (body : List Stmt) :
    Spends base (3 * sizeOf (Stmt.block body)) (execute (.block body) base w) := by
  refine ⟨[.sequence body, .restore w.env], rfl, ?_⟩
  change 0 + framesWork [.sequence body, .restore w.env] 0 < _
  simp +arith [framesWork, openCalls, Frame.calls, Frame.weight]

theorem spends_execute (s : Stmt) (hs : ∀ c b, s ≠ .loop c b) :
    Spends base (3 * sizeOf s) (execute s base w) := by
  have hpos : 0 < 3 * sizeOf s := by cases s <;> simp +arith
  cases s with
  | loop condition body => exact absurd rfl (hs condition body)
  | block body => exact spends_block body
  | function decl => exact Idle.spends ⟨rfl, rfl⟩ hpos
  | brk line => exact Idle.spends ⟨rfl, rfl⟩ hpos
  | var name value | ret line value =>
    cases value with
    | none => exact Idle.spends ⟨rfl, rfl⟩ hpos
    | some value =>
      apply spends_push
      · simp +arith [Focus.weight, Frame.weight]
      · rfl
  | classDecl name superclass methods =>
    rcases superclass with _ | ⟨parent, slot⟩
    · exact (idle_makeClass name none methods).spends hpos
    · apply spends_push
      · simp +arith [Focus.weight, Frame.weight]
      · rfl
  | expression | print | cond =>
    apply spends_push
    · simp +arith [Focus.weight, Frame.weight]
    · rfl

theorem spends_passValue (v : Value) (frame : Frame) (htest : ∀ c b, frame ≠ .test c b) :
    Spends base frame.weight (passValue v frame base w) := by
  have hpos := frame.weight_pos
  cases frame with
  | test condition body => exact absurd rfl (htest condition body)
  | assign name slot =>
    unfold passValue
    dsimp only
    split
    · exact Idle.spends ⟨rfl, rfl⟩ hpos
    · exact Idle.spends ⟨rfl, rfl⟩ hpos
  | unary op line => exact (idle_ofResult _).spends hpos
  | right op left line => exact (idle_ofResult _).spends hpos
  | left op right line =>
    apply spends_push
    · simp +arith [Focus.weight, Frame.weight]
    · rfl
  | logical op right =>
    unfold passValue
    dsimp only
    split
    · exact Idle.spends ⟨rfl, rfl⟩ hpos
    · apply spends_focus
      simp +arith [Focus.weight, Frame.weight]
  | callee arguments line =>
    cases arguments with
    | nil => exact spends_call v [] line hpos
    | cons first rest =>
      apply spends_push
      · simp +arith [Focus.weight, Frame.weight]
      · rfl
  | argument callee before after line =>
    cases after with
    | nil => exact spends_call callee _ line hpos
    | cons next rest =>
      apply spends_push
      · simp +arith [Focus.weight, Frame.weight]
      · rfl
  | get name =>
    cases v with
    | object id cls => exact (idle_getProperty id cls name).spends hpos
    | _ => exact Idle.spends ⟨rfl, rfl⟩ hpos
  | setTarget name value =>
    cases v with
    | object id cls =>
      apply spends_push
      · simp +arith [Focus.weight, Frame.weight]
      · rfl
    | _ => exact Idle.spends ⟨rfl, rfl⟩ hpos
  | print =>
    unfold passValue
    dsimp only
    split
    · exact Idle.spends ⟨rfl, rfl⟩ hpos
    · exact Idle.spends ⟨rfl, rfl⟩ hpos
  | branch thenBranch elseBranch =>
    unfold passValue
    dsimp only
    split
    · apply spends_focus
      simp +arith [Focus.weight, Frame.weight]
    split
    · apply spends_focus
      simp +arith [Focus.weight, Frame.weight]
    · exact Idle.spends ⟨rfl, rfl⟩ hpos
  | inherit name line methods =>
    cases v with
    | classRef cls => exact (idle_makeClass name (some cls) methods).spends hpos
    | _ => exact Idle.spends ⟨rfl, rfl⟩ hpos
  | _ => exact Idle.spends ⟨rfl, rfl⟩ hpos

/-- A statement weighs less than a list that it is the first of, together with the rest. -/
theorem spends_first (s : Stmt) (rest : List Stmt) {frame : Frame}
    (hframe : frame.weight = 3 * sizeOf rest + 1) (hcalls : frame.calls = 0) :
    Spends base (3 * sizeOf (s :: rest) + 1) ⟨.execute s, frame :: base, w⟩ := by
  apply spends_push _ hcalls
  rw [hframe]
  simp +arith [Focus.weight]

theorem spends_passCompletion (c : Completion) (frame : Frame) (hagain : ∀ e b, frame ≠ .again e b) :
    Spends base frame.weight (passCompletion c frame base w) := by
  have hpos := frame.weight_pos
  cases frame with
  | again condition body => exact absurd rfl (hagain condition body)
  | finish closure => exact (idle_ofResult _).spends hpos
  | sequence rest =>
    by_cases hc : c = .normal
    · subst hc
      cases rest with
      | nil => exact Idle.spends ⟨rfl, rfl⟩ hpos
      | cons s rest =>
        by_cases hs : s.isFunction = true
        · cases s with
          | function decl =>
            apply spends_push
            · simp +arith [Focus.weight, Frame.weight]
            · rfl
          | _ => cases hs
        · rw [passCompletion_sequence (eq_false_of_ne_true hs)]
          exact spends_first s rest rfl rfl
    · rw [passCompletion_sequence_of_ne hc]
      exact Idle.spends ⟨rfl, rfl⟩ hpos
  | top line rest =>
    by_cases hc : c = .normal
    · subst hc
      cases rest with
      | nil => exact Idle.spends ⟨rfl, rfl⟩ hpos
      | cons s rest => exact spends_first s rest rfl rfl
    · rw [passCompletion_top_of_ne hc]
      exact Idle.spends ⟨rfl, rfl⟩ hpos
  | _ => exact Idle.spends ⟨rfl, rfl⟩ hpos

theorem idle_passError (e : Error) (frame : Frame) : Idle base (passError e frame base w) := by
  cases frame <;> exact ⟨rfl, rfl⟩

end Spending

/-! ## The order -/

/-- One of the levels up to `limit` has less to do, and the levels outside it have as much as
before. -/
def Below (limit : Nat) (m' m : Machine) : Prop :=
  ∃ level ≤ limit, (∀ outer < level, m'.work outer = m.work outer) ∧ m'.work level < m.work level

theorem wellFounded_below (limit : Nat) : WellFounded (Below limit) := by
  have hlex : WellFounded (Pi.Lex (fun i j : Fin (limit + 1) => i < j)
      (fun {_} (a b : Nat) => a < b)) :=
    Pi.Lex.wellFounded _ fun _ => Nat.lt_wfRel.wf
  refine Subrelation.wf ?_ (InvImage.wf (fun m (i : Fin (limit + 1)) => m.work i) hlex)
  rintro m' m ⟨level, hlevel, hsame, hless⟩
  exact ⟨⟨level, Nat.lt_succ_of_le hlevel⟩, fun outer houter => hsame outer houter, hless⟩

/-- Spending less than a level had left to do on top of `base`. -/
theorem Spends.below {base : List Frame} {n limit : Nat} {m m' : Machine}
    (h : Spends base n m') (inner : List Frame) (hframes : m.frames = inner ++ base)
    (hn : n ≤ workOn m.focus inner 0) (hlimit : openCalls base ≤ limit) : Below limit m' m := by
  obtain ⟨inner', hframes', hless⟩ := h
  refine ⟨openCalls base, hlimit, ?_, ?_⟩
  · intro outer houter
    rw [work, work, hframes, hframes', workOn_append_of_lt inner' base _ houter,
      workOn_append_of_lt inner base _ houter]
  · have hafter := workOn_append inner' base m'.focus 0
    have hbefore := workOn_append inner base m.focus 0
    rw [Nat.add_zero] at hafter hbefore
    rw [work, work, hframes, hframes', hafter, hbefore]
    omega

/-- The end of a call takes its frame away from the level of the call. -/
theorem Idle.below_leave {base : List Frame} {limit : Nat} {focus : Focus} {w : World} {m' : Machine}
    (h : Idle base m') (hfocus : focus.weight = 0) (hlimit : openCalls (.leave :: base) ≤ limit) :
    Below limit m' ⟨focus, .leave :: base, w⟩ := by
  have hafter (level : Nat) : m'.work level = framesWork base level := by
    rw [work, workOn, h.1, h.2, ite_self, Nat.zero_add]
  have hbefore (level : Nat) : work ⟨focus, .leave :: base, w⟩ level =
      (if openCalls (.leave :: base) = level then 1 else 0) + framesWork base level := by
    rw [work, workOn, hfocus, ite_self, Nat.zero_add]
    rfl
  refine ⟨openCalls (.leave :: base), hlimit, ?_, ?_⟩
  · intro outer houter
    rw [hafter, hbefore, if_neg (Nat.ne_of_gt houter), Nat.zero_add]
  · rw [hafter, hbefore, if_pos rfl]
    omega

/-- A result passes a frame. -/
theorem Spends.below_pass {frames : List Frame} {frame : Frame} {limit : Nat} {focus : Focus}
    {w : World} {m' : Machine} (h : Spends frames frame.weight m') (hfocus : focus.weight = 0)
    (hleave : frame = .leave → Idle frames m') (hlimit : openCalls (frame :: frames) ≤ limit) :
    Below limit m' ⟨focus, frame :: frames, w⟩ := by
  by_cases hcall : frame = .leave
  · subst hcall
    exact (hleave rfl).below_leave hfocus hlimit
  · have hcalls : frame.calls = 0 := by
      cases frame with
      | leave => exact absurd rfl hcall
      | _ => rfl
    apply h.below [frame] rfl
    · simp [workOn, framesWork, openCalls, hcalls, hfocus]
    · exact Nat.le_trans (Nat.le_add_left _ _) hlimit

/-! ## Steps and runs -/

/-- The next step starts a loop or goes round one. -/
def isLooping : Machine → Bool
  | ⟨.execute (.loop _ _), _, _⟩ => true
  | ⟨.value _, .test _ _ :: _, _⟩ => true
  | ⟨.completed _, .again _ _ :: _, _⟩ => true
  | _ => false

/-- Every step has less left to do, loops apart. -/
theorem below_step {m : Machine} {limit : Nat} (hlimit : openCalls m.frames ≤ limit)
    (hbusy : m.isFinal = false) (hloop : m.isLooping = false) : Below limit m.step m := by
  obtain ⟨focus, frames, w⟩ := m
  cases focus with
  | evaluate e => exact (spends_evaluate e).below [] rfl (Nat.le_refl _) hlimit
  | execute s =>
    refine (spends_execute s ?_).below [] rfl (Nat.le_refl _) hlimit
    rintro c b rfl
    cases hloop
  | value v =>
    cases frames with
    | nil => cases hbusy
    | cons frame frames =>
      refine (spends_passValue v frame ?_).below_pass rfl ?_ hlimit
      · rintro c b rfl
        cases hloop
      · rintro rfl
        exact ⟨rfl, rfl⟩
  | completed c =>
    cases frames with
    | nil => cases hbusy
    | cons frame frames =>
      refine (spends_passCompletion c frame ?_).below_pass rfl ?_ hlimit
      · rintro e b rfl
        cases hloop
      · rintro rfl
        exact ⟨rfl, rfl⟩
  | failed e =>
    cases frames with
    | nil => cases hbusy
    | cons frame frames =>
      have hidle : Idle frames (passError e frame frames w) := idle_passError e frame
      exact (hidle.spends frame.weight_pos).below_pass rfl (fun _ => hidle) hlimit

/-- A machine that never has more than `limit` calls open and never gets to a loop comes to its
end. -/
theorem halts (limit : Nat) (m : Machine) (hlimit : ∀ n, openCalls (m.after n).frames ≤ limit)
    (hloop : ∀ n, (m.after n).isLooping = false) : ∃ n, (m.after n).isFinal = true := by
  induction m using (wellFounded_below limit).induction with
  | h m ih =>
    cases hfinal : m.isFinal with
    | true => exact ⟨0, hfinal⟩
    | false =>
      obtain ⟨n, hn⟩ := ih m.step (below_step (hlimit 0) hfinal (hloop 0))
        (fun n => by rw [← after_succ]; exact hlimit (n + 1))
        (fun n => by rw [← after_succ]; exact hloop (n + 1))
      exact ⟨n + 1, by rwa [after_succ]⟩

end Machine

end Lox
