import Lox.Proofs.Machine.Conduct
import Lox.Proofs.Machine.Restoration

/-!
# The limit on open calls

Only a call looks at the limit, and only to fail. So two machines that differ in nothing but the
limit take the same steps until the one with the lower limit fails for want of room, and from such
a failure there is no way back.
-/

set_option autoImplicit false

namespace Lox

open Session (setMaxDepth)

namespace World
variable (w : World) (limit : Nat)

theorem setMaxDepth_defineFunction (decl : FunDecl) :
    (setMaxDepth w limit).defineFunction decl = setMaxDepth (w.defineFunction decl) limit := by
  unfold defineFunction
  split <;> rfl

theorem setMaxDepth_defineFunctions (body : List Stmt) :
    (setMaxDepth w limit).defineFunctions body = setMaxDepth (w.defineFunctions body) limit := by
  fun_induction defineFunctions w body with
  | case1 => rfl
  | case2 w decl rest ih =>
    rw [defineFunctions, setMaxDepth_defineFunction]
    exact ih
  | case3 w s rest hs ih =>
    rw [defineFunctions]
    · exact ih
    · exact hs

theorem setMaxDepth_assign (name : Ident) (v : Value) (slot : Slot) :
    (setMaxDepth w limit).assign name v slot =
      ((w.assign name v slot).1, setMaxDepth (w.assign name v slot).2 limit) := by
  unfold assign
  split <;> rfl

end World

namespace Machine

/-- The same machine under another limit. -/
def limited (m : Machine) (limit : Nat) : Machine :=
  ⟨m.focus, m.frames, setMaxDepth m.world limit⟩

/-- The machine has failed for want of room for a call. -/
def Overflowed (m : Machine) : Prop :=
  ∃ line, m.focus = .failed (.stackOverflow line)

section Functions
variable (frames : List Frame) (w : World) (limit : Nat)

theorem limited_ofResult (result : Except Error Value) :
    ofResult result frames (setMaxDepth w limit) = (ofResult result frames w).limited limit := by
  cases result <;> rfl

theorem limited_enterBody (body : List Stmt) :
    enterBody body frames (setMaxDepth w limit) = (enterBody body frames w).limited limit := by
  unfold enterBody
  rw [World.setMaxDepth_defineFunctions]
  rfl

theorem limited_enterFunction (closure : Closure) (arguments : List Value) :
    enterFunction closure arguments frames (setMaxDepth w limit) =
      (enterFunction closure arguments frames w).limited limit :=
  limited_enterBody (.restore w.env :: .finish closure :: frames)
    { (w.newScope (Bindings.empty.putAll (closure.decl.params.map Ident.name) arguments)).2 with
      env := w.store.scopes.size :: closure.env } limit closure.decl.body

theorem limited_callNative (native : Native) (arguments : List Value) (line : Nat) :
    callNative native arguments line frames (setMaxDepth w limit) =
      (callNative native arguments line frames w).limited limit := by
  unfold callNative
  split <;> rfl

theorem limited_instantiate (cls : Class) (arguments : List Value) :
    instantiate cls arguments frames (setMaxDepth w limit) =
      (instantiate cls arguments frames w).limited limit := by
  unfold instantiate
  dsimp only
  split
  · rfl
  · rename_i initializer _
    exact limited_enterFunction (.created (.object w.newObject.1 cls) :: frames)
      (w.newObject.2.bind initializer (.object w.newObject.1 cls)).2 limit
      (w.newObject.2.bind initializer (.object w.newObject.1 cls)).1 arguments

theorem limited_invoke (callee : Value) (arguments : List Value) (line : Nat) :
    invoke callee arguments line frames (setMaxDepth w limit) =
      (invoke callee arguments line frames w).limited limit := by
  unfold invoke
  split
  · apply limited_enterFunction
  · apply limited_enterFunction
  · apply limited_callNative
  · apply limited_instantiate
  · rfl

/-- A call that finds room finds room under a higher limit. -/
theorem limited_call (callee : Value) (arguments : List Value) (line : Nat)
    (hlimit : w.maxDepth ≤ limit) (h : ¬ Overflowed (call callee arguments line frames w)) :
    call callee arguments line frames (setMaxDepth w limit) =
      (call callee arguments line frames w).limited limit := by
  unfold call at h ⊢
  split
  · rfl
  · rename_i arity harity
    rw [harity] at h
    dsimp only at h
    split
    · rfl
    · rename_i hcount
      rw [if_neg hcount] at h
      by_cases hroom : w.maxDepth ≤ w.depth
      · rw [if_pos hroom] at h
        exact absurd ⟨line, rfl⟩ h
      · have hmore : ¬ (setMaxDepth w limit).maxDepth ≤ (setMaxDepth w limit).depth := by
          intro hfull
          exact hroom (Nat.le_trans hlimit hfull)
        rw [if_neg hroom, if_neg hmore]
        exact limited_invoke (.leave :: frames) { w with depth := w.depth + 1 } limit callee
          arguments line

theorem limited_makeClass (name : Ident) (superclass : Option Class) (methods : List FunDecl) :
    makeClass name superclass methods frames (setMaxDepth w limit) =
      (makeClass name superclass methods frames w).limited limit := by
  cases superclass with
  | none =>
    dsimp only [makeClass, setMaxDepth, World.define, World.newId]
    split <;> rfl
  | some parent =>
    dsimp only [makeClass, setMaxDepth, World.define, World.newScope, World.newId]
    split <;> rfl

theorem limited_getProperty (id : ObjectId) (cls : Class) (name : Ident) :
    getProperty id cls name frames (setMaxDepth w limit) =
      (getProperty id cls name frames w).limited limit := by
  dsimp only [getProperty, setMaxDepth]
  split
  · rfl
  split <;> rfl

theorem limited_evaluateSuper (line : Nat) (method : Ident) (slot : Slot) :
    evaluateSuper line method slot frames (setMaxDepth w limit) =
      (evaluateSuper line method slot frames w).limited limit := by
  have hparts : superParts line slot (setMaxDepth w limit) = superParts line slot w := rfl
  unfold evaluateSuper
  rw [hparts]
  split
  · rfl
  split <;> rfl

theorem limited_evaluate (e : Expr) :
    evaluate e frames (setMaxDepth w limit) = (evaluate e frames w).limited limit := by
  cases e with
  | «variable» name slot => exact limited_ofResult frames w limit (w.read name.name name.line slot)
  | this line slot => exact limited_ofResult frames w limit (w.read "this" line slot)
  | super line method slot => exact limited_evaluateSuper frames w limit line method slot
  | _ => rfl

theorem limited_execute (s : Stmt) :
    execute s frames (setMaxDepth w limit) = (execute s frames w).limited limit := by
  cases s with
  | var name initializer => cases initializer <;> rfl
  | block body =>
    exact limited_enterBody (.restore w.env :: frames)
      { (w.newScope .empty).2 with env := w.store.scopes.size :: w.env } limit body
  | function decl =>
    exact congrArg (Machine.mk (.completed .normal) frames)
      (w.setMaxDepth_defineFunction limit decl)
  | ret line value => cases value <;> rfl
  | classDecl name superclass methods =>
    cases superclass with
    | none => exact limited_makeClass frames w limit name none methods
    | some parent => rfl
  | _ => rfl

theorem limited_passValue (v : Value) (frame : Frame) (hlimit : w.maxDepth ≤ limit)
    (h : ¬ Overflowed (passValue v frame frames w)) :
    passValue v frame frames (setMaxDepth w limit) =
      (passValue v frame frames w).limited limit := by
  cases frame with
  | assign name slot =>
    dsimp only [passValue]
    rw [World.setMaxDepth_assign]
    dsimp only
    split <;> rfl
  | unary op line => exact limited_ofResult frames w limit (op.apply v line)
  | right op left line => exact limited_ofResult frames w limit (op.apply left v line)
  | logical op right =>
    unfold passValue
    dsimp only
    split <;> rfl
  | callee arguments line =>
    cases arguments with
    | nil => exact limited_call frames w limit v [] line hlimit h
    | cons first rest => rfl
  | argument callee before after line =>
    cases after with
    | nil => exact limited_call frames w limit callee _ line hlimit h
    | cons next rest => rfl
  | get name =>
    cases v with
    | object id cls => exact limited_getProperty frames w limit id cls name
    | _ => rfl
  | setTarget name value => cases v <;> rfl
  | print =>
    have hprint : (setMaxDepth w limit).print v.display =
        ((w.print v.display).1, setMaxDepth (w.print v.display).2 limit) := rfl
    dsimp only [passValue]
    rw [hprint]
    dsimp only
    split <;> rfl
  | branch thenBranch elseBranch =>
    unfold passValue
    dsimp only
    split
    · rfl
    split <;> rfl
  | test condition body =>
    unfold passValue
    dsimp only
    split <;> rfl
  | inherit name line methods =>
    cases v with
    | classRef cls => exact limited_makeClass frames w limit name (some cls) methods
    | _ => rfl
  | _ => rfl

theorem limited_passCompletion (c : Completion) (frame : Frame) :
    passCompletion c frame frames (setMaxDepth w limit) =
      (passCompletion c frame frames w).limited limit := by
  cases frame with
  | sequence rest =>
    cases rest with
    | nil => cases c <;> rfl
    | cons s rest => cases c <;> cases s <;> rfl
  | again condition body => cases c <;> rfl
  | finish closure => cases c <;> exact limited_ofResult frames w limit _
  | top line rest => cases rest <;> cases c <;> rfl
  | _ => cases c <;> rfl

theorem limited_passError (e : Error) (frame : Frame) :
    passError e frame frames (setMaxDepth w limit) =
      (passError e frame frames w).limited limit := by
  cases frame <;> rfl

end Functions

/-! ## Steps and runs -/

/-- A step that does not fail for want of room is the same step under a higher limit. -/
theorem limited_step {m : Machine} {limit : Nat} (hlimit : m.world.maxDepth ≤ limit)
    (h : ¬ Overflowed m.step) : (m.limited limit).step = m.step.limited limit := by
  obtain ⟨focus, frames, w⟩ := m
  cases focus with
  | evaluate e => exact limited_evaluate frames w limit e
  | execute s => exact limited_execute frames w limit s
  | value v =>
    cases frames with
    | nil => rfl
    | cons frame frames => exact limited_passValue frames w limit v frame hlimit h
  | completed c =>
    cases frames with
    | nil => rfl
    | cons frame frames => exact limited_passCompletion frames w limit c frame
  | failed e =>
    cases frames with
    | nil => rfl
    | cons frame frames => exact limited_passError frames w limit e frame

/-- No step recovers from an error. -/
theorem Overflowed.step {m : Machine} (h : Overflowed m) : Overflowed m.step := by
  obtain ⟨focus, frames, w⟩ := m
  obtain ⟨line, rfl⟩ := h
  cases frames with
  | nil => exact ⟨line, rfl⟩
  | cons frame frames =>
    refine ⟨line, ?_⟩
    change (passError _ frame frames w).focus = _
    cases frame <;> rfl

/-- A run that has not failed for want of room is the same run under a higher limit. -/
theorem limited_after {m : Machine} {limit : Nat} (hrun : InRun m.focus)
    (hlimit : m.world.maxDepth ≤ limit) {n : Nat} (h : ¬ Overflowed (m.after n)) :
    (m.limited limit).after n = (m.after n).limited limit := by
  induction n with
  | zero => rfl
  | succ n ih =>
    have hbefore : ¬ Overflowed (m.after n) := by
      intro hover
      exact h hover.step
    have hmax := (conducts_after hrun n).maxDepth
    change ((m.limited limit).after n).step = _
    rw [ih hbefore]
    exact limited_step (by rw [hmax]; exact hlimit) h

/-- How a run ends that does not fail for want of room, it ends under a higher limit. -/
theorem outcome?_limited {m : Machine} {limit : Nat} (hrun : InRun m.focus)
    (hlimit : m.world.maxDepth ≤ limit) {n : Nat} {o : Outcome} {w : World}
    (h : (m.after n).outcome? = some (o, w)) (hroom : ∀ line, o ≠ .failed (.stackOverflow line)) :
    ((m.limited limit).after n).outcome? = some (o, setMaxDepth w limit) := by
  have hover : ¬ Overflowed (m.after n) := by
    rintro ⟨line, hfocus⟩
    generalize m.after n = m' at h hfocus
    obtain ⟨focus, frames, w'⟩ := m'
    obtain rfl : focus = _ := hfocus
    cases frames with
    | cons frame frames => cases h
    | nil =>
      cases h
      exact hroom line rfl
  rw [limited_after hrun hlimit hover]
  generalize m.after n = m' at h
  obtain ⟨focus, frames, w'⟩ := m'
  cases frames with
  | cons frame frames => cases focus <;> cases h
  | nil => cases focus <;> cases h <;> rfl

end Machine

/-! ## Sessions -/

namespace Session

variable {s s' : Session} {limit limit' fuel : Nat}

theorem runTree_limited {p : Program} {result : Except Error Unit} (hle : limit ≤ limit')
    (h : runTree fuel p (s.setMaxDepth limit) = some (result, s'))
    (hroom : ∀ line, result ≠ .error (.stackOverflow line)) :
    runTree fuel p (s.setMaxDepth limit') = some (result, s'.setMaxDepth limit') := by
  unfold runTree Machine.programResult? at h ⊢
  rw [Machine.run_eq_after] at h ⊢
  obtain ⟨⟨o, w⟩, ho, hr⟩ := Option.map_eq_some_iff.mp h
  have hfailed (line : Nat) : o ≠ .failed (.stackOverflow line) := by
    rintro rfl
    cases hr
    exact hroom line rfl
  have hrun : Machine.InRun (Machine.running p (s.setMaxDepth limit)).focus := trivial
  have hlimited : Machine.running p (s.setMaxDepth limit') =
      (Machine.running p (s.setMaxDepth limit)).limited limit' := rfl
  rw [hlimited, Machine.outcome?_limited hrun hle ho hfailed]
  cases o <;> cases hr <;> rfl

theorem evaluateTree_limited {e : Expr} {result : Except Error Value} (hle : limit ≤ limit')
    (h : evaluateTree fuel e (s.setMaxDepth limit) = some (result, s'))
    (hroom : ∀ line, result ≠ .error (.stackOverflow line)) :
    evaluateTree fuel e (s.setMaxDepth limit') = some (result, s'.setMaxDepth limit') := by
  unfold evaluateTree Machine.valueResult? at h ⊢
  rw [Machine.run_eq_after] at h ⊢
  obtain ⟨⟨o, w⟩, ho, hr⟩ := Option.map_eq_some_iff.mp h
  have hfailed (line : Nat) : o ≠ .failed (.stackOverflow line) := by
    rintro rfl
    cases hr
    exact hroom line rfl
  have hrun : Machine.InRun (Machine.evaluating e (s.setMaxDepth limit)).focus := trivial
  have hlimited : Machine.evaluating e (s.setMaxDepth limit') =
      (Machine.evaluating e (s.setMaxDepth limit)).limited limit' := rfl
  rw [hlimited, Machine.outcome?_limited hrun hle ho hfailed]
  cases o <;> cases hr <;> rfl

theorem run_limited {source : String} {result : Except Error Unit} (hle : limit ≤ limit')
    (h : run fuel source (s.setMaxDepth limit) = some (result, s'))
    (hroom : ∀ line, result ≠ .error (.stackOverflow line)) :
    run fuel source (s.setMaxDepth limit') = some (result, s'.setMaxDepth limit') := by
  unfold run at h ⊢
  split
  · rename_i e he
    rw [he] at h
    cases h
    rfl
  · rename_i p hp
    rw [hp] at h
    exact runTree_limited hle h hroom

theorem evaluate_limited {source : String} {result : Except Error Value} (hle : limit ≤ limit')
    (h : evaluate fuel source (s.setMaxDepth limit) = some (result, s'))
    (hroom : ∀ line, result ≠ .error (.stackOverflow line)) :
    evaluate fuel source (s.setMaxDepth limit') = some (result, s'.setMaxDepth limit') := by
  unfold evaluate at h ⊢
  split
  · rename_i e he
    rw [he] at h
    cases h
    rfl
  · rename_i e he
    rw [he] at h
    exact evaluateTree_limited hle h hroom

theorem runLine_limited {source : String} {result : Except Error (Option Value)}
    (hle : limit ≤ limit')
    (h : runLine fuel source (s.setMaxDepth limit) = some (result, s'))
    (hroom : ∀ line, result ≠ .error (.stackOverflow line)) :
    runLine fuel source (s.setMaxDepth limit') = some (result, s'.setMaxDepth limit') := by
  unfold runLine at h ⊢
  split
  · rename_i e he
    rw [he] at h
    cases h
    rfl
  · rename_i task htask
    rw [htask] at h
    cases task with
    | program p =>
      obtain ⟨⟨r, w⟩, hr, hpair⟩ := Option.map_eq_some_iff.mp h
      cases hpair
      have hfailed (line : Nat) : r ≠ .error (.stackOverflow line) := by
        rintro rfl
        exact hroom line rfl
      have hrun := runTree_limited (p := p) hle hr hfailed
      exact Option.map_eq_some_iff.mpr ⟨_, hrun, rfl⟩
    | expression e =>
      obtain ⟨⟨r, w⟩, hr, hpair⟩ := Option.map_eq_some_iff.mp h
      cases hpair
      have hfailed (line : Nat) : r ≠ .error (.stackOverflow line) := by
        rintro rfl
        exact hroom line rfl
      have hrun := evaluateTree_limited (e := e) hle hr hfailed
      exact Option.map_eq_some_iff.mpr ⟨_, hrun, rfl⟩

/-- At no moment are more calls open than the limit allows. -/
theorem Reachable.depth_le (hs : s.Reachable) (limit : Nat) (task : Task) (n : Nat) :
    ((task.start (s.setMaxDepth limit)).after n).world.depth ≤ limit := by
  have hstart : Machine.InRun (task.start (s.setMaxDepth limit)).focus := by
    cases task <;> trivial
  have hworld : (task.start (s.setMaxDepth limit)).world = s.setMaxDepth limit := by
    cases task <;> rfl
  have hdepth := (Machine.conducts_after hstart n).depth
  have hzero : (s.setMaxDepth limit).depth = 0 := hs.at_top.2
  have hmax : (s.setMaxDepth limit).maxDepth = limit := rfl
  rw [hworld, hzero, hmax] at hdepth
  omega

/-- A run that ends under a limit, but not for want of room, ends in the same way under any higher
limit and leaves the same session. Under a limit no more calls than that are ever open. -/
theorem raised_limit_only_removes_overflows {s : Session} (hs : s.Reachable) (source : String)
    {limit limit' : Nat} (hle : limit ≤ limit') :
    (∀ fuel result s', run fuel source (s.setMaxDepth limit) = some (result, s') →
      (∀ line, result ≠ .error (.stackOverflow line)) →
      run fuel source (s.setMaxDepth limit') = some (result, s'.setMaxDepth limit')) ∧
    (∀ fuel result s', evaluate fuel source (s.setMaxDepth limit) = some (result, s') →
      (∀ line, result ≠ .error (.stackOverflow line)) →
      evaluate fuel source (s.setMaxDepth limit') = some (result, s'.setMaxDepth limit')) ∧
    (∀ fuel result s', runLine fuel source (s.setMaxDepth limit) = some (result, s') →
      (∀ line, result ≠ .error (.stackOverflow line)) →
      runLine fuel source (s.setMaxDepth limit') = some (result, s'.setMaxDepth limit')) ∧
    (∀ (request : Request) task, request.task source = .ok task →
      ∀ n, ((task.start (s.setMaxDepth limit)).after n).world.depth ≤ limit) := by
  refine ⟨?_, ?_, ?_, ?_⟩
  · intro fuel result s' h hroom
    exact run_limited hle h hroom
  · intro fuel result s' h hroom
    exact evaluate_limited hle h hroom
  · intro fuel result s' h hroom
    exact runLine_limited hle h hroom
  · intro request task _ n
    exact hs.depth_le limit task n

/-- Two nested calls, which a limit of one is too low for and a limit of two is not. -/
theorem raised_limit_only_removes_overflows_nested :
    let source := "fun f() \x7b \x7d fun g() \x7b f(); \x7d g();"
    let s := Session.new .unlimited fun _ => 0
    ((run 60 source (s.setMaxDepth 1)).any fun r => r.1.isOk) = false ∧
      ∃ s', run 60 source (s.setMaxDepth 2) = some (.ok (), s') ∧
        run 60 source (s.setMaxDepth 9) = some (.ok (), s'.setMaxDepth 9) := by
  intro source s
  refine ⟨by decide +kernel, ?_⟩
  have hok : ((run 60 source (s.setMaxDepth 2)).any fun r => r.1.isOk) = true := by decide +kernel
  cases hrun : run 60 source (s.setMaxDepth 2) with
  | none =>
    rw [hrun] at hok
    cases hok
  | some answer =>
    obtain ⟨result, s'⟩ := answer
    cases result with
    | error e =>
      rw [hrun] at hok
      cases hok
    | ok u =>
      refine ⟨s', rfl, ?_⟩
      exact (raised_limit_only_removes_overflows (.new .unlimited fun _ => 0) source
        (by decide : 2 ≤ 9)).1 60 (.ok ()) s' hrun (fun line h => by cases h)

end Session

end Lox
