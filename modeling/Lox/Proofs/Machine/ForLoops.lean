import Lox.Proofs.Grammar.Derivation
import Lox.Proofs.Lockstep.Machine
import Lox.Proofs.Widening.World

/-!
# Loops with an initializer and an increment

A `for` loop runs its initializer once, in a scope of its own. Then it evaluates its condition,
executes its body and evaluates its increment, turn by turn, until the condition fails or the body
does not complete normally. The language has no such loop: a `for` loop is rewritten to a `while`
loop, and the body and the increment are put into a block. The machine that executes the rewritten
loop does what the `for` loop does, but for a scope in each turn in which nothing is bound.
-/

set_option autoImplicit false

namespace Lox

/-- The clauses of a `for` loop. -/
structure ForLoop where
  line : Nat
  initializer : Option Stmt
  condition : Option Expr
  increment : Option Expr
  body : Stmt

/-- A `for` loop at some moment of its run: in its initializer, its condition, its body or its
increment, or at its end. -/
inductive ForRun where
  | starting (m : Machine)
  | testing (m : Machine)
  | inBody (m : Machine)
  | advancing (m : Machine)
  | done (result : Except Error Completion) (w : World)

def ForRun.world : ForRun → World
  | .starting m => m.world
  | .testing m => m.world
  | .inBody m => m.world
  | .advancing m => m.world
  | .done _ w => w

/-- The machine that works on the clause that the loop is in. -/
def ForRun.machine? : ForRun → Option Machine
  | .starting m => some m
  | .testing m => some m
  | .inBody m => some m
  | .advancing m => some m
  | .done _ _ => none

def ForRun.isDone : ForRun → Bool
  | .done _ _ => true
  | _ => false

/-- A new scope within those in force. -/
def World.inNewScope (w : World) : World :=
  { (w.newScope .empty).2 with env := (w.newScope .empty).1 :: w.env }

namespace ForLoop

/-- A turn begins. A condition that is absent holds. -/
def test (l : ForLoop) (w : World) : ForRun :=
  match l.condition with
  | none => .inBody (.executing l.body w)
  | some condition => .testing (.evaluating condition w)

/-- A turn ends. -/
def advance (l : ForLoop) (w : World) : ForRun :=
  match l.increment with
  | none => l.test w
  | some increment => .advancing (.evaluating increment w)

def start (l : ForLoop) (w : World) : ForRun :=
  match l.initializer with
  | none => l.test w
  | some initializer => .starting (.executing initializer w.inNewScope)

/-- The scopes that all turns of the loop are in. -/
def scopes (l : ForLoop) (w : World) : Env :=
  match l.initializer with
  | none => w.env
  | some _ => w.inNewScope.env

/-- One step of a loop that was entered in the scopes `outer`. -/
def step (l : ForLoop) (outer : Env) : ForRun → ForRun
  | .starting m =>
    match m.completionResult? with
    | none => .starting m.step
    | some (.ok .normal, w) => l.test w
    | some (result, w) => .done result { w with env := outer }
  | .testing m =>
    match m.valueResult? with
    | none => .testing m.step
    | some (.ok v, w) =>
      if v.isTruthy then .inBody (.executing l.body w)
      else .done (.ok .normal) { w with env := outer }
    | some (.error e, w) => .done (.error e) { w with env := outer }
  | .inBody m =>
    match m.completionResult? with
    | none => .inBody m.step
    | some (.ok .normal, w) => l.advance w
    | some (.ok .broken, w) => .done (.ok .normal) { w with env := outer }
    | some (result, w) => .done result { w with env := outer }
  | .advancing m =>
    match m.valueResult? with
    | none => .advancing m.step
    | some (.ok _, w) => l.test w
    | some (.error e, w) => .done (.error e) { w with env := outer }
  | .done result w => .done result w

/-- The loop after so many steps. -/
def run (l : ForLoop) (w : World) : Nat → ForRun
  | 0 => l.start w
  | n + 1 => l.step w.env (l.run w n)

/-! ## The rewritten loop -/

/-- The statement that a `for` loop is rewritten to. -/
def rewritten (l : ForLoop) : Stmt :=
  Grammar.forLoop l.line l.initializer l.condition l.increment l.body

/-- The condition of the rewritten loop. -/
def tested (l : ForLoop) : Expr :=
  l.condition.getD (.literal (.bool true) l.line)

/-- The body of the rewritten loop, where names have been resolved. With an increment, it is a block
whose scope is counted in the distances within it. -/
inductive TurnOf (l : ForLoop) : Stmt → Prop where
  | plain : l.increment = none → TurnOf l l.body
  | block {increment increment' : Expr} {body' : Stmt} : l.increment = some increment →
      Widened (some 0) (.stmt l.body) (.stmt body') →
      Widened (some 0) (.expr increment) (.expr increment') →
      TurnOf l (.block [body', .expression increment'])

/-- The machine that executes the rewritten loop, with frames that wait for the end of it. -/
def machine (l : ForLoop) (turn : Stmt) (base : List Frame) (w : World) : Machine :=
  ⟨.execute (Grammar.withInit (.loop l.tested turn) l.initializer), base, w⟩

/-- What waits for the end of the `while` loop. -/
def below (l : ForLoop) (outer : Env) (base : List Frame) : List Frame :=
  match l.initializer with
  | none => base
  | some _ => .sequence [] :: .restore outer :: base

theorem length_below (l : ForLoop) (outer : Env) (base : List Frame) :
    base.length ≤ (l.below outer base).length := by
  unfold below
  split
  · exact Nat.le_refl _
  · simp only [List.length_cons]
    omega

end ForLoop

namespace Machine

/-! ## Steps without a result for the frames below -/

/-- So many steps lead from one machine to the other, and none of those before it has a result for
the frames of `base`. -/
def Leads (base : List Frame) (n : Nat) (m m' : Machine) : Prop :=
  m.after n = m' ∧ ∀ i < n, ¬ HandsOver base (m.after i)

section Leads
variable {base : List Frame} {m m' m'' : Machine} {i n : Nat}

theorem Leads.refl (base : List Frame) (m : Machine) : Leads base 0 m m :=
  ⟨rfl, by simp⟩

theorem Leads.next (hm : ¬ HandsOver base m) (h : Leads base n m.step m') :
    Leads base (n + 1) m m' := by
  refine ⟨(m.after_succ n).trans h.1, fun i hi => ?_⟩
  cases i with
  | zero => exact hm
  | succ i =>
    rw [after_succ]
    exact h.2 i (Nat.lt_of_succ_lt_succ hi)

theorem Leads.trans (h : Leads base i m m') (h' : Leads base n m' m'') :
    Leads base (i + n) m m'' := by
  obtain ⟨rfl, hbusy⟩ := h
  refine ⟨(m.after_add i n).trans h'.1, fun k hk => ?_⟩
  rcases Nat.lt_or_ge k i with hlt | hge
  · exact hbusy k hlt
  · obtain ⟨k, rfl⟩ := Nat.exists_eq_add_of_le hge
    rw [after_add]
    exact h'.2 k (by omega)

theorem Leads.returns (h : Leads base n m m') (hover : HandsOver base m') : Returns base m m' := by
  induction n generalizing m with
  | zero =>
    obtain ⟨rfl, -⟩ := h
    exact .here hover
  | succ n ih =>
    refine .next (h.2 0 (Nat.succ_pos n)) (ih ⟨(m.after_succ n).symm.trans h.1, fun i hi => ?_⟩)
    rw [← after_succ]
    exact h.2 (i + 1) (Nat.succ_lt_succ hi)

theorem Returns.leads (h : Returns base m m') : ∃ n, Leads base n m m' ∧ HandsOver base m' := by
  induction h with
  | @here m hover => exact ⟨0, .refl base m, hover⟩
  | next hbusy _ ih =>
    obtain ⟨n, hleads, hover⟩ := ih
    exact ⟨n + 1, .next hbusy hleads, hover⟩

theorem not_handsOver_of_lt (h : base.length < m.frames.length) : ¬ HandsOver base m := by
  intro hover
  rw [hover.1] at h
  exact absurd h (Nat.lt_irrefl _)

end Leads

/-- The machine will end in this environment. -/
def EndsIn (env : Env) (m : Machine) : Prop :=
  ∃ wanted depth, Above [] wanted env depth m

namespace EndsIn
variable {env : Env} {m : Machine}

theorem step (h : EndsIn env m) (hbusy : m.isFinal = false) : EndsIn env m.step := by
  obtain ⟨wanted, depth, habove⟩ := h
  refine ⟨wanted, depth, habove.step fun hover => ?_⟩
  rw [isFinal_of_handsOver hover] at hbusy
  cases hbusy

theorem env_eq (h : EndsIn env m) (hframes : m.frames = []) : m.world.env = env := by
  obtain ⟨wanted, depth, inner, hinner, -, -, henv, -⟩ := h
  obtain rfl : inner = [] := by simpa [hframes] using hinner.symm
  exact henv

theorem executing (s : Stmt) (w : World) : EndsIn w.env (executing s w) :=
  ⟨.completion, w.depth, above_base rfl⟩

theorem evaluating (e : Expr) (w : World) : EndsIn w.env (evaluating e w) :=
  ⟨.value, w.depth, above_base rfl⟩

end EndsIn

theorem outcome?_of_busy {m : Machine} (h : m.isFinal = false) : m.outcome? = none := by
  obtain ⟨focus, frames, w⟩ := m
  cases frames with
  | nil =>
    cases focus with
    | evaluate | execute => rfl
    | value | completed | failed => cases h
  | cons frame frames => cases focus <;> rfl

theorem step_block {body : List Stmt} (h : ∀ s ∈ body, s.isFunction = false)
    (frames : List Frame) (w : World) :
    step ⟨.execute (.block body), frames, w⟩ =
      ⟨.completed .normal, .sequence body :: .restore w.env :: frames, w.inNewScope⟩ := by
  have hdefined : ∀ rest ⊆ body, w.inNewScope.defineFunctions rest = w.inNewScope := by
    intro rest hrest
    induction rest with
    | nil => rfl
    | cons s rest ih =>
      obtain ⟨hs, hrest'⟩ := List.cons_subset.1 hrest
      rw [World.defineFunctions_cons (h s hs), ih hrest']
  change enterBody body (.restore w.env :: frames) w.inNewScope = _
  rw [enterBody, hdefined body (List.Subset.refl body)]

end Machine

/-! ## The rewritten loop does what the loop does -/

namespace Layout
variable (a : Layout)

abbrev SameEnv (g : Gap) (env env' : Env) : Prop :=
  Sameness.widened.SameEnv a g env env'

abbrev SameCompletion : Completion → Completion → Prop :=
  Sameness.widened.SameCompletion a

abbrev SameMachine (b : Lockstep.Basis) (m m' : Machine) : Prop :=
  Lockstep.widened.SameMachine a b m m'

/-- What is executed in one world writes what it writes in the other. -/
theorem SameWorld.output_eq {a : Layout} {w w' : World} (h : a.SameWorld none w w') (s : Stmt)
    (n : Nat) : ((Machine.executing s w').after n).world.sink =
      ((Machine.executing s w).after n).world.sink := by
  have hsame : a.SameMachine ⟨[], .completion, none⟩ (.executing s w) (.executing s w') :=
    .execute h (Node.stays (.stmt s)) (.basis rfl rfl)
  obtain ⟨a', -, hafter⟩ := hsame.after_follows n
  exact hafter.sink_eq

end Layout

open Machine Layout Lockstep

/-- What a loop ended with, and what a machine hands on. -/
inductive SameEnding (a : Layout) : Except Error Completion → Focus → Prop where
  | completed {c c' : Completion} :
      a.SameCompletion c c' → SameEnding a (.ok c) (.completed c')
  | failed (e : Error) : SameEnding a (.error e) (.failed e)

/-- The machine hands to the frames of `base` what a loop ended with. -/
structure Ends (a : Layout) (base : List Frame) (result : Except Error Completion) (w : World)
    (m : Machine) : Prop where
  frames : m.frames = base
  focus : SameEnding a result m.focus
  world : a.SameWorld none w m.world

/-- The machine is where the loop is, on top of `base`. The loop was entered in the scopes `outer`,
and its turns are in the scopes `env`. -/
inductive Tracks (l : ForLoop) (turn : Stmt) (outer : Env) (base : List Frame) (env : Env)
    (a : Layout) : ForRun → Machine → Prop where
  | starting {m m' : Machine} : l.initializer ≠ none → EndsIn env m →
      a.SameMachine ⟨.sequence [.loop l.tested turn] :: .restore outer :: base, .completion, none⟩
        m m' → Tracks l turn outer base env a (.starting m) m'
  | testing {m m' : Machine} : EndsIn env m →
      a.SameMachine ⟨.test l.tested turn :: l.below outer base, .value, none⟩ m m' →
      Tracks l turn outer base env a (.testing m) m'
  | inBody {m m' : Machine} : l.increment = none → EndsIn env m →
      a.SameMachine ⟨.again l.tested turn :: l.below outer base, .completion, none⟩ m m' →
      Tracks l turn outer base env a (.inBody m) m'
  | inBlock {increment increment' : Expr} {env' : Env} {m m' : Machine} :
      l.increment = some increment → Widened (some 0) (.expr increment) (.expr increment') →
      a.SameEnv none env env' → EndsIn env m →
      a.SameMachine ⟨.sequence [.expression increment'] :: .restore env' ::
        .again l.tested turn :: l.below outer base, .completion, some 0⟩ m m' →
      Tracks l turn outer base env a (.inBody m) m'
  | advancing {env' : Env} {m m' : Machine} : a.SameEnv none env env' → EndsIn env m →
      a.SameMachine ⟨.discard :: .sequence [] :: .restore env' :: .again l.tested turn ::
        l.below outer base, .value, some 0⟩ m m' → Tracks l turn outer base env a (.advancing m) m'
  | done {result : Except Error Completion} {w : World} {m' : Machine} :
      Ends a base result w m' → Tracks l turn outer base env a (.done result w) m'

/-- Some steps lead to where the loop is. -/
def Arrives (l : ForLoop) (turn : Stmt) (outer : Env) (base : List Frame) (env : Env) (a : Layout)
    (s : ForRun) (m : Machine) : Prop :=
  ∃ n a' m', a.Grows a' ∧ Leads base n m m' ∧ Tracks l turn outer base env a' s m'

/-- What holds throughout the run of a loop. -/
structure Setting (l : ForLoop) (turn : Stmt) (outer env : Env) (a : Layout) : Prop where
  turn : l.TurnOf turn
  env : l.initializer = none → env = outer
  outer : a.SameEnv none outer outer

section Turns
variable {l : ForLoop} {turn : Stmt} {outer : Env} {base : List Frame} {env : Env} {a : Layout}
  {s : ForRun} {m : Machine} {w w' : World}

theorem Arrives.here (h : Tracks l turn outer base env a s m) :
    Arrives l turn outer base env a s m :=
  ⟨0, a, m, .refl a, .refl base m, h⟩

theorem Arrives.of_step (hm : ¬ HandsOver base m)
    (h : Arrives l turn outer base env a s m.step) : Arrives l turn outer base env a s m := by
  obtain ⟨n, a', m', hgrows, hleads, htracks⟩ := h
  exact ⟨n + 1, a', m', hgrows, .next hm hleads, htracks⟩

/-- A frame above those of `base` is left behind. -/
theorem Arrives.next {focus : Focus} {frame : Frame} {frames : List Frame}
    (hframes : base.length ≤ frames.length)
    (h : Arrives l turn outer base env a s (step ⟨focus, frame :: frames, w⟩)) :
    Arrives l turn outer base env a s ⟨focus, frame :: frames, w⟩ :=
  h.of_step (not_handsOver_of_lt (Nat.lt_succ_of_le hframes))

theorem Arrives.of_grows {a' : Layout} (ha : a.Grows a')
    (h : Arrives l turn outer base env a' s m) : Arrives l turn outer base env a s m := by
  obtain ⟨n, a'', m', hgrows, hleads, htracks⟩ := h
  exact ⟨n, a'', m', ha.trans hgrows, hleads, htracks⟩

/-! ### The end of the loop -/

/-- The scope of the initializer is left. -/
theorem Setting.leaves_scope (h : Setting l turn outer env a) (hw : a.SameWorld none w w')
    {result : Except Error Completion} {focus : Focus} (hend : SameEnding a result focus) :
    Arrives l turn outer base env a (.done result { w with env := outer })
      ⟨focus, .restore outer :: base, w'⟩ := by
  have hdone : Arrives l turn outer base env a (.done result { w with env := outer })
      ⟨focus, base, { w' with env := outer }⟩ := .here (.done ⟨rfl, hend, hw.withEnv h.outer⟩)
  cases hend <;> exact .next (Nat.le_refl _) hdone

theorem Setting.leaves (h : Setting l turn outer env a) (hw : a.SameWorld none w w')
    (henv : w.env = env) {result : Except Error Completion} {focus : Focus}
    (hend : SameEnding a result focus) :
    Arrives l turn outer base env a (.done result { w with env := outer })
      ⟨focus, l.below outer base, w'⟩ := by
  unfold ForLoop.below
  split
  · next hinit =>
    obtain rfl : w.env = outer := henv.trans (h.env hinit)
    exact .here (.done ⟨rfl, hend, hw⟩)
  · have hstep : step ⟨focus, .sequence [] :: .restore outer :: base, w'⟩ =
        ⟨focus, .restore outer :: base, w'⟩ := by
      cases hend with
      | failed => rfl
      | completed hc => cases hc <;> rfl
    refine .next (Nat.le_succ _) ?_
    rw [hstep]
    exact h.leaves_scope hw hend

/-! ### A turn -/

/-- A turn begins with the body, which may be in a block. -/
theorem Setting.enters (h : Setting l turn outer env a) (hw : a.SameWorld none w w')
    (henv : w.env = env) :
    Arrives l turn outer base env a (.inBody (.executing l.body w))
      ⟨.execute turn, .again l.tested turn :: l.below outer base, w'⟩ := by
  have hbelow := l.length_below outer base
  subst henv
  cases h.turn with
  | plain hincrement =>
    exact .here (.inBody hincrement (.executing l.body w)
      (.execute hw (Node.stays (.stmt l.body)) (.basis rfl rfl)))
  | @block increment increment' body' hincrement hbody hincr =>
    have hgrows := a.grows_addSpare w'.store.scopes.size
    have hfunction : body'.isFunction = false :=
      (hbody.alike rfl).isFunction_eq.trans hbody.isFunction_of_innermost
    -- The scope of the block is one that the loop does not have.
    refine .of_grows hgrows (.next hbelow ?_)
    rw [step_block (List.forall_mem_cons.2 ⟨hfunction, List.forall_mem_singleton.2 rfl⟩)]
    refine .next (Nat.le_succ_of_le (Nat.le_succ_of_le hbelow)) ?_
    change Arrives _ _ _ _ _ _ _ (passCompletion _ _ _ _)
    rw [passCompletion_sequence hfunction]
    exact .here (.inBlock hincrement hincr (hw.env.mono hgrows) (.executing l.body w)
      (.execute hw.addSpare hbody (.basis rfl rfl)))

/-- An absent condition holds. -/
theorem Setting.tests (h : Setting l turn outer env a) (hw : a.SameWorld none w w')
    (henv : w.env = env) :
    Arrives l turn outer base env a (l.test w)
      ⟨.evaluate l.tested, .test l.tested turn :: l.below outer base, w'⟩ := by
  have hbelow := l.length_below outer base
  unfold ForLoop.test
  split
  · next hcondition =>
    have htested : l.tested = .literal (.bool true) l.line := by
      rw [ForLoop.tested, hcondition]
      rfl
    have hstep (frames : List Frame) :
        step ⟨.evaluate l.tested, frames, w'⟩ = ⟨.value (.bool true), frames, w'⟩ := by
      rw [htested]
      rfl
    refine .next hbelow ?_
    rw [hstep]
    exact .next hbelow (h.enters hw henv)
  · next condition hcondition =>
    have htested : l.tested = condition := by
      rw [ForLoop.tested, hcondition]
      rfl
    subst henv
    refine .here (.testing (.evaluating condition w) ?_)
    rw [← htested]
    exact .evaluate hw (Node.stays (.expr l.tested)) (.basis rfl rfl)

/-! ### One step -/

/-- While a part of the loop is busy, the machine takes the same step. -/
theorem arrives_of_busy {m m' : Machine} {b : Basis} {phase : Machine → ForRun}
    (hends : EndsIn env m) (hsame : a.SameMachine b m m') (hbusy : m.isFinal = false)
    (hphase : ∀ {a' : Layout} {m m' : Machine}, a.Grows a' → EndsIn env m →
      a'.SameMachine b m m' → Tracks l turn outer base env a' (phase m) m') :
    Arrives l turn outer base env a (phase m.step) m'.step := by
  obtain ⟨a', hgrows, hstep⟩ := step_follows hsame hbusy
  exact .of_grows hgrows (.here (hphase hgrows (hends.step hbusy) hstep))

/-- The scope of the block in a turn is left. -/
theorem Lockstep.SameWorld.leaveTurn {env' : Env} (h : a.SameWorld (some 0) w w')
    (henv : w.env = env) (henv' : a.SameEnv none env env') :
    a.SameWorld none w { w' with env := env' } := by
  subst henv
  exact h.withEnv henv'

section Phases
variable {m' : Machine} (hset : Setting l turn outer env a) (hends : EndsIn env m)
include hset hends

theorem Setting.step_starting (hinit : l.initializer ≠ none)
    (hsame : a.SameMachine
      ⟨.sequence [.loop l.tested turn] :: .restore outer :: base, .completion, none⟩ m m') :
    Arrives l turn outer base env a (l.step outer (.starting m)) m'.step := by
  have hbelow : l.below outer base = .sequence [] :: .restore outer :: base := by
    unfold ForLoop.below
    split
    · next hnone => exact absurd hnone hinit
    · rfl
  cases hfinal : m.isFinal with
  | false =>
    rw [ForLoop.step, completionResult?, outcome?_of_busy hfinal]
    exact arrives_of_busy hends hsame hfinal fun _ hends' hsame' => .starting hinit hends' hsame'
  | true =>
    have henv := hends.env_eq (handsOver_of_isFinal hfinal).1
    cases hsame.atEnd hfinal with
    | value hwanted => cases hwanted
    | failed hw he =>
      subst he
      exact hset.leaves_scope hw (.failed _)
    | @completed _ _ w _ _ hw hc =>
      cases hc with
      | normal =>
        have htests : Arrives l turn outer base env a (l.test w) _ := hset.tests hw henv
        rw [hbelow] at htests
        exact .next (Nat.le_succ _) htests
      | returned hv => exact hset.leaves_scope hw (.completed (.returned hv))
      | broken => exact hset.leaves_scope hw (.completed .broken)

theorem Setting.step_testing
    (hsame : a.SameMachine ⟨.test l.tested turn :: l.below outer base, .value, none⟩ m m') :
    Arrives l turn outer base env a (l.step outer (.testing m)) m'.step := by
  cases hfinal : m.isFinal with
  | false =>
    rw [ForLoop.step, valueResult?, outcome?_of_busy hfinal]
    exact arrives_of_busy hends hsame hfinal fun _ hends' hsame' => .testing hends' hsame'
  | true =>
    have henv := hends.env_eq (handsOver_of_isFinal hfinal).1
    cases hsame.atEnd hfinal with
    | completed hwanted => cases hwanted
    | failed hw he =>
      subst he
      exact hset.leaves hw henv (.failed _)
    | @value v v' w w' _ hw hv =>
      have hstep : step ⟨.value v', .test l.tested turn :: l.below outer base, w'⟩ =
          if v.isTruthy then ⟨.execute turn, .again l.tested turn :: l.below outer base, w'⟩
          else ⟨.completed .normal, l.below outer base, w'⟩ := by
        rw [← hv.isTruthy_eq]
        rfl
      change Arrives _ _ _ _ _ _ (if v.isTruthy then _ else _) _
      rw [hstep]
      cases v.isTruthy with
      | true => exact hset.enters hw henv
      | false => exact hset.leaves hw henv (.completed .normal)

theorem Setting.step_inBody (hincrement : l.increment = none)
    (hsame : a.SameMachine ⟨.again l.tested turn :: l.below outer base, .completion, none⟩ m m') :
    Arrives l turn outer base env a (l.step outer (.inBody m)) m'.step := by
  cases hfinal : m.isFinal with
  | false =>
    rw [ForLoop.step, completionResult?, outcome?_of_busy hfinal]
    exact arrives_of_busy hends hsame hfinal fun _ hends' hsame' =>
      .inBody hincrement hends' hsame'
  | true =>
    have henv := hends.env_eq (handsOver_of_isFinal hfinal).1
    cases hsame.atEnd hfinal with
    | value hwanted => cases hwanted
    | failed hw he =>
      subst he
      exact hset.leaves hw henv (.failed _)
    | @completed _ _ w _ _ hw hc =>
      cases hc with
      | normal =>
        have hadvance : l.advance w = l.test w := by rw [ForLoop.advance, hincrement]
        change Arrives _ _ _ _ _ _ (l.advance w) _
        rw [hadvance]
        exact hset.tests hw henv
      | returned hv => exact hset.leaves hw henv (.completed (.returned hv))
      | broken => exact hset.leaves hw henv (.completed .normal)

theorem Setting.step_inBlock {increment increment' : Expr} {env' : Env}
    (hincrement : l.increment = some increment)
    (hincr : Widened (some 0) (.expr increment) (.expr increment'))
    (henv' : a.SameEnv none env env')
    (hsame : a.SameMachine ⟨.sequence [.expression increment'] :: .restore env' ::
      .again l.tested turn :: l.below outer base, .completion, some 0⟩ m m') :
    Arrives l turn outer base env a (l.step outer (.inBody m)) m'.step := by
  have hbelow := l.length_below outer base
  cases hfinal : m.isFinal with
  | false =>
    rw [ForLoop.step, completionResult?, outcome?_of_busy hfinal]
    exact arrives_of_busy hends hsame hfinal fun hgrows hends' hsame' =>
      .inBlock hincrement hincr (henv'.mono hgrows) hends' hsame'
  | true =>
    have henv := hends.env_eq (handsOver_of_isFinal hfinal).1
    cases hsame.atEnd hfinal with
    | value hwanted => cases hwanted
    | failed hw he =>
      subst he
      exact .next (Nat.le_succ_of_le hbelow)
        (.next hbelow (hset.leaves (hw.leaveTurn henv henv') henv (.failed _)))
    | @completed _ _ w _ _ hw hc =>
      cases hc with
      | normal =>
        have hadvance : l.advance w = .advancing (.evaluating increment w) := by
          rw [ForLoop.advance, hincrement]
        change Arrives _ _ _ _ _ _ (l.advance w) _
        rw [hadvance]
        subst henv
        exact .next (Nat.le_succ_of_le (Nat.le_succ_of_le hbelow)) (.here
          (.advancing henv' (.evaluating increment w) (.evaluate hw hincr (.basis rfl rfl))))
      -- The rest of the block is skipped, and with it the increment.
      | returned hv =>
        exact .next (Nat.le_succ_of_le hbelow)
          (.next hbelow (hset.leaves (hw.leaveTurn henv henv') henv (.completed (.returned hv))))
      | broken =>
        exact .next (Nat.le_succ_of_le hbelow)
          (.next hbelow (hset.leaves (hw.leaveTurn henv henv') henv (.completed .normal)))

theorem Setting.step_advancing {env' : Env} (henv' : a.SameEnv none env env')
    (hsame : a.SameMachine ⟨.discard :: .sequence [] :: .restore env' :: .again l.tested turn ::
      l.below outer base, .value, some 0⟩ m m') :
    Arrives l turn outer base env a (l.step outer (.advancing m)) m'.step := by
  have hbelow := l.length_below outer base
  have hagain := Nat.le_succ_of_le hbelow
  cases hfinal : m.isFinal with
  | false =>
    rw [ForLoop.step, valueResult?, outcome?_of_busy hfinal]
    exact arrives_of_busy hends hsame hfinal fun hgrows hends' hsame' =>
      .advancing (henv'.mono hgrows) hends' hsame'
  | true =>
    have henv := hends.env_eq (handsOver_of_isFinal hfinal).1
    cases hsame.atEnd hfinal with
    | completed hwanted => cases hwanted
    | failed hw he =>
      subst he
      exact .next (Nat.le_succ_of_le hagain) (.next hagain
        (.next hbelow (hset.leaves (hw.leaveTurn henv henv') henv (.failed _))))
    | value _ hw =>
      exact .next (Nat.le_succ_of_le hagain) (.next hagain
        (.next hbelow (hset.tests (hw.leaveTurn henv henv') henv)))

end Phases

/-- Before the loop has ended, the machine has further frames. -/
theorem Tracks.length_lt (h : Tracks l turn outer base env a s m) (hbusy : s.isDone = false) :
    base.length < m.frames.length := by
  have hbelow := l.length_below outer base
  cases h with
  | starting _ _ hsame | testing _ hsame | inBody _ _ hsame | inBlock _ _ _ _ hsame
  | advancing _ _ hsame =>
    have hlength := hsame.length_le
    simp only [List.length_cons] at hlength
    omega
  | done => cases hbusy

theorem Tracks.sink_eq (h : Tracks l turn outer base env a s m) :
    m.world.sink = s.world.sink := by
  cases h with
  | starting _ _ hsame | testing _ hsame | inBody _ _ hsame | inBlock _ _ _ _ hsame
  | advancing _ _ hsame => exact hsame.sink_eq
  | done hends => exact hends.world.sink

theorem Ends.handsOver {result : Except Error Completion} (h : Ends a base result w m) :
    HandsOver base m := by
  obtain ⟨focus, frames, w'⟩ := m
  obtain ⟨hframes, hfocus, -⟩ := h
  cases hfocus <;> exact ⟨hframes, trivial⟩

theorem Tracks.endsIn (h : Tracks l turn outer base env a s m) {m₁ : Machine}
    (hm : s.machine? = some m₁) : EndsIn env m₁ := by
  cases h with
  | starting _ hends _ | testing hends _ | inBody _ hends _ | inBlock _ _ _ hends _
  | advancing _ hends _ =>
    obtain rfl := Option.some.inj hm
    exact hends
  | done => cases hm

theorem Tracks.step (h : Tracks l turn outer base env a s m) (hset : Setting l turn outer env a)
    (hbusy : s.isDone = false) :
    Arrives l turn outer base env a (l.step outer s) m.step := by
  cases h with
  | starting hinit hends hsame => exact hset.step_starting hends hinit hsame
  | testing hends hsame => exact hset.step_testing hends hsame
  | inBody hincrement hends hsame => exact hset.step_inBody hends hincrement hsame
  | inBlock hincrement hincr henv' hends hsame =>
    exact hset.step_inBlock hends hincrement hincr henv' hsame
  | advancing henv' hends hsame => exact hset.step_advancing hends henv' hsame
  | done => cases hbusy

end Turns

/-! ### The whole run -/

section Runs
variable {l : ForLoop} {turn : Stmt} {a : Layout} {w : World} (base : List Frame)

/-- The rewritten loop enters the scope of its initializer and comes to its first clause. -/
theorem ForLoop.arrives_start (hturn : l.TurnOf turn)
    (hinit : ∀ s ∈ l.initializer, s.isFunction = false) (hw : a.SameWorld none w w) :
    ∃ a', a.Grows a' ∧ Setting l turn w.env (l.scopes w) a' ∧
      Arrives l turn w.env base (l.scopes w) a' (l.start w) (l.machine turn base w) := by
  have hbusy (s : Stmt) : ¬ HandsOver base ⟨.execute s, base, w⟩ := fun hover => hover.2
  unfold ForLoop.start ForLoop.machine ForLoop.scopes
  split
  · next hnone =>
    have hset : Setting l turn w.env w.env a := ⟨hturn, fun _ => rfl, hw.env⟩
    have htests : Arrives l turn w.env base w.env a (l.test w) _ := hset.tests hw rfl
    have hbelow : l.below w.env base = base := by rw [ForLoop.below, hnone]
    rw [hbelow] at htests
    rw [hnone]
    exact ⟨a, .refl a, hset, htests.of_step (hbusy _)⟩
  · next init hsome =>
    have hfunction : init.isFunction = false := hinit init hsome
    obtain ⟨a', hgrows, hscope, henv⟩ := hw.newScope (.empty _)
    have hinner : a'.SameWorld none w.inNewScope w.inNewScope := hscope.withEnv (henv hw.env)
    refine ⟨a', hgrows, ⟨hturn, fun hnone => ?_, hscope.env⟩, .of_step (hbusy _) ?_⟩
    · rw [hsome] at hnone
      cases hnone
    · rw [hsome, Grammar.withInit,
        step_block (List.forall_mem_cons.2 ⟨hfunction, List.forall_mem_singleton.2 rfl⟩)]
      refine .next (Nat.le_succ _) ?_
      change Arrives _ _ _ _ _ _ _ (passCompletion _ _ _ _)
      rw [passCompletion_sequence hfunction]
      refine .here (.starting ?_ (.executing init w.inNewScope)
        (.execute hinner (Node.stays (.stmt init)) (.basis rfl rfl)))
      rw [hsome]
      exact Option.some_ne_none init

theorem ForLoop.run_of_isDone {n : Nat} (h : (l.run w n).isDone = true) :
    l.run w (n + 1) = l.run w n := by
  rw [ForLoop.run]
  cases hrun : l.run w n with
  | done => rfl
  | _ =>
    rw [hrun] at h
    cases h

/-- Whatever number of steps the loop takes, the rewritten loop comes to where the loop is then. -/
theorem ForLoop.run_tracked (hturn : l.TurnOf turn)
    (hinit : ∀ s ∈ l.initializer, s.isFunction = false) (hw : a.SameWorld none w w) (n : Nat) :
    ∃ k a' m', a.Grows a' ∧ Leads base k (l.machine turn base w) m' ∧
      Tracks l turn w.env base (l.scopes w) a' (l.run w n) m' ∧
      ((l.run w n).isDone = false → n ≤ k) := by
  obtain ⟨a₀, hgrows₀, hset, hstart⟩ := l.arrives_start base hturn hinit hw
  induction n with
  | zero =>
    obtain ⟨k, a', m', hgrows, hleads, htracks⟩ := hstart
    exact ⟨k, a', m', hgrows₀.trans hgrows, hleads, htracks, fun _ => Nat.zero_le k⟩
  | succ n ih =>
    obtain ⟨k, a', m', hgrows, hleads, htracks, hle⟩ := ih
    cases hdone : (l.run w n).isDone with
    | true =>
      rw [run_of_isDone hdone]
      exact ⟨k, a', m', hgrows, hleads, htracks, fun hbusy => by rw [hdone] at hbusy; cases hbusy⟩
    | false =>
      have hset' : Setting l turn w.env (l.scopes w) a' := ⟨hturn, hset.env, hw.env.mono hgrows⟩
      obtain ⟨j, a'', m'', hgrows', hleads', htracks'⟩ := htracks.step hset' hdone
      have hbusy := not_handsOver_of_lt (htracks.length_lt hdone)
      refine ⟨k + (j + 1), a'', m'', hgrows.trans hgrows', hleads.trans (.next hbusy hleads'),
        htracks', fun _ => ?_⟩
      have := hle hdone
      omega

/-- The machine does what the loop does from the world `w` on, and then hands on to the frames of
`base`. -/
structure ForLoop.PerformedBy (l : ForLoop) (w : World) (base : List Frame) (m : Machine) :
    Prop where
  /-- All clauses of all turns are in the same scopes. -/
  scopes : ∀ n m₁, (l.run w n).machine? = some m₁ → m₁.frames = [] →
    m₁.world.env = l.scopes w
  /-- The machine goes on as long as the loop does. -/
  goesOn : ∀ n, (l.run w n).isDone = false → ∃ k, n ≤ k ∧
    (∀ i ≤ k, ¬ HandsOver base (m.after i)) ∧ (m.after k).world.sink = (l.run w n).world.sink
  /-- When the loop ends, the machine hands on the same, in a world where nothing differs but for
  scopes in which nothing is bound. -/
  ends : ∀ n result w₁, l.run w n = .done result w₁ → ∃ a m₁,
    (whole w.store.scopes.size).Grows a ∧ Returns base m m₁ ∧ Ends a base result w₁ m₁ ∧
    m₁.world.env = w.env ∧ ∀ s j, ((executing s m₁.world).after j).world.sink =
      ((executing s w₁).after j).world.sink
  /-- The machine hands on only if the loop ends. -/
  endsOnly : ∀ m₁, Returns base m m₁ → ∃ n result w₁, l.run w n = .done result w₁

theorem ForLoop.goes_on (hturn : l.TurnOf turn)
    (hinit : ∀ s ∈ l.initializer, s.isFunction = false) (hw : a.SameWorld none w w) {n : Nat}
    (hbusy : (l.run w n).isDone = false) :
    ∃ k, n ≤ k ∧ (∀ i ≤ k, ¬ HandsOver base ((l.machine turn base w).after i)) ∧
      ((l.machine turn base w).after k).world.sink = (l.run w n).world.sink := by
  obtain ⟨k, a', m', -, ⟨rfl, hleads⟩, htracks, hle⟩ := l.run_tracked base hturn hinit hw n
  have hover := not_handsOver_of_lt (htracks.length_lt hbusy)
  refine ⟨k, hle hbusy, fun i hi => ?_, htracks.sink_eq⟩
  rcases Nat.lt_or_eq_of_le hi with hlt | rfl
  · exact hleads i hlt
  · exact hover

theorem ForLoop.performedBy (hturn : l.TurnOf turn)
    (hinit : ∀ s ∈ l.initializer, s.isFunction = false) (hclosed : w.Closed) :
    l.PerformedBy w base (l.machine turn base w) := by
  have hw := whole_world hclosed
  have hrun := l.run_tracked base hturn hinit hw
  have hstart : Starts base w (l.machine turn base w) := .execute _
  obtain ⟨wanted, habove⟩ := hstart.above
  refine ⟨fun n m₁ hm hframes => ?_, fun n => l.goes_on base hturn hinit hw,
    fun n result w₁ hdone => ?_, fun m₁ hreturns => ?_⟩
  · obtain ⟨k, a', m', -, -, htracks, -⟩ := hrun n
    exact (htracks.endsIn hm).env_eq hframes
  · obtain ⟨k, a', m', hgrows, hleads, htracks, -⟩ := hrun n
    rw [hdone] at htracks
    cases htracks with
    | done hends =>
      have hreturns := hleads.returns hends.handsOver
      exact ⟨a', m', hgrows, hreturns, hends, (habove.returned hreturns).1,
        hends.world.output_eq⟩
  · -- A loop that is not done after so many steps keeps the machine busy for as many.
    obtain ⟨k, ⟨rfl, -⟩, hover⟩ := hreturns.leads
    cases hdone : l.run w k with
    | done result w₁ => exact ⟨k, result, w₁, hdone⟩
    | _ =>
      obtain ⟨j, hle, hbusy, -⟩ := l.goes_on base hturn hinit hw (n := k) (by rw [hdone]; rfl)
      exact absurd hover (hbusy k hle)

end Runs

end Lox
