import Lox.Proofs.Machine.Preservation
import Lox.Proofs.Machine.Restoration

/-!
# Sessions agree with the resolver

A source text that a session does not refuse stands for an accepted program, and the machine that
does the task starts in agreement with the resolver. Steps keep the agreement, so the session that
is left fits the scopes of all the programs handed over so far, and is ready for the next one.
-/

set_option autoImplicit false

namespace Lox

open Scoping ResolveM

/-! ## What source texts stand for -/

/-- A task that is what the resolver made of an accepted program of the collection. -/
inductive Task.Prepared (C : Corpus) : Task → Prop where
  | program {p : Program} :
      C.programs p → Accepted p → Prepared C (.program ((resolveTop p).outcome .fresh))
  | expression {e : Expr} : C.programs [.expression e] →
      Accepted [.expression e] → Prepared C (.expression (e.resolve.outcome .fresh))

/-- The collection of all programs and host functions. -/
def AnyProgram : Corpus := ⟨fun _ => True, fun _ => True⟩

theorem resolved_of_resolveProgram {p q : Program} (h : resolveProgram p = .ok q) :
    p.resolved = .ok q := by
  unfold resolveProgram at h
  cases hresolved : p.resolved with
  | error errors =>
    rw [hresolved] at h
    cases h
  | ok q' =>
    rw [hresolved] at h
    exact congrArg Except.ok (Except.ok.inj h)

theorem outcome_resolveTop_expression (e : Expr) :
    (resolveTop [.expression e]).outcome .fresh = [.expression (e.resolve.outcome .fresh)] :=
  rfl

theorem resolveExpression_eq_ok {e e' : Expr} (h : resolveExpression e = .ok e') :
    resolveProgram [.expression e] = .ok [.expression e'] ∧ e' = e.resolve.outcome .fresh := by
  unfold resolveExpression at h
  cases hresolve : resolveProgram [.expression e] with
  | error errors =>
    rw [hresolve] at h
    cases h
  | ok q =>
    obtain ⟨-, hq⟩ := resolved_eq_ok (resolved_of_resolveProgram hresolve)
    rw [outcome_resolveTop_expression] at hq
    rw [hresolve, hq] at h
    obtain rfl := Except.ok.inj h
    rw [hq]
    exact ⟨rfl, rfl⟩

/-- A line stands for a program, or for a single expression without a semicolon. -/
theorem parseLine_eq_ok {source : String} {p : Program} (h : Task.parseLine source = .ok p) :
    parseProgram source = .ok p ∨ ∃ e, parseExpression source = .ok e ∧ p = [.expression e] := by
  simp only [Task.parseLine] at h
  split at h
  · cases h
  · rename_i hlexical
    replace hlexical : (lexErrors source).isEmpty = true := by simpa using hlexical
    split at h
    · rename_i q hq
      obtain rfl := Except.ok.inj h
      left
      rw [parseProgram, hq, withLexical, if_pos hlexical]
    · split at h
      · rename_i e he
        obtain rfl := Except.ok.inj h
        right
        refine ⟨e, ?_, rfl⟩
        rw [parseExpression, he, withLexical, if_pos hlexical]
      · cases h

/-- The source text stands for this program, or for the single expression in it. -/
def StandsFor (source : String) (p : Program) : Prop :=
  parseProgram source = .ok p ∨ ∃ e, parseExpression source = .ok e ∧ p = [.expression e]

theorem prepared_program {C : Corpus} {source : String} {p q : Program} (hC : C.programs p)
    (hp : StandsFor source p) (hq : resolveProgram p = .ok q) : Task.Prepared C (.program q) := by
  have hresolved := resolved_of_resolveProgram hq
  obtain ⟨-, rfl⟩ := resolved_eq_ok hresolved
  exact .program hC ⟨⟨source, hp⟩, _, hresolved⟩

theorem prepared_expression {C : Corpus} {source : String} {e e' : Expr}
    (hC : C.programs [.expression e]) (hp : StandsFor source [.expression e])
    (he : resolveExpression e = .ok e') :
    Task.Prepared C (.expression e') := by
  obtain ⟨hresolve, rfl⟩ := resolveExpression_eq_ok he
  exact .expression hC ⟨⟨source, hp⟩, _, resolved_of_resolveProgram hresolve⟩

theorem map_eq_ok {α β : Type} {f : α → β} {result : Except Error α} {b : β}
    (h : result.map f = .ok b) : ∃ a, result = .ok a ∧ f a = b := by
  cases result with
  | error e => cases h
  | ok a => exact ⟨a, rfl, Except.ok.inj h⟩

theorem bind_eq_ok {α β : Type} {f : α → Except Error β} {result : Except Error α} {b : β}
    (h : result >>= f = .ok b) : ∃ a, result = .ok a ∧ f a = .ok b := by
  cases result with
  | error e => cases h
  | ok a => exact ⟨a, rfl, h⟩

/-- A source text that is not refused stands for an accepted program. -/
theorem Request.prepared {C : Corpus} {request : Request} {source : String} {task : Task}
    (hC : ∀ p, StandsFor source p → C.programs p) (h : request.task source = .ok task) :
    task.Prepared C := by
  cases request with
  | run =>
    obtain ⟨q, hq, rfl⟩ := map_eq_ok h
    obtain ⟨p, hp, hq⟩ := bind_eq_ok hq
    exact prepared_program (hC p (Or.inl hp)) (Or.inl hp) hq
  | evaluate =>
    obtain ⟨e', he', rfl⟩ := map_eq_ok h
    obtain ⟨e, he, he'⟩ := bind_eq_ok he'
    have hp : StandsFor source [.expression e] := Or.inr ⟨e, he, rfl⟩
    exact prepared_expression (hC _ hp) hp he'
  | line =>
    obtain ⟨p, hp, h⟩ := bind_eq_ok h
    have hp := parseLine_eq_ok hp
    split at h
    · obtain ⟨e', he', rfl⟩ := map_eq_ok h
      exact prepared_expression (hC _ hp) hp he'
    · obtain ⟨q, hq, rfl⟩ := map_eq_ok h
      exact prepared_program (hC p hp) hp hq

/-! ## Refused texts -/

namespace Error

theorem isInternal_ofList (errors : List Error) :
    (ofList errors).isInternal = errors.any isInternal := by
  rw [isInternal, ofList, members, List.any_flatMap]
  rfl

theorem isInternal_ofList_map {α : Type} {f : α → Error} (as : List α)
    (hf : ∀ a, (f a).isInternal = false) : (ofList (as.map f)).isInternal = false := by
  simp [isInternal_ofList, hf]

theorem isInternal_ofLex (errors : List LexError) : (ofLex errors).isInternal = false :=
  isInternal_ofList_map errors fun _ => rfl

theorem isInternal_ofParse (errors : List ParseError) : (ofParse errors).isInternal = false :=
  isInternal_ofList_map errors fun _ => rfl

theorem isInternal_ofResolve (errors : List ResolveError) : (ofResolve errors).isInternal = false :=
  isInternal_ofList_map errors fun _ => rfl

end Error

/-- The computation does not fail with an internal error. -/
def FailsOrdinarily {α : Type} (result : Except Error α) : Prop :=
  ∀ e, result = .error e → e.isInternal = false

namespace FailsOrdinarily

variable {α β : Type}

theorem ok (a : α) : FailsOrdinarily (.ok a) := by
  intro e he
  cases he

theorem error {e : Error} (h : e.isInternal = false) :
    FailsOrdinarily (.error e : Except Error α) := by
  intro e' he'
  cases he'
  exact h

theorem map {result : Except Error α} (f : α → β) (h : FailsOrdinarily result) :
    FailsOrdinarily (result.map f) := by
  cases result with
  | ok a => exact ok (f a)
  | error e => exact error (h e rfl)

theorem bind {result : Except Error α} {f : α → Except Error β} (h : FailsOrdinarily result)
    (hf : ∀ a, FailsOrdinarily (f a)) : FailsOrdinarily (result >>= f) := by
  cases result with
  | ok a => exact hf a
  | error e => exact error (h e rfl)

theorem withLexical (lexical : List LexError) (parsed : Except (List ParseError) α) :
    FailsOrdinarily (withLexical lexical parsed) := by
  unfold Lox.withLexical
  split
  · split
    · exact ok _
    · exact error (Error.isInternal_ofLex lexical)
  · apply error
    have hlexical : (Error.ofList (lexical.map .lex)).isInternal = false :=
      Error.isInternal_ofLex lexical
    rw [Error.isInternal_ofList, List.any_append, ← Error.isInternal_ofList, hlexical]
    simp [Error.isInternal_ofParse]

theorem resolveProgram (p : Program) : FailsOrdinarily (resolveProgram p) := by
  unfold Lox.resolveProgram
  cases p.resolved with
  | ok q => exact ok q
  | error errors => exact error (Error.isInternal_ofResolve errors)

theorem resolveExpression (e : Expr) : FailsOrdinarily (resolveExpression e) := by
  apply (resolveProgram _).bind
  intro q
  split
  · exact ok _
  · exact ok _

theorem parseLine (source : String) : FailsOrdinarily (Task.parseLine source) := by
  simp only [Task.parseLine]
  split
  · exact error (Error.isInternal_ofLex _)
  · split
    · exact ok _
    · split
      · exact ok _
      · exact error (Error.isInternal_ofParse _)

/-- A source text is refused for violations of the language only. -/
theorem task (request : Request) (source : String) : FailsOrdinarily (request.task source) := by
  cases request with
  | run => exact .map _ ((withLexical _ _).bind resolveProgram)
  | evaluate => exact .map _ ((withLexical _ _).bind resolveExpression)
  | line =>
    apply (parseLine source).bind
    intro p
    split
    · exact .map _ (resolveExpression _)
    · exact .map _ (resolveProgram _)

end FailsOrdinarily

/-! ## The session between two texts -/

theorem World.ready_initial {C : Corpus} (hC : C.hosts .clock) (sink : Sink)
    (reading : Nat → Float) : (World.initial sink reading).Ready C [] := by
  refine ⟨⟨rfl, ?_, ?_, ?_, ?_, ?_⟩, ?_⟩
  · intro id x v h
    cases id with
    | zero =>
      obtain ⟨-, rfl⟩ := Bindings.mem_of_find?_single h
      trivial
    | succ id => cases h
  · intro id x v o _ ho
    cases id <;> cases ho
  · intro id x v o _ ho
    cases id <;> cases ho
  · intro x v h
    obtain ⟨rfl, -⟩ := Bindings.mem_of_find?_single h
    exact Or.inr ⟨.clock, hC, rfl⟩
  · intro id x v h
    cases h
  · intro id o x ho
    cases id <;> cases ho

theorem World.Ready.defineNative {C : Corpus} {shapes : Shapes} {s : Session} {native : Native}
    (h : s.Ready C shapes) (hnative : C.hosts native) :
    (s.defineNative native).Ready C shapes := by
  have hput : (s.defineNative native).store =
      (World.newId s).2.store.put 0 native.name (.native (World.newId s).1 native) := rfl
  refine ⟨?_, ?_⟩
  · rw [hput]
    refine h.typed.newId.put (v := .native _ native) trivial ?_ ?_
    · intro o ho
      cases ho
    · exact fun _ => Or.inr ⟨native, hnative, rfl⟩
  · rw [hput]
    exact h.definite.mono (Store.grows_put _ _ _ _)

namespace Task

variable {C : Corpus} {shapes : Shapes} {task : Task} {s : Session}

theorem world_start (task : Task) (s : Session) : (task.start s).world = s := by
  cases task <;> rfl

/-- The machine that does a task starts in agreement with the resolver. -/
theorem Prepared.agrees_start (h : task.Prepared C) (hready : s.Ready C shapes)
    (henv : s.env = World.topEnv) : Agrees C shapes (task.start s) := by
  have hfits : Fits shapes s.env [] := by
    rw [henv]
    exact .top
  have hat : s.At C shapes [] .fresh := by
    refine ⟨hready, hfits, ?_⟩
    rintro d x - ⟨⟨names, hnames, -⟩, -⟩
    cases hnames
  cases h with
  | @program p hp haccepted =>
    have hknown : KnownIn C ⟨[], .fresh, .top p⟩ := ⟨p, hp, haccepted, .top⟩
    have hallows : Allows .fresh false false := ⟨fun h => absurd rfl h, fun h => h⟩
    exact .completed hat trivial (.top 0 henv hknown hallows)
  | @expression e he haccepted =>
    have hknown : KnownIn C ⟨[], .fresh, .top [.expression e]⟩ := ⟨_, he, haccepted, .top⟩
    have hstmt : KnownIn C ⟨[], .fresh, .stmt (.expression e)⟩ := hknown.child List.mem_cons_self
    exact .evaluate hat (hstmt.child List.mem_cons_self) (.ended henv)

end Task

namespace Session

variable {s s' : Session}

/-- Every machine of a task agrees with the resolver, for the scopes that its session knows and
those that it has made since. -/
theorem advances_task {shapes : Shapes} {request : Request} {source : String} {task : Task}
    (hready : s.Ready AnyProgram shapes) (henv : s.env = World.topEnv)
    (htask : request.task source = .ok task) (n : Nat) :
    Advances AnyProgram shapes s.store ((task.start s).after n) := by
  have hagrees := (Request.prepared (fun _ _ => trivial) htask).agrees_start hready henv
  have hadvances := Machine.advances_after hagrees n
  rwa [task.world_start] at hadvances

theorem Reachable.ready (h : s.Reachable) : ∃ shapes, World.Ready AnyProgram shapes s := by
  induction h with
  | new sink reading => exact ⟨[], World.ready_initial (C := AnyProgram) trivial sink reading⟩
  | answered hs hanswers ih =>
    obtain ⟨shapes, hready⟩ := ih
    rcases performed_or_refused hanswers with ⟨_, _, rfl, _⟩ | ⟨task, htask, n, _, rfl, _⟩
    · exact ⟨shapes, hready⟩
    · obtain ⟨shapes', -, hagrees⟩ := advances_task hready hs.at_top.1 htask n
      exact ⟨shapes', hagrees.ready⟩
  | limited maxDepth _ ih =>
    obtain ⟨shapes, hready⟩ := ih
    exact ⟨shapes, hready.typed, hready.definite⟩
  | provided native _ ih =>
    obtain ⟨shapes, hready⟩ := ih
    exact ⟨shapes, hready.defineNative trivial⟩

end Session

end Lox
