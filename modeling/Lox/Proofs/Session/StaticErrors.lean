import Lox.Proofs.Grammar.Recovery
import Lox.Proofs.Machine.Conduct
import Lox.Proofs.Session.Agreement

/-!
# Refused source texts

A text that a session refuses is refused with one flat batch: lexical errors and then those of the
parser, or else violations of the static rules alone. Nothing of the session changes. A text that
is not refused never fails with an error of this kind, whatever it does when it runs.
-/

set_option autoImplicit false

namespace Lox

/-! ## Batches -/

namespace Error

theorem ofList_map {α : Type} {f : α → Error} (as : List α) (hf : ∀ a es, f a ≠ .batch es) :
    ofList (as.map f) = .batch (as.map f) := by
  unfold ofList
  congr 1
  induction as with
  | nil => rfl
  | cons a as ih =>
    rw [List.map_cons, List.flatMap_cons, ih]
    split
    · rename_i members hbatch
      exact absurd hbatch (hf a members)
    · rfl

theorem ofLex_eq (errors : List LexError) : ofLex errors = .batch (errors.map .lex) := by
  apply ofList_map
  intro error es h
  cases h

theorem ofParse_eq (errors : List ParseError) : ofParse errors = .batch (errors.map .parse) := by
  apply ofList_map
  intro error es h
  cases h

theorem ofResolve_eq (errors : List ResolveError) :
    ofResolve errors = .batch (errors.map .resolve) := by
  apply ofList_map
  intro error es h
  cases h

/-- Errors of the parser join lexical ones in one flat batch. -/
theorem ofList_lex_parse (lexical : List LexError) (errors : List ParseError) :
    ofList (lexical.map .lex ++ [ofParse errors]) =
      .batch (lexical.map .lex ++ errors.map .parse) := by
  have hlex := Error.batch.inj (ofLex_eq lexical)
  rw [ofParse_eq, ofList, List.flatMap_append, hlex]
  simp

end Error

/-! ## What the stages report -/

theorem map_eq_error {α β : Type} {f : α → β} {result : Except Error α} {e : Error}
    (h : result.map f = .error e) : result = .error e := by
  cases result with
  | ok a => cases h
  | error e' => exact congrArg Except.error (Except.error.inj h)

theorem bind_eq_error {α β : Type} {f : α → Except Error β} {result : Except Error α} {e : Error}
    (h : result >>= f = .error e) :
    result = .error e ∨ ∃ a, result = .ok a ∧ f a = .error e := by
  cases result with
  | ok a => exact Or.inr ⟨a, rfl, h⟩
  | error e' => exact Or.inl (congrArg Except.error (Except.error.inj h))

namespace Grammar

/-- Tokens are not refused without an error. -/
theorem result_ne_nil {α : Type} {r : EStateM.Result ParseError State α}
    {errors : List ParseError} (h : result r = .error errors) : errors ≠ [] := by
  cases r with
  | error e s =>
    obtain rfl := Except.error.inj h
    simp
  | ok a s =>
    unfold result at h
    dsimp only at h
    split at h
    · cases h
    · rename_i hsome
      obtain rfl := Except.error.inj h
      simpa using hsome

end Grammar

/-- A program is not refused without a violation. -/
theorem resolved_ne_nil {p : Program} {errors : List ResolveError}
    (h : p.resolved = .error errors) : errors ≠ [] := by
  unfold Program.resolved at h
  generalize ((Scoping.resolve p).run .fresh).1 = resolved at h
  obtain ⟨q, found⟩ := resolved
  cases found with
  | nil => cases h
  | cons error found =>
    obtain rfl := Except.error.inj h
    simp

/-- What the parser finds wrong with a text that is handed over in this way. A line is parsed only
if it has no lexical error, and nothing is wrong with one that is a single expression. -/
def Request.parseErrors (request : Request) (source : String) : List ParseError :=
  match request with
  | .run => Grammar.parseErrors (Grammar.parseProgram (tokens source))
  | .evaluate => Grammar.parseErrors (Grammar.parseExpression (tokens source))
  | .line =>
    if (lexErrors source).isEmpty && !(Grammar.parseExpression (tokens source)).isOk then
      Grammar.parseErrors (Grammar.parseProgram (tokens source))
    else []

/-- The text has passed the scan and the parser. -/
structure Readable (request : Request) (source : String) : Prop where
  scanned : lexErrors source = []
  parsed : request.parseErrors source = []

/-- The batches with which a text may be refused. -/
inductive Refusal (request : Request) (source : String) : List Error → Prop where
  | unreadable {members : List Error} :
      members = (lexErrors source).map .lex ++ (request.parseErrors source).map .parse →
      members ≠ [] → Refusal request source members
  | unresolved {errors : List ResolveError} :
      Readable request source → errors ≠ [] → Refusal request source (errors.map .resolve)

theorem readable_run {source : String} {p : Program} (h : parseProgram source = .ok p) :
    Readable .run source := by
  obtain ⟨hscanned, hparsed⟩ := withLexical_eq_ok h
  refine ⟨hscanned, ?_⟩
  rw [Request.parseErrors, hparsed]
  rfl

theorem readable_evaluate {source : String} {e : Expr} (h : parseExpression source = .ok e) :
    Readable .evaluate source := by
  obtain ⟨hscanned, hparsed⟩ := withLexical_eq_ok h
  refine ⟨hscanned, ?_⟩
  rw [Request.parseErrors, hparsed]
  rfl

theorem readable_line {source : String} {p : Program} (h : Task.parseLine source = .ok p) :
    Readable .line source := by
  rcases parseLine_eq_ok h with h | ⟨e, h, -⟩
  · obtain ⟨hscanned, hparsed⟩ := withLexical_eq_ok h
    refine ⟨hscanned, ?_⟩
    simp [Request.parseErrors, hparsed, Grammar.parseErrors]
  · obtain ⟨hscanned, hparsed⟩ := withLexical_eq_ok h
    refine ⟨hscanned, ?_⟩
    simp [Request.parseErrors, hparsed, Except.isOk, Except.toBool]

namespace Refusal
variable {request : Request} {source : String}

theorem ne_nil {members : List Error} (h : Refusal request source members) : members ≠ [] := by
  cases h with
  | unreadable _ hsome => exact hsome
  | unresolved _ hsome => simpa using hsome

theorem flat {members : List Error} (h : Refusal request source members) {e : Error}
    (he : e ∈ members) (nested : List Error) : e ≠ .batch nested := by
  intro hbatch
  subst hbatch
  cases h with
  | unreadable hmembers _ =>
    rw [hmembers] at he
    rcases List.mem_append.1 he with he | he
    · obtain ⟨error, -, herror⟩ := List.mem_map.1 he
      cases herror
    · obtain ⟨error, -, herror⟩ := List.mem_map.1 he
      cases herror
  | unresolved _ _ =>
    obtain ⟨error, -, herror⟩ := List.mem_map.1 he
    cases herror

/-- The batch of a text whose parse failed or that has lexical errors. -/
theorem of_withLexical {α : Type} {parsed : Except (List ParseError) α} {e : Error}
    (h : withLexical (lexErrors source) parsed = .error e)
    (hparsed : Grammar.parseErrors parsed = request.parseErrors source)
    (hfound : ∀ errors, parsed = .error errors → errors ≠ []) :
    ∃ members, e = .batch members ∧ Refusal request source members := by
  cases parsed with
  | ok a =>
    unfold withLexical at h
    dsimp only at h
    split at h
    · cases h
    · rename_i hlexical
      obtain rfl := Except.error.inj h
      refine ⟨_, Error.ofLex_eq _, .unreadable ?_ ?_⟩
      · rw [← hparsed]
        simp [Grammar.parseErrors]
      · simpa using hlexical
  | error errors =>
    obtain rfl := Except.error.inj h
    refine ⟨_, Error.ofList_lex_parse _ _, .unreadable ?_ ?_⟩
    · rw [← hparsed]
      rfl
    · have hsome := hfound errors rfl
      simp [hsome]

theorem of_resolveProgram {p : Program} {e : Error} (h : resolveProgram p = .error e)
    (hreadable : Readable request source) :
    ∃ members, e = .batch members ∧ Refusal request source members := by
  unfold resolveProgram at h
  cases hresolved : p.resolved with
  | ok q =>
    rw [hresolved] at h
    cases h
  | error errors =>
    rw [hresolved] at h
    obtain rfl := Except.error.inj h
    exact ⟨_, Error.ofResolve_eq errors, .unresolved hreadable (resolved_ne_nil hresolved)⟩

theorem of_resolveExpression {tree : Expr} {e : Error} (h : resolveExpression tree = .error e)
    (hreadable : Readable request source) :
    ∃ members, e = .batch members ∧ Refusal request source members := by
  unfold resolveExpression at h
  rcases bind_eq_error h with h | ⟨q, -, h⟩
  · exact of_resolveProgram h hreadable
  · split at h <;> cases h

theorem of_parseLine {e : Error} (h : Task.parseLine source = .error e) :
    ∃ members, e = .batch members ∧ Refusal .line source members := by
  simp only [Task.parseLine] at h
  split at h
  · rename_i hlexical
    have hsome : lexErrors source ≠ [] := by simpa using hlexical
    obtain rfl := Except.error.inj h
    refine ⟨_, Error.ofLex_eq _, .unreadable ?_ ?_⟩
    · simp [Request.parseErrors, hsome]
    · simpa using hsome
  · rename_i hlexical
    have hnone : lexErrors source = [] := by simpa using hlexical
    split at h
    · cases h
    · rename_i errors hparsed
      split at h
      · cases h
      · rename_i hexpression
        obtain rfl := Except.error.inj h
        have hsome : errors ≠ [] := Grammar.result_ne_nil hparsed
        refine ⟨_, Error.ofParse_eq _, .unreadable ?_ ?_⟩
        · simp [Request.parseErrors, hnone, hparsed, hexpression, Grammar.parseErrors, Except.isOk,
            Except.toBool]
        · simpa using hsome

/-- Every refusal is such a batch. -/
theorem of_task {e : Error} (h : request.task source = .error e) :
    ∃ members, e = .batch members ∧ Refusal request source members := by
  cases request with
  | run =>
    rcases bind_eq_error (map_eq_error h) with h | ⟨p, hp, h⟩
    · exact of_withLexical h rfl fun _ herrors => Grammar.result_ne_nil herrors
    · exact of_resolveProgram h (readable_run hp)
  | evaluate =>
    rcases bind_eq_error (map_eq_error h) with h | ⟨tree, htree, h⟩
    · exact of_withLexical h rfl fun _ herrors => Grammar.result_ne_nil herrors
    · exact of_resolveExpression h (readable_evaluate htree)
  | line =>
    rcases bind_eq_error h with h | ⟨p, hp, h⟩
    · exact of_parseLine h
    · split at h
      · exact of_resolveExpression (map_eq_error h) (readable_line hp)
      · exact of_resolveProgram (map_eq_error h) (readable_line hp)

end Refusal

/-! ## Sessions -/

/-- A text that became a task fails, if at all, as a running program does. -/
theorem Session.Performs.isStatic_eq_false {task : Task} {s s' : Session} {e : Error}
    (h : Performs task s s' (some e)) : e.isStatic = false := by
  obtain ⟨n, -, -, herror⟩ := h
  rcases herror e rfl with hfailed | rfl
  · have hstart : Machine.InRun (task.start s).focus := by cases task <;> trivial
    have hfocus := (Machine.conducts_after hstart n).focus
    rw [hfailed] at hfocus
    exact hfocus
  · rfl

theorem Session.answers_of_refused {request : Request} {source : String} {e : Error}
    (h : request.task source = .error e) (s : Session) : Answers request source s s (some e) := by
  cases request with
  | run =>
    have h : parseProgram source >>= resolveProgram = .error e := map_eq_error h
    refine ⟨0, .error e, ?_, rfl⟩
    rw [run, h]
  | evaluate =>
    have h : parseExpression source >>= resolveExpression = .error e := map_eq_error h
    refine ⟨0, .error e, ?_, rfl⟩
    unfold evaluate
    rw [h]
  | line =>
    have h : Task.ofLine source = .error e := h
    refine ⟨0, .error e, ?_, rfl⟩
    rw [runLine, h]

open Session in
/-- A static failure changes nothing and is one flat, non-empty batch: the lexical errors and then
what the parser found, or violations of the static rules only. A text that passed these stages
never fails with a static error. -/
theorem static_failure_atomic (request : Request) (source : String) (s s' : Session) :
    (∀ members, Answers request source s s' (some (.batch members)) →
      s' = s ∧ members ≠ [] ∧ (∀ e ∈ members, ∀ nested, e ≠ .batch nested) ∧
        (members = (lexErrors source).map .lex ++ (request.parseErrors source).map .parse ∨
          lexErrors source = [] ∧ request.parseErrors source = [] ∧
            ∃ errors : List ResolveError, members = errors.map .resolve)) ∧
    (∀ task e, request.task source = .ok task → Answers request source s s' (some e) →
      e.isStatic = false) := by
  constructor
  · intro members hanswers
    rcases performed_or_refused hanswers with ⟨e, he, hs, herror⟩ | ⟨task, -, hperforms⟩
    · obtain ⟨members', hbatch, hrefusal⟩ := Refusal.of_task he
      obtain rfl : members = members' := Error.batch.inj (by rw [← hbatch, Option.some.inj herror])
      refine ⟨hs, hrefusal.ne_nil, fun e he => hrefusal.flat he, ?_⟩
      cases hrefusal with
      | unreadable hmembers _ => exact Or.inl hmembers
      | @unresolved errors hreadable _ =>
        exact Or.inr ⟨hreadable.scanned, hreadable.parsed, errors, rfl⟩
    · exact absurd hperforms.isStatic_eq_false (by simp [Error.isStatic])
  · intro task e htask hanswers
    rcases performed_or_refused hanswers with ⟨e', he', -⟩ | ⟨task', -, hperforms⟩
    · rw [htask] at he'
      cases he'
    · exact hperforms.isStatic_eq_false

open Session in
/-- A text with a lexical error and two syntax errors after a statement that would print. -/
theorem static_failure_atomic_mixed :
    let source := "print 1; var @; print;"
    let s := Session.new .unlimited fun _ => 0
    ∃ members, Answers .run source s s (some (.batch members)) ∧
      members = (lexErrors source).map .lex ++ (Request.run.parseErrors source).map .parse ∧
      (lexErrors source).length = 1 ∧ (Request.run.parseErrors source).length = 2 := by
  intro source s
  have hlexical : (lexErrors source).length = 1 := by decide +kernel
  have hparsed : (Request.run.parseErrors source).length = 2 := by decide +kernel
  cases htask : Request.run.task source with
  | ok task =>
    have hrefused : (Request.run.task source).isOk = false := by decide +kernel
    rw [htask] at hrefused
    cases hrefused
  | error e =>
    obtain ⟨members, rfl, -⟩ := Refusal.of_task htask
    have hanswers := answers_of_refused htask s
    obtain ⟨-, -, -, hshape⟩ := (static_failure_atomic .run source s s).1 members hanswers
    refine ⟨members, hanswers, ?_, hlexical, hparsed⟩
    rcases hshape with hshape | ⟨hnone, -⟩
    · exact hshape
    · rw [hnone] at hlexical
      cases hlexical

end Lox
