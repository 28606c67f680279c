import Lox.Scoping.Resolve

/-!
# Resolution as a change of what is known

An action of the resolver is taken apart into what it yields and what is known after it. Both are
computed along the binds of the action, so that a walk over a tree can be followed from one node to
the next.
-/

set_option autoImplicit false

namespace Lox

/-- The names of the functions that stand directly in a body. -/
def functionNames : List Stmt → List String
  | [] => []
  | .function decl :: rest => decl.name.toList.map Ident.name ++ functionNames rest
  | _ :: rest => functionNames rest

namespace Scoping

/-- A new scope is open. -/
def enter (names : List String) (r : Scoping) : Scoping :=
  { r with scopes := names :: r.scopes }

/-- The innermost scope is closed. -/
def exit (r : Scoping) : Scoping :=
  { r with scopes := r.scopes.tail }

/-- The scope of a function is open. -/
def enterFunction (r : Scoping) : Scoping :=
  { r with inFunction := true, loopDepth := 0, pending := none, scopes := [] :: r.scopes }

def enterLoop (r : Scoping) : Scoping :=
  { r with loopDepth := r.loopDepth + 1 }

def within (context : ClassContext) (r : Scoping) : Scoping :=
  { r with classContext := context }

/-- The variable whose initializer comes next. -/
def awaiting (name : String) (r : Scoping) : Scoping :=
  { r with pending := some name }

/-- The name is declared in the innermost scope. -/
def declaring (name : String) (r : Scoping) : Scoping :=
  match r.scopes with
  | [] => r
  | scope :: outer => { r with scopes := (name :: scope) :: outer }

def reporting (error : ResolveError) (r : Scoping) : Scoping :=
  { r with errors := r.errors ++ [error] }

end Scoping

namespace ResolveM

variable {α β : Type}

/-- What an action yields. -/
def outcome (act : ResolveM α) (r : Scoping) : α :=
  (act.run r).1

/-- What is known after an action. -/
def after (act : ResolveM α) (r : Scoping) : Scoping :=
  (act.run r).2

section Steps
variable (act : ResolveM α) (r : Scoping)

@[simp] theorem after_pure (a : α) : after (pure a) r = r := rfl

@[simp] theorem outcome_bind (f : α → ResolveM β) :
    outcome (act >>= f) r = outcome (f (outcome act r)) (after act r) := rfl

@[simp] theorem after_bind (f : α → ResolveM β) :
    after (act >>= f) r = after (f (outcome act r)) (after act r) := rfl

theorem outcome_ite (c : Prop) [Decidable c] (act' : ResolveM α) :
    outcome (if c then act else act') r = if c then outcome act r else outcome act' r := by
  split <;> rfl

theorem after_ite (c : Prop) [Decidable c] (act' : ResolveM α) :
    after (if c then act else act') r = if c then after act r else after act' r := by
  split <;> rfl

theorem outcome_get_bind (f : Scoping → ResolveM β) : outcome (get >>= f) r = outcome (f r) r := rfl

theorem after_get_bind (f : Scoping → ResolveM β) : after (get >>= f) r = after (f r) r := rfl

@[simp] theorem after_bindingOf (name : String) : after (bindingOf name) r = r := rfl

@[simp] theorem after_inScope (names : List String) :
    after (inScope names act) r = (after act (r.enter names)).exit := rfl

@[simp] theorem after_inClass (context : ClassContext) : after (inClass context act) r =
    { after act (r.within context) with classContext := r.classContext } := rfl

@[simp] theorem after_initializing (name : String) : after (initializing name act) r =
    { after act (r.awaiting name) with pending := r.pending } := rfl

section Reports
variable (c : Prop) [Decidable c] (line : Nat) (lexeme : String) (fault : ResolveFault)

/-- A report under a condition, and what is done whether or not it is made. -/
theorem run_report_if : (if c then report line lexeme fault >>= fun _ => act else act).run r =
    act.run (if c then r.reporting ⟨line, lexeme, fault⟩ else r) := by
  split
  · rfl
  · rfl

theorem outcome_report_if : outcome (if c then report line lexeme fault >>= fun _ => act else act) r =
    act.outcome (if c then r.reporting ⟨line, lexeme, fault⟩ else r) :=
  congrArg Prod.fst (run_report_if act r c line lexeme fault)

theorem after_report_if : after (if c then report line lexeme fault >>= fun _ => act else act) r =
    act.after (if c then r.reporting ⟨line, lexeme, fault⟩ else r) :=
  congrArg Prod.snd (run_report_if act r c line lexeme fault)

end Reports

end Steps

end ResolveM

namespace Scoping

/-- Only errors have been added. -/
def Keeps (r r' : Scoping) : Prop :=
  ∃ new, r' = { r with errors := r.errors ++ new }

/-- Only errors and names of the innermost scope have been added. -/
def Grows (r r' : Scoping) : Prop :=
  ∃ scopes new, r' = { r with scopes := scopes, errors := r.errors ++ new } ∧
    scopes.tail = r.scopes.tail ∧ scopes.length = r.scopes.length

section Changes
variable {r r' r'' : Scoping}

theorem Keeps.refl (r : Scoping) : r.Keeps r := ⟨[], by simp⟩

theorem Keeps.trans (h : r.Keeps r') (h' : r'.Keeps r'') : r.Keeps r'' := by
  obtain ⟨new, rfl⟩ := h
  obtain ⟨new', rfl⟩ := h'
  exact ⟨new ++ new', by simp⟩

theorem Keeps.grows (h : r.Keeps r') : r.Grows r' := by
  obtain ⟨new, rfl⟩ := h
  exact ⟨r.scopes, new, rfl, rfl, rfl⟩

theorem Grows.refl (r : Scoping) : r.Grows r := (Keeps.refl r).grows

theorem Grows.trans (h : r.Grows r') (h' : r'.Grows r'') : r.Grows r'' := by
  obtain ⟨scopes, new, rfl, htail, hlength⟩ := h
  obtain ⟨scopes', new', rfl, htail', hlength'⟩ := h'
  exact ⟨scopes', new ++ new', by simp, htail'.trans htail, hlength'.trans hlength⟩

theorem Keeps.of_report (error : ResolveError) : r.Keeps (r.reporting error) := ⟨[error], rfl⟩

/-- What happens in a scope stays in it. -/
theorem Grows.exit {names : List String} (h : (r.enter names).Grows r') : r.Keeps r'.exit := by
  obtain ⟨scopes, new, rfl, htail, -⟩ := h
  exact ⟨new, by simp [Scoping.exit, enter] at htail ⊢; simp [htail]⟩

theorem Grows.exitFunction (h : r.enterFunction.Grows r') :
    r.Keeps { r'.exit with
      inFunction := r.inFunction, loopDepth := r.loopDepth, pending := r.pending } := by
  obtain ⟨scopes, new, rfl, htail, -⟩ := h
  exact ⟨new, by simp [Scoping.exit, enterFunction] at htail ⊢; simp [htail]⟩

theorem Keeps.exitClass {context : ClassContext} (h : (r.within context).Keeps r') :
    r.Keeps { r' with classContext := r.classContext } := by
  obtain ⟨new, rfl⟩ := h
  exact ⟨new, rfl⟩

theorem Keeps.exitLoop (h : r.enterLoop.Keeps r') :
    r.Keeps { r' with loopDepth := r'.loopDepth - 1 } := by
  obtain ⟨new, rfl⟩ := h
  exact ⟨new, rfl⟩

theorem Grows.exitLoop (h : r.enterLoop.Grows r') :
    r.Grows { r' with loopDepth := r'.loopDepth - 1 } := by
  obtain ⟨scopes, new, rfl, htail, hlength⟩ := h
  exact ⟨scopes, new, rfl, htail, hlength⟩

theorem Keeps.initialized {name : String} (h : (r.awaiting name).Keeps r') :
    r.Keeps { r' with pending := r.pending } := by
  obtain ⟨new, rfl⟩ := h
  exact ⟨new, rfl⟩

theorem Grows.errors_prefix (h : r.Grows r') : r.errors <+: r'.errors := by
  obtain ⟨scopes, new, rfl, -⟩ := h
  exact List.prefix_append _ _

theorem Grows.errors_nil (h : r.Grows r') (hr' : r'.errors = []) : r.errors = [] := by
  have herrors := h.errors_prefix
  rw [hr'] at herrors
  exact List.prefix_nil.1 herrors

/-- Where there is no error at the end, nothing has changed. -/
theorem Keeps.eq (h : r.Keeps r') (hr' : r'.errors = []) : r' = r := by
  obtain ⟨new, rfl⟩ := h
  obtain ⟨hr, rfl⟩ := List.append_eq_nil_iff.1 hr'
  rw [List.append_nil]

end Changes

end Scoping

namespace ResolveM

open Scoping

variable (r : Scoping)

theorem after_declare (name : Ident) : (declare name).after r =
    match r.scopes with
    | [] => r
    | scope :: _ => if name.name ∈ scope then r.reporting ⟨name.line, name.name, .redeclared⟩
        else r.declaring name.name := by
  obtain ⟨scopes, inFunction, context, depth, pending, errors⟩ := r
  cases scopes with
  | nil => rfl
  | cons scope outer =>
    simp only [declare, after_get_bind, after_ite]
    split <;> rfl

theorem grows_declare (name : Ident) : r.Grows ((declare name).after r) := by
  rw [after_declare]
  split
  · exact .refl r
  · rename_i scope outer hscopes
    split
    · exact (Keeps.of_report _).grows
    · refine ⟨(name.name :: scope) :: outer, [], ?_, ?_, ?_⟩
      · simp [declaring, hscopes]
      · rw [hscopes]
        rfl
      · rw [hscopes]
        rfl

/-- A name that is declared without an error is new in its scope. -/
theorem declare_quiet {name : Ident} (h : ((declare name).after r).errors = []) :
    (declare name).after r = r.declaring name.name ∧
      ∀ scope ∈ r.scopes.head?, name.name ∉ scope := by
  rw [after_declare] at h ⊢
  cases hscopes : r.scopes with
  | nil => simp [declaring, hscopes]
  | cons scope outer =>
    rw [hscopes] at h
    by_cases hmem : name.name ∈ scope
    · simp [hmem, reporting] at h
    · simp [hmem]

theorem grows_declareAll (names : List Ident) : r.Grows ((declareAll names).after r) := by
  induction names generalizing r with
  | nil => exact .refl r
  | cons name names ih => exact (grows_declare r name).trans (ih _)

theorem grows_declareFunctions (body : List Stmt) : r.Grows ((declareFunctions body).after r) := by
  fun_induction declareFunctions body generalizing r with
  | case1 => exact .refl r
  | case2 decl rest ih => exact (grows_declareAll r _).trans (ih _)
  | case3 s rest _ ih => exact ih r

theorem declareAll_quiet {names : List Ident} {scope : List String} {outer : List (List String)}
    (hscopes : r.scopes = scope :: outer) (h : ((declareAll names).after r).errors = []) :
    (declareAll names).after r =
      { r with scopes := ((names.map Ident.name).reverse ++ scope) :: outer } := by
  induction names generalizing r scope with
  | nil => simp [declareAll, ← hscopes]
  | cons name names ih =>
    have hfirst := (grows_declareAll ((declare name).after r) names).errors_nil h
    obtain ⟨hdeclare, -⟩ := declare_quiet r hfirst
    have hscopes' : ((declare name).after r).scopes = (name.name :: scope) :: outer := by
      rw [hdeclare]
      simp [declaring, hscopes]
    rw [declareAll, after_bind, ih _ hscopes' h, hdeclare]
    simp [declaring, hscopes]

theorem declareAll_top (names : List Ident) (hscopes : r.scopes = []) :
    (declareAll names).after r = r := by
  induction names with
  | nil => rfl
  | cons name names ih =>
    have hdeclare : (declare name).after r = r := by
      rw [after_declare, hscopes]
    rw [declareAll, after_bind, hdeclare, ih]

theorem declareFunctions_quiet {body : List Stmt} {scope : List String} {outer : List (List String)}
    (hscopes : r.scopes = scope :: outer) (h : ((declareFunctions body).after r).errors = []) :
    (declareFunctions body).after r =
      { r with scopes := ((functionNames body).reverse ++ scope) :: outer } := by
  fun_induction functionNames body generalizing r scope with
  | case1 => simp [declareFunctions, ← hscopes]
  | case2 decl rest ih =>
    have hfirst := (grows_declareFunctions ((declareAll decl.name.toList).after r) rest).errors_nil h
    have hdeclare := declareAll_quiet r hscopes hfirst
    have hrest := ih ((declareAll decl.name.toList).after r) (by rw [hdeclare]) h
    rw [declareFunctions, after_bind, hrest, hdeclare]
    simp
  | case3 s rest hs ih =>
    rw [declareFunctions.eq_3 s rest hs] at h ⊢
    exact ih r hscopes h

end ResolveM

end Lox
