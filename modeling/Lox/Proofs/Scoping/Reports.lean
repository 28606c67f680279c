import Lox.Proofs.Grammar.Regular
import Lox.Proofs.Scoping.Resolved
import Lox.Proofs.Scoping.Violations

/-!
# What the resolver reports

The resolver keeps what it knows of the enclosing constructs in a few variables, and changes and
restores them on its way. At every position they say the same as the path to it. A declaration is
compared with the names that its scope has so far, and the comparisons of a whole scope find the
declarations whose name an earlier one has.
-/

set_option autoImplicit false

namespace Lox

open Scoping ResolveM

/-! ## Declarations of a scope -/

/-- The scopes after a declaration in the innermost one. -/
def declareIn (scopes : List (List String)) (x : Ident) : List (List String) :=
  match scopes with
  | [] => []
  | scope :: outer => if x.name ∈ scope then scope :: outer else (x.name :: scope) :: outer

/-- The violations of declarations in the innermost scope. -/
def redeclaredIn : List (List String) → List Ident → List ResolveError
  | _, [] => []
  | scopes, x :: xs =>
    (if x.name ∈ scopes.headD [] then [redeclaration x] else []) ++
      redeclaredIn (declareIn scopes x) xs

theorem redeclaredIn_append (scopes : List (List String)) (xs ys : List Ident) :
    redeclaredIn scopes (xs ++ ys) =
      redeclaredIn scopes xs ++ redeclaredIn (xs.foldl declareIn scopes) ys := by
  induction xs generalizing scopes with
  | nil => rfl
  | cons x xs ih =>
    simp only [List.cons_append, redeclaredIn, ih, List.foldl_cons, List.append_assoc]

theorem declareIn_eq_nil {scopes : List (List String)} (x : Ident) :
    declareIn scopes x = [] ↔ scopes = [] := by
  cases scopes with
  | nil => simp [declareIn]
  | cons scope outer =>
    simp only [declareIn]
    split <;> simp

theorem foldl_declareIn_eq_nil {scopes : List (List String)} (xs : List Ident) :
    xs.foldl declareIn scopes = [] ↔ scopes = [] := by
  induction xs generalizing scopes with
  | nil => rfl
  | cons x xs ih => rw [List.foldl_cons, ih, declareIn_eq_nil]

theorem tail_declareIn (scopes : List (List String)) (x : Ident) :
    (declareIn scopes x).tail = scopes.tail := by
  cases scopes with
  | nil => rfl
  | cons scope outer =>
    simp only [declareIn]
    split <;> rfl

theorem tail_foldl_declareIn (scopes : List (List String)) (xs : List Ident) :
    (xs.foldl declareIn scopes).tail = scopes.tail := by
  induction xs generalizing scopes with
  | nil => rfl
  | cons x xs ih => rw [List.foldl_cons, ih, tail_declareIn]

theorem after_declare_eq (x : Ident) (r : Scoping) : (declare x).after r =
    { r with scopes := declareIn r.scopes x, errors := r.errors ++ redeclaredIn r.scopes [x] } := by
  rw [after_declare]
  obtain ⟨scopes, inFunction, context, depth, pending, errors⟩ := r
  cases scopes with
  | nil => simp [redeclaredIn, declareIn]
  | cons scope outer =>
    by_cases hmem : x.name ∈ scope
    · simp [redeclaredIn, declareIn, hmem, reporting, redeclaration]
    · simp [redeclaredIn, declareIn, hmem, declaring]

theorem declareAll_eq (xs : List Ident) (r : Scoping) : (declareAll xs).after r =
    { r with
      scopes := xs.foldl declareIn r.scopes
      errors := r.errors ++ redeclaredIn r.scopes xs } := by
  induction xs generalizing r with
  | nil => simp [declareAll, redeclaredIn]
  | cons x xs ih =>
    rw [declareAll, after_bind, ih, after_declare_eq]
    simp [redeclaredIn]

theorem declareFunctions_eq (body : List Stmt) (r : Scoping) :
    (declareFunctions body).after r = (declareAll (body.filterMap Stmt.functionName?)).after r := by
  fun_induction declareFunctions body generalizing r with
  | case1 => rfl
  | case2 decl rest ih =>
    rw [after_bind, ih]
    cases hname : decl.name with
    | none => simp [Stmt.functionName?, hname, declareAll]
    | some name => simp [Stmt.functionName?, hname, declareAll]
  | case3 s rest hs ih =>
    have hnone : s.functionName? = none := by
      cases s with
      | function decl => exact absurd rfl (hs decl)
      | _ => rfl
    rw [ih, List.filterMap_cons_none hnone]

/-- The declarations whose name is in a scope already or an earlier one has. -/
theorem redeclaredIn_cons (scope : List String) (outer : List (List String)) (xs : List Ident) :
    redeclaredIn (scope :: outer) xs = ((List.range xs.length).filterMap fun i =>
      xs[i]?.filter fun x => x.name ∈ scope ++ (xs.take i).map Ident.name).map redeclaration := by
  induction xs generalizing scope with
  | nil => rfl
  | cons x xs ih =>
    have hscope : ∃ scope', declareIn (scope :: outer) x = scope' :: outer ∧
        ∀ name, name ∈ scope' ↔ name ∈ x.name :: scope := by
      simp only [declareIn]
      split
      · rename_i hmem
        refine ⟨scope, rfl, fun name => ?_⟩
        simp only [List.mem_cons, iff_or_self]
        rintro rfl
        exact hmem
      · exact ⟨x.name :: scope, rfl, fun name => Iff.rfl⟩
    obtain ⟨scope', hdeclare, hscope'⟩ := hscope
    have hmem (y : Ident) (names : List String) :
        y.name ∈ scope' ++ names ↔ y.name ∈ scope ++ x.name :: names := by
      simp only [List.mem_append, hscope', List.mem_cons, or_left_comm, or_assoc]
    rw [redeclaredIn, hdeclare, ih, List.length_cons, List.range_succ_eq_map, List.filterMap_cons,
      List.filterMap_map]
    simp only [Function.comp_def, Nat.succ_eq_add_one, List.getElem?_cons_succ,
      List.getElem?_cons_zero, List.take_succ_cons, List.take_zero, List.map_cons, List.map_nil,
      List.append_nil, hmem]
    by_cases hhead : x.name ∈ scope
    · simp [Option.filter, hhead]
    · simp [Option.filter, hhead]

theorem redeclaredIn_eq (outer : List (List String)) (xs : List Ident) :
    redeclaredIn ([] :: outer) xs = (redeclared xs).map redeclaration :=
  redeclaredIn_cons [] outer xs

/-! ## What the variables of the resolver say -/

/-- What the resolver knows agrees with the path to the position where it is. -/
structure Scoping.Stands (r : Scoping) (path : List Enclosure) : Prop where
  inFunction : r.inFunction = true ↔ .function ∈ path
  inLoop : r.loopDepth ≠ 0 ↔ InLoop path
  inClass : r.classContext = (innermostClass? path).elim .outside fun derived =>
    if derived = true then .derived else .plain
  isLocal : r.scopes ≠ [] ↔ IsLocal path

namespace Scoping.Stands
variable {r r' : Scoping} {path : List Enclosure}

theorem fresh : Scoping.fresh.Stands [] := by
  constructor <;> simp [Scoping.fresh, InLoop, IsLocal, innermostClass?]

theorem awaiting (h : r.Stands path) (name : String) : (r.awaiting name).Stands path :=
  ⟨h.inFunction, h.inLoop, h.inClass, h.isLocal⟩

theorem block (h : r.Stands path) : (r.enter []).Stands (.block :: path) := by
  refine ⟨?_, ?_, ?_, ?_⟩
  · simpa [enter] using h.inFunction
  · simpa [enter, InLoop] using h.inLoop
  · simpa [enter, innermostClass?] using h.inClass
  · simp [enter, IsLocal]

theorem function (h : r.Stands path) : r.enterFunction.Stands (.function :: path) := by
  refine ⟨?_, ?_, ?_, ?_⟩
  · simp [enterFunction]
  · simp [enterFunction, InLoop]
  · simpa [enterFunction, innermostClass?] using h.inClass
  · simp [enterFunction, IsLocal]

theorem loop (h : r.Stands path) : r.enterLoop.Stands (.loopBody :: path) := by
  refine ⟨?_, ?_, ?_, ?_⟩
  · simpa [enterLoop] using h.inFunction
  · simp [enterLoop, InLoop]
  · simpa [enterLoop, innermostClass?] using h.inClass
  · simpa [enterLoop, IsLocal] using h.isLocal

theorem classBody (h : r.Stands path) :
    ((r.within .plain).enter ["this"]).Stands (.classBody false :: path) := by
  refine ⟨?_, ?_, ?_, ?_⟩
  · simpa [enter, Scoping.within] using h.inFunction
  · simpa [enter, Scoping.within, InLoop] using h.inLoop
  · simp [enter, Scoping.within, innermostClass?]
  · simp [enter, Scoping.within, IsLocal]

theorem subclassBody (h : r.Stands path) :
    (((r.within .derived).enter ["super"]).enter ["this"]).Stands (.classBody true :: path) := by
  refine ⟨?_, ?_, ?_, ?_⟩
  · simpa [enter, Scoping.within] using h.inFunction
  · simpa [enter, Scoping.within, InLoop] using h.inLoop
  · simp [enter, Scoping.within, innermostClass?]
  · simp [enter, Scoping.within, IsLocal]

end Scoping.Stands

/-! ## What the walk adds -/

/-- The second state is the first one after the declarations of `xs`, with the violations of those
and `es` besides, in some order. -/
def Adds (xs : List Ident) (r r' : Scoping) (es : List ResolveError) : Prop :=
  ∃ new, r' = { r with scopes := xs.foldl declareIn r.scopes, errors := r.errors ++ new } ∧
    new.Perm (es ++ redeclaredIn r.scopes xs)

namespace Adds
variable {xs ys : List Ident} {r r' r'' : Scoping} {es es' : List ResolveError}
  {path : List Enclosure}

theorem refl (r : Scoping) : Adds [] r r [] :=
  ⟨[], by simp, .refl _⟩

theorem report (e : ResolveError) : Adds [] r (r.reporting e) [e] :=
  ⟨[e], rfl, .refl _⟩

theorem report_if (e : ResolveError) {c c' : Prop} [Decidable c] [Decidable c'] (hc : c ↔ c') :
    Adds [] r (if c then r.reporting e else r) (if c' then [e] else []) := by
  by_cases h : c
  · rw [if_pos h, if_pos (hc.1 h)]
    exact report e
  · rw [if_neg h, if_neg (fun h' => h (hc.2 h'))]
    exact refl r

theorem declared (xs : List Ident) (r : Scoping) : Adds xs r ((declareAll xs).after r) [] :=
  ⟨redeclaredIn r.scopes xs, declareAll_eq xs r, .refl _⟩

theorem trans (h : Adds xs r r' es) (h' : Adds ys r' r'' es') :
    Adds (xs ++ ys) r r'' (es ++ es') := by
  obtain ⟨new, rfl, hnew⟩ := h
  obtain ⟨new', rfl, hnew'⟩ := h'
  refine ⟨new ++ new', by simp, (hnew.append hnew').trans ?_⟩
  rw [redeclaredIn_append, List.append_assoc, List.append_assoc]
  apply List.Perm.append_left
  rw [← List.append_assoc, ← List.append_assoc]
  exact List.perm_append_comm.append_right _

theorem perm (h : Adds xs r r' es) (hes : es.Perm es') : Adds xs r r' es' := by
  obtain ⟨new, rfl, hnew⟩ := h
  exact ⟨new, rfl, hnew.trans (hes.append_right _)⟩

theorem stands (h : Adds xs r r' es) (hr : r.Stands path) : r'.Stands path := by
  obtain ⟨new, rfl, -⟩ := h
  refine ⟨hr.inFunction, hr.inLoop, hr.inClass, ?_⟩
  rw [← hr.isLocal]
  exact not_congr (foldl_declareIn_eq_nil xs)

theorem exit (h : Adds xs (r.enter []) r' es) :
    Adds [] r r'.exit (es ++ (redeclared xs).map redeclaration) := by
  obtain ⟨new, rfl, hnew⟩ := h
  refine ⟨new, ?_, ?_⟩
  · simp [Scoping.exit, enter, tail_foldl_declareIn]
  · rw [← redeclaredIn_eq r.scopes, redeclaredIn, List.append_nil]
    exact hnew

theorem exitNames {names : List String} (h : Adds [] (r.enter names) r' es) :
    Adds [] r r'.exit es := by
  obtain ⟨new, rfl, hnew⟩ := h
  exact ⟨new, by simp [Scoping.exit, enter], hnew⟩

theorem exitFunction (h : Adds xs r.enterFunction r' es) :
    Adds [] r { r'.exit with
      inFunction := r.inFunction, loopDepth := r.loopDepth, pending := r.pending }
      (es ++ (redeclared xs).map redeclaration) := by
  obtain ⟨new, rfl, hnew⟩ := h
  refine ⟨new, ?_, ?_⟩
  · simp [Scoping.exit, enterFunction, tail_foldl_declareIn]
  · rw [← redeclaredIn_eq r.scopes, redeclaredIn, List.append_nil]
    exact hnew

theorem exitClass {context : ClassContext} (h : Adds [] (r.within context) r' es) :
    Adds [] r { r' with classContext := r.classContext } es := by
  obtain ⟨new, rfl, hnew⟩ := h
  exact ⟨new, rfl, hnew⟩

theorem exitLoop (h : Adds [] r.enterLoop r' es) :
    Adds [] r { r' with loopDepth := r'.loopDepth - 1 } es := by
  obtain ⟨new, rfl, hnew⟩ := h
  exact ⟨new, rfl, hnew⟩

theorem initialized {name : String} (h : Adds [] (r.awaiting name) r' es) :
    Adds [] r { r' with pending := r.pending } es := by
  obtain ⟨new, rfl, hnew⟩ := h
  exact ⟨new, rfl, hnew⟩

end Adds

/-! ## The walk -/

/-- What a node declares in the innermost scope. The functions of a body have been declared. -/
def Node.declares : Node → List Ident
  | .stmt s => s.functionName?.toList ++ s.introduced?.toList
  | .body ss => ss.filterMap Stmt.introduced?
  | .top ss => ss.flatMap fun s => s.functionName?.toList ++ s.introduced?.toList
  | _ => []

/-- All violations at the positions of a node. -/
def Node.total (path : List Enclosure) : Node → List ResolveError
  | .expr e => Position.total ⟨path, .expr e⟩
  | .arguments es => es.flatMap fun e => Position.total ⟨path, .expr e⟩
  | .stmt s => Position.total ⟨path, .stmt s⟩
  | .body ss => ss.flatMap fun s => Position.total ⟨path, .stmt s⟩
  | .function decl => Position.total ⟨path, .function decl⟩
  | .methods decls => decls.flatMap fun decl => Position.total ⟨path, .function decl⟩
  | .top ss => ss.flatMap fun s => Position.total ⟨path, .stmt s⟩

theorem Stmt.functionName?_eq_none {s : Stmt} (hs : s.isFunction = false) :
    s.functionName? = none := by
  cases s with
  | function decl => cases hs
  | _ => rfl

theorem Expr.isReferenceTo_iff (name : String) (e : Expr) :
    e.isReferenceTo name = true ↔ e.bare.name? = some name := by
  fun_induction Expr.bare e with
  | case1 inner ih => exact ih
  | case2 e hgroup =>
    cases e with
    | group inner => exact absurd rfl (hgroup inner)
    | «variable» x slot => simp [Expr.isReferenceTo, Expr.name?]
    | _ => simp [Expr.isReferenceTo, Expr.name?]

theorem Stmt.declares_eq_nil {s : Stmt} (hs : s.isDeclaration = false) :
    (Node.stmt s).declares = [] := by
  obtain ⟨hfunction, hnone⟩ := Stmt.of_not_declaration hs
  rw [Node.declares, Stmt.functionName?_eq_none hfunction, hnone]
  rfl

theorem Regular.adds {node : Node} (h : Regular node) {path : List Enclosure} {r : Scoping}
    (hr : r.Stands path) : Adds node.declares r (node.after r) (node.total path) := by
  induction h generalizing path r with
  | literal | «variable» =>
    rw [Node.total, Position.total_eq]
    exact .refl r
  | noArgument | noMethod | noStatement | noTop => exact .refl r
  | group _ ih | unary _ _ _ ih | get _ _ ih | assign _ _ _ ih | lambda _ ih =>
    rw [Node.total, Position.total_eq]
    refine (ih hr).perm (.of_eq ?_)
    simp [Position.violations, Position.inside, Expr.constructs, Node.total]
  | binary _ _ _ _ ih ih' | logical _ _ _ _ ih ih' | call _ _ _ ih ih' =>
    rw [Node.total, Position.total_eq]
    refine ((ih hr).trans (ih' ((ih hr).stands hr))).perm (.of_eq ?_)
    simp [Position.violations, Position.inside, Expr.constructs, Node.total, List.flatMap_map]
  | argument _ _ ih ih' | method _ _ ih ih' => exact (ih hr).trans (ih' ((ih hr).stands hr))
  | set _ _ _ ih ih' =>
    rw [Node.total, Position.total_eq]
    refine ((ih' hr).trans (ih ((ih' hr).stands hr))).perm (List.perm_append_comm.trans (.of_eq ?_))
    simp [Position.violations, Position.inside, Expr.constructs, Node.total]
  | this line slot =>
    have hclass := hr.inClass
    rw [Node.total, Position.total_eq]
    show Adds [] r ((Expr.this line slot).resolve.after r) _
    rw [Expr.resolve, after_get_bind]
    rcases hinner : innermostClass? path with _ | _ | _ <;> rw [hinner] at hclass <;>
      simp only [hclass, Option.elim, Position.violations, hinner]
    · exact .report _
    · exact .refl r
    · exact .refl r
  | super line method slot =>
    have hclass := hr.inClass
    rw [Node.total, Position.total_eq]
    show Adds [] r ((Expr.super line method slot).resolve.after r) _
    rw [Expr.resolve, after_get_bind]
    rcases hinner : innermostClass? path with _ | _ | _ <;> rw [hinner] at hclass <;>
      simp only [hclass, Option.elim, Position.violations, hinner]
    · exact .report _
    · exact .report _
    · exact .refl r
  | expression _ ih | print _ ih =>
    rw [Node.total, Position.total_eq]
    refine (ih hr).perm (.of_eq ?_)
    simp [Position.violations, Position.inside, Node.total]
  | @var name =>
    rw [Node.total, Position.total_eq]
    exact .declared [name] r
  | @varWith name value _ _ ih =>
    have hname := Adds.declared [name] r
    have hc : (!((declare name).after r).scopes.isEmpty && value.isReferenceTo name.name) = true ↔
        IsLocal path ∧ value.bare.name? = some name.name := by
      rw [Bool.and_eq_true, Expr.isReferenceTo_iff, ← (hname.stands hr).isLocal, Bool.not_eq_true',
        ← Bool.not_eq_true, List.isEmpty_iff]
      rfl
    have hreport := Adds.report_if (r := (declare name).after r)
      ⟨name.line, name.name, .selfInitializer⟩ hc
    have hbefore := hname.trans hreport
    rw [Node.total, Position.total_eq, Node.after, Stmt.after_var]
    refine (hbefore.trans (ih ((hbefore.stands hr).awaiting _)).initialized).perm (.of_eq ?_)
    simp [Position.violations, Position.inside, Node.total]
  | @block body _ ih =>
    rw [Node.total, Position.total_eq]
    have hfunctions := Adds.declared (body.filterMap Stmt.functionName?) (r.enter [])
    rw [← declareFunctions_eq] at hfunctions
    have hbody := ih (hfunctions.stands hr.block)
    refine (hfunctions.trans hbody).exit.perm (List.perm_append_comm.trans (.of_eq ?_))
    simp [Position.violations, Position.inside, scopeDeclarations, Node.total, Node.declares,
      List.flatMap_map]
  | cond _ _ hthen ih ih' =>
    rw [Node.total, Position.total_eq]
    have hbranch := ih' ((ih hr).stands hr)
    rw [Stmt.declares_eq_nil hthen] at hbranch
    refine ((ih hr).trans hbranch).perm (.of_eq ?_)
    simp [Position.violations, Position.inside, Node.total]
  | condElse _ _ hthen _ helse ih ih' ih'' =>
    rw [Node.total, Position.total_eq]
    have hbranch := ih' ((ih hr).stands hr)
    rw [Stmt.declares_eq_nil hthen] at hbranch
    have hother := ih'' (((ih hr).trans hbranch).stands hr)
    rw [Stmt.declares_eq_nil helse] at hother
    refine (((ih hr).trans hbranch).trans hother).perm (.of_eq ?_)
    simp [Position.violations, Position.inside, Node.total]
  | loop _ _ hbody ih ih' =>
    rw [Node.total, Position.total_eq]
    have hinner := ih' ((ih hr).stands hr).loop
    rw [Stmt.declares_eq_nil hbody] at hinner
    refine ((ih hr).trans hinner.exitLoop).perm (.of_eq ?_)
    simp [Position.violations, Position.inside, Node.total]
  | @functionDecl decl _ _ ih =>
    rw [Node.total, Position.total_eq]
    have hname := Adds.declared decl.name.toList r
    refine (hname.trans (ih (hname.stands hr))).perm (.of_eq ?_)
    simp [Position.violations, Position.inside, Node.total]
  | ret line =>
    have hc : (!r.inFunction) = true ↔ .function ∉ path := by
      rw [← hr.inFunction, Bool.not_eq_true', Bool.not_eq_true]
    rw [Node.total, Position.total_eq]
    show Adds [] r ((Stmt.ret line none).resolve.after r) _
    rw [Stmt.resolve, after_get_bind, after_ite]
    refine (Adds.report_if _ hc).perm (.of_eq ?_)
    simp [Position.violations, Position.inside]
  | @retWith value line _ ih =>
    have hc : (!r.inFunction) = true ↔ .function ∉ path := by
      rw [← hr.inFunction, Bool.not_eq_true', Bool.not_eq_true]
    have hreport := Adds.report_if (r := r) ⟨line, "return", .returnAtTopLevel⟩ hc
    rw [Node.total, Position.total_eq, Node.after, Stmt.after_ret]
    refine (hreport.trans (ih (hreport.stands hr))).perm (.of_eq ?_)
    simp [Position.violations, Position.inside, Node.total]
  | brk line =>
    have hc : r.loopDepth = 0 ↔ ¬ InLoop path := by
      rw [← hr.inLoop, Decidable.not_not]
    rw [Node.total, Position.total_eq]
    show Adds [] r ((Stmt.brk line).resolve.after r) _
    rw [Stmt.resolve, after_get_bind, after_ite]
    refine (Adds.report_if _ hc).perm (.of_eq ?_)
    simp [Position.violations, Position.inside]
  | @classDecl name decls _ _ ih =>
    have hname := Adds.declared [name] r
    have hmethods := (ih (hname.stands hr).classBody).exitNames.exitClass
    rw [Node.total, Position.total_eq]
    refine (hname.trans hmethods).perm (.of_eq ?_)
    simp [Position.violations, Position.inside, Node.total, List.flatMap_map]
  | @subclassDecl name decls parent _ _ _ ih =>
    obtain ⟨parent, slot⟩ := parent
    have hname := Adds.declared [name] r
    have hreport := Adds.report_if (r := (declare name).after r)
      ⟨parent.line, parent.name, .selfInheritance⟩ (Iff.refl (parent.name = name.name))
    have hbefore := hname.trans hreport
    have hmethods := (ih (hbefore.stands hr).subclassBody).exitNames.exitNames.exitClass
    rw [Node.total, Position.total_eq, Node.after, Stmt.after_subclass]
    refine (hbefore.trans hmethods).perm (.of_eq ?_)
    simp [Position.violations, Position.inside, Node.total, List.flatMap_map]
  | @bodyFunction decl rest _ _ _ ih ih' =>
    have htotal : Position.total ⟨path, .stmt (.function decl)⟩ =
        Position.total ⟨path, .function decl⟩ := by
      rw [Position.total_eq]
      simp [Position.violations, Position.inside]
    refine ((ih hr).trans (ih' ((ih hr).stands hr))).perm (.of_eq ?_)
    simp [Node.total, htotal]
  | @bodyStmt s rest hs _ _ ih ih' =>
    have hdeclares : (Node.body (s :: rest)).declares =
        (Node.stmt s).declares ++ (Node.body rest).declares := by
      simp only [Node.declares, Stmt.functionName?_eq_none hs, List.filterMap_cons]
      cases s.introduced? <;> rfl
    have hrun :
        (Node.body (s :: rest)).after r = (Node.body rest).after ((Node.stmt s).after r) := by
      show (resolveBody (s :: rest)).after r = _
      rw [resolveBody_cons hs]
      rfl
    rw [hdeclares, hrun]
    exact (ih hr).trans (ih' ((ih hr).stands hr))
  | @code params body name line _ _ ih =>
    have hparams := Adds.declared params r.enterFunction
    have hfunctions := Adds.declared (body.filterMap Stmt.functionName?)
      ((declareAll params).after r.enterFunction)
    rw [← declareFunctions_eq] at hfunctions
    have hscope := hparams.trans hfunctions
    have hbody := ih (hscope.stands hr.function)
    rw [Node.total, Position.total_eq]
    refine (hscope.trans hbody).exitFunction.perm (List.perm_append_comm.trans (.of_eq ?_))
    simp [Position.violations, Position.inside, scopeDeclarations, Node.total, Node.declares,
      List.flatMap_map]
  | topStmt _ _ ih ih' => exact (ih hr).trans (ih' ((ih hr).stands hr))

/-! ## Whole programs -/

theorem resolved_of_errors {p : Program} (h : ((resolveTop p).after .fresh).errors ≠ []) :
    p.resolved = .error ((resolveTop p).after .fresh).errors := by
  have hrun : ((Scoping.resolve p).run .fresh).1 =
      ((resolveTop p).outcome .fresh, ((resolveTop p).after .fresh).errors) := rfl
  unfold Program.resolved
  rw [hrun]
  generalize ((resolveTop p).after .fresh).errors = errors at h
  cases errors with
  | nil => exact absurd rfl h
  | cons e errors => rfl

/-- Nothing is compared at top level. -/
theorem redeclaredIn_nil (xs : List Ident) : redeclaredIn [] xs = [] := by
  induction xs with
  | nil => rfl
  | cons x xs ih => exact ih

theorem Regular.errors_perm {p : Program} (h : Regular (.top p)) :
    ((resolveTop p).after .fresh).errors.Perm p.violations := by
  obtain ⟨new, hafter, hnew⟩ := h.adds Scoping.Stands.fresh
  change (resolveTop p).after .fresh = _ at hafter
  rw [Program.violations_eq, hafter]
  change (new : List ResolveError).Perm _
  rwa [show Scoping.fresh.scopes = [] from rfl, redeclaredIn_nil, List.append_nil] at hnew

/-- A program that the parser produces is resolved if it violates no rule. Otherwise there is
exactly one error for each violation. -/
theorem violations_reported_once (source : String) (p : Program)
    (h : Grammar.parseProgram (tokens source) = .ok p) :
    (p.violations = [] → ∃ q, p.resolved = .ok q) ∧
      (p.violations ≠ [] → ∃ errors, p.resolved = .error errors ∧ errors.Perm p.violations) := by
  have hperm := (regular_of_parsed_program h).errors_perm
  constructor
  · intro hnone
    rw [hnone] at hperm
    exact ⟨_, resolved_of_quiet hperm.eq_nil⟩
  · intro hsome
    refine ⟨_, resolved_of_errors ?_, hperm⟩
    intro hnil
    rw [hnil] at hperm
    exact hsome hperm.nil_eq.symm

/-- A parameter comes before a function of the same name, and that before a variable. A loop around
a function is not one inside it, and a class around a class does not count. -/
theorem violations_reported_once_nested :
    let source := "while (true) fun (a) \x7b var a; fun a() \x7b\x7d break; \x7d;\n" ++
      "class A < B \x7b m() \x7b class C \x7b n() \x7b super.n(); \x7d \x7d \x7d \x7d"
    let errors : List ResolveError := [⟨1, "a", .redeclared⟩, ⟨1, "a", .redeclared⟩,
      ⟨1, "break", .breakOutsideLoop⟩, ⟨2, "super", .superWithoutSuperclass⟩]
    ∃ p, Grammar.parseProgram (tokens source) = .ok p ∧ p.violations ≠ [] ∧
      p.resolved = .error errors ∧ errors.Perm p.violations := by
  intro source errors
  have hcheck : ((Grammar.parseProgram (tokens source)).toOption.any fun p =>
      decide (((resolveTop p).after .fresh).errors = errors)) = true := by decide +kernel
  obtain ⟨p, hp, herrors⟩ := (Option.any_eq_true _ _).1 hcheck
  have hparsed : Grammar.parseProgram (tokens source) = .ok p := by
    cases hparse : Grammar.parseProgram (tokens source) with
    | error e =>
      rw [hparse] at hp
      cases hp
    | ok q =>
      rw [hparse] at hp
      exact congrArg Except.ok (Option.some.inj hp)
  have hresolved : Program.resolved p = .error errors := by
    have heq := of_decide_eq_true herrors
    rw [← heq]
    apply resolved_of_errors
    rw [heq]
    exact List.cons_ne_nil _ _
  obtain ⟨hquiet, hloud⟩ := violations_reported_once source p hparsed
  have hviolated : Program.violations p ≠ [] := by
    intro hnone
    obtain ⟨q, hq⟩ := hquiet hnone
    rw [hresolved] at hq
    cases hq
  obtain ⟨reported, hreported, hperm⟩ := hloud hviolated
  rw [hresolved] at hreported
  cases hreported
  exact ⟨p, hparsed, hviolated, hresolved, hperm⟩

end Lox
