import Lox.Proofs.Scoping.Resolved
import Lox.Proofs.Widening.Syntax

/-!
# Resolving with one scope more

Names are looked up as before where one more scope is open, in which nothing is declared, and only
the distances past that scope are longer. So the resolver finds the same violations, and the tree
that it makes of a node is the one that it makes without that scope, moved past it.
-/

set_option autoImplicit false

namespace Lox

open Scoping ResolveM

namespace Scoping

/-- The second list has an empty scope more, this many scopes outward. No superclass is bound in
the scope outside it. -/
inductive Apart : Nat → List (List String) → List (List String) → Prop where
  | here {outer : List (List String)} (h : ∀ scope ∈ outer.head?, "super" ∉ scope) :
      Apart 0 outer ([] :: outer)
  | inside {k : Nat} {outer outer' : List (List String)} (scope : List String) :
      Apart k outer outer' → Apart (k + 1) (scope :: outer) (scope :: outer')

namespace Apart
variable {k : Nat} {scopes scopes' : List (List String)}

theorem distance?_eq (h : Apart k scopes scopes') (x : String) :
    distance? x scopes' = (distance? x scopes).map (Gap.distance (some k)) := by
  induction h with
  | here h => rfl
  | @inside k outer outer' scope _ ih =>
    rw [distance?, distance?]
    split
    · rfl
    · rw [ih, Option.map_map, Option.map_map]
      congr 1
      funext d
      exact (Gap.distance_inner_succ (some k) d).symm

theorem not_super (h : Apart k scopes scopes') {scope : List String}
    (hk : scopes[k]? = some scope) : "super" ∉ scope := by
  induction h with
  | here h => exact h scope (List.head?_eq_getElem?.trans hk)
  | inside _ _ ih => exact ih hk

end Apart

/-- The same is known, but for an empty scope more. No initializer stands directly in it. -/
structure Widens (k : Nat) (r r' : Scoping) : Prop where
  scopes : Apart k r.scopes r'.scopes
  inFunction : r'.inFunction = r.inFunction
  classContext : r'.classContext = r.classContext
  loopDepth : r'.loopDepth = r.loopDepth
  pending : r'.pending = r.pending
  errors : r'.errors = r.errors
  settled : k = 0 → r.pending = none

namespace Widens
variable {k : Nat} {r r' : Scoping}

theorem visible?_eq (h : Widens k r r') (x : String) :
    r'.visible? x = (r.visible? x).map (Gap.distance (some k)) := by
  unfold visible?
  rw [h.pending]
  split
  · rename_i hpending
    obtain ⟨scopes, inFunction, context, depth, pending, errors⟩ := r
    obtain ⟨scopes', inFunction', context', depth', pending', errors'⟩ := r'
    cases h.scopes with
    | here =>
      have hnone : pending = none := h.settled rfl
      rw [hnone] at hpending
      cases hpending
    | @inside k outer outer' scope houter =>
      dsimp only
      rw [houter.distance?_eq, Option.map_map, Option.map_map]
      congr 1
      funext d
      exact (Gap.distance_inner_succ (some k) d).symm
  · exact h.scopes.distance?_eq x

theorem binding_eq (h : Widens k r r') (x : String) :
    some (r'.binding x) = Gap.slot (some k) (some (r.binding x)) := by
  rw [binding, binding, h.visible?_eq]
  cases r.visible? x <;> rfl

/-- The extra scope is not just inside one that binds a superclass. -/
theorem binding_super (h : Widens k r r') {d : Nat} (hd : r.binding "super" = .atDistance d) :
    (some k : Gap) ≠ some d := by
  rintro heq
  obtain rfl := Option.some.inj heq
  obtain ⟨⟨scope, hscope, hmem⟩, -⟩ := shows_of_visible? (visible?_of_binding hd)
  exact h.scopes.not_super hscope hmem

theorem enter (h : Widens k r r') (names : List String) :
    Widens (k + 1) (r.enter names) (r'.enter names) :=
  { h with scopes := .inside names h.scopes, settled := by simp }

theorem enterFunction (h : Widens k r r') : Widens (k + 1) r.enterFunction r'.enterFunction :=
  ⟨.inside [] h.scopes, rfl, h.classContext, rfl, rfl, h.errors, by simp⟩

theorem enterLoop (h : Widens k r r') : Widens k r.enterLoop r'.enterLoop :=
  { h with loopDepth := congrArg (· + 1) h.loopDepth }

theorem within (h : Widens k r r') (context : ClassContext) :
    Widens k (r.within context) (r'.within context) :=
  { h with classContext := rfl }

theorem awaiting (h : Widens k r r') (hk : k ≠ 0) (name : String) :
    Widens k (r.awaiting name) (r'.awaiting name) :=
  { h with pending := rfl, settled := fun hzero => absurd hzero hk }

theorem reporting (h : Widens k r r') (error : ResolveError) :
    Widens k (r.reporting error) (r'.reporting error) :=
  { h with errors := congrArg (· ++ [error]) h.errors }

theorem reportingIf (h : Widens k r r') (c : Prop) [Decidable c] (error : ResolveError) :
    Widens k (if c then r.reporting error else r) (if c then r'.reporting error else r') := by
  split
  · exact h.reporting error
  · exact h

/-- Where nothing but errors is added on both sides, only these are to be compared. -/
theorem keeps {s s' : Scoping} (h : Widens k r r') (hs : r.Keeps s) (hs' : r'.Keeps s')
    (herrors : s'.errors = s.errors) : Widens k s s' := by
  obtain ⟨new, rfl⟩ := hs
  obtain ⟨new', rfl⟩ := hs'
  exact { h with errors := herrors }

theorem declare (h : Widens k r r') (hk : k ≠ 0) (name : Ident) :
    Widens k ((declare name).after r) ((declare name).after r') := by
  obtain ⟨scopes, inFunction, context, depth, pending, errors⟩ := r
  obtain ⟨scopes', inFunction', context', depth', pending', errors'⟩ := r'
  cases h.scopes with
  | here => exact absurd rfl hk
  | inside scope houter =>
    rw [after_declare, after_declare]
    dsimp only
    split
    · exact h.reporting _
    · exact { h with scopes := .inside (name.name :: scope) houter }

theorem declareAll (h : Widens k r r') (hk : k ≠ 0) (names : List Ident) :
    Widens k ((declareAll names).after r) ((declareAll names).after r') := by
  induction names generalizing r r' with
  | nil => exact h
  | cons name names ih => exact ih (h.declare hk name)

theorem declareFunctions (h : Widens k r r') (hk : k ≠ 0) (body : List Stmt) :
    Widens k ((declareFunctions body).after r) ((declareFunctions body).after r') := by
  fun_induction ResolveM.declareFunctions body generalizing r r' with
  | case1 => exact h
  | case2 decl rest ih => exact ih (h.declareAll hk _)
  | case3 s rest _ ih => exact ih h

theorem isEmpty_scopes (h : Widens k r r') (hk : k ≠ 0) :
    r'.scopes.isEmpty = r.scopes.isEmpty := by
  have hscopes := h.scopes
  generalize r.scopes = scopes, r'.scopes = scopes' at hscopes
  cases hscopes with
  | here => exact absurd rfl hk
  | inside => rfl

end Widens

end Scoping

/-! ## The walk with one scope more -/

/-- Nothing is declared in the extra scope if the node stands this many scopes inward from it. -/
def Node.MayStand (k : Nat) : Node → Prop
  | .stmt s => k = 0 → s.isDeclaration = false
  | .body _ => k ≠ 0
  | .top _ => False
  | _ => True

/-- The walk over the node does the same with one scope more, but for the distances in the tree
that it makes. -/
structure Node.Moves (k : Nat) (r r' : Scoping) (node : Node) : Prop where
  state : Widens k (node.after r) (node.after r')
  tree : (node.after r').errors = [] → Widened (some k) (node.outcome r) (node.outcome r')

namespace Regular
variable {k : Nat} {r r' : Scoping}

theorem moves_this (hr : Widens k r r') (line : Nat) (slot : Slot) :
    (Node.expr (.this line slot)).Moves k r r' := by
  have hcontext := hr.classContext
  have hreport := hr.reporting ⟨line, "this", .thisOutsideClass⟩
  have hthis := Alike.this (T := Widened) (g := some k) line (some (r.binding "this"))
  rw [← hr.binding_eq] at hthis
  obtain ⟨scopes, inFunction, context, depth, pending, errors⟩ := r
  obtain ⟨scopes', inFunction', context', depth', pending', errors'⟩ := r'
  obtain rfl : context' = context := hcontext
  cases context' with
  | outside => exact ⟨hreport, fun hquiet => absurd hquiet (reporting_ne_nil _ _)⟩
  | plain => exact ⟨hr, fun _ => .node hthis⟩
  | derived => exact ⟨hr, fun _ => .node hthis⟩

theorem moves_super (hr : Widens k r r') (line : Nat) (method : Ident) (slot : Slot) :
    (Node.expr (.super line method slot)).Moves k r r' := by
  have hcontext := hr.classContext
  have hreport (fault : ResolveFault) := hr.reporting ⟨line, "super", fault⟩
  have hsuper :
      Alike Widened (.expr (.super line method (some (r.binding "super")))) _ (some k) :=
    .super line method fun d hd => hr.binding_super (Option.some.inj hd)
  rw [← hr.binding_eq] at hsuper
  obtain ⟨scopes, inFunction, context, depth, pending, errors⟩ := r
  obtain ⟨scopes', inFunction', context', depth', pending', errors'⟩ := r'
  obtain rfl : context' = context := hcontext
  cases context' with
  | outside => exact ⟨hreport _, fun hquiet => absurd hquiet (reporting_ne_nil _ _)⟩
  | plain => exact ⟨hreport _, fun hquiet => absurd hquiet (reporting_ne_nil _ _)⟩
  | derived => exact ⟨hr, fun _ => .node hsuper⟩

theorem moves_var (hr : Widens k r r') (hk : k ≠ 0) (name : Ident) {value : Expr}
    (ih : ∀ {r r' : Scoping}, Widens k r r' → (Node.expr value).Moves k r r') :
    (Node.stmt (.var name (some value))).Moves k r r' := by
  have hbefore : Widens k (r.beforeInitializer name value) (r'.beforeInitializer name value) := by
    rw [beforeInitializer, beforeInitializer, (hr.declare hk name).isEmpty_scopes hk]
    exact (hr.declare hk name).reportingIf _ _
  have hvalue := ih (hbefore.awaiting hk name.name)
  constructor
  · rw [Node.after, Node.after, Stmt.after_var, Stmt.after_var]
    exact hbefore.keeps (value.keeps _).initialized (value.keeps _).initialized hvalue.state.errors
  · intro hquiet
    rw [Node.after, Stmt.after_var] at hquiet
    rw [Node.outcome, Node.outcome, Stmt.outcome_var, Stmt.outcome_var]
    exact .node (.varWith name (by simpa using hk) (hvalue.tree hquiet))

theorem moves_subclass (hr : Widens k r r') (hk : k ≠ 0) (name : Ident) (parent : Ident × Slot)
    {decls : List FunDecl}
    (ih : ∀ {r r' : Scoping}, Widens (k + 2) r r' → (Node.methods decls).Moves (k + 2) r r') :
    (Node.stmt (.classDecl name (some parent) decls)).Moves k r r' := by
  obtain ⟨parent, slot⟩ := parent
  have hreport := (hr.declare hk name).reportingIf (parent.name = name.name)
    ⟨parent.line, parent.name, .selfInheritance⟩
  have hdecls := ih (((hreport.within .derived).enter ["super"]).enter ["this"])
  have hkeeps (r : Scoping) : (((r.within .derived).enter ["super"]).enter ["this"]).Keeps
      ((resolveMethods decls).after (((r.within .derived).enter ["super"]).enter ["this"])) :=
    Node.change (.methods decls) _
  have hclass (r : Scoping) := (hkeeps r).grows.exit.grows.exit.exitClass
  constructor
  · simp only [Node.after, Stmt.resolve, after_bind, after_report_if]
    exact hreport.keeps (hclass _) (hclass _) hdecls.state.errors
  · intro hquiet
    simp only [Node.after, Stmt.resolve, after_bind, after_report_if] at hquiet
    simp only [Node.outcome, Stmt.resolve, outcome_bind, outcome_report_if]
    change Widened _ _ (.stmt (.classDecl name (some (parent, some (Scoping.binding _ _))) _))
    rw [hreport.binding_eq]
    exact .node (.subclassDecl name parent _ (by simpa using hk) (.node (.variable parent _))
      (hdecls.tree hquiet))

theorem moves_ret (hr : Widens k r r') (line : Nat) :
    (Node.stmt (.ret line none)).Moves k r r' := by
  have hreport := hr.reportingIf ((!r.inFunction) = true) ⟨line, "return", .returnAtTopLevel⟩
  constructor
  · simp only [Node.after, Stmt.resolve, after_get_bind, after_report_if, hr.inFunction]
    exact hreport
  · intro _
    simp only [Node.outcome, Stmt.resolve, outcome_get_bind, outcome_report_if]
    exact .node (.ret line)

theorem moves_retWith (hr : Widens k r r') (line : Nat) {value : Expr}
    (ih : ∀ {r r' : Scoping}, Widens k r r' → (Node.expr value).Moves k r r') :
    (Node.stmt (.ret line (some value))).Moves k r r' := by
  have hreport := hr.reportingIf ((!r.inFunction) = true) ⟨line, "return", .returnAtTopLevel⟩
  have hvalue := ih hreport
  constructor
  · simp only [Node.after, Stmt.resolve, after_get_bind, after_report_if, hr.inFunction]
    exact hvalue.state
  · intro hquiet
    simp only [Node.after, Stmt.resolve, after_get_bind, after_report_if, hr.inFunction] at hquiet
    simp only [Node.outcome, Stmt.resolve, outcome_get_bind, outcome_report_if, hr.inFunction]
    exact .node (.retWith line (hvalue.tree hquiet))

theorem moves_brk (hr : Widens k r r') (line : Nat) : (Node.stmt (.brk line)).Moves k r r' := by
  have hreport := hr.reportingIf (r.loopDepth = 0) ⟨line, "break", .breakOutsideLoop⟩
  constructor
  · simp only [Node.after, Stmt.resolve, after_get_bind, after_report_if, hr.loopDepth]
    exact hreport
  · intro _
    simp only [Node.outcome, Stmt.resolve, outcome_get_bind, outcome_report_if]
    exact .node (.brk line)

theorem moves_block (hr : Widens k r r') {body : List Stmt}
    (ih : ∀ {r r' : Scoping}, Widens (k + 1) r r' → (Node.body body).Moves (k + 1) r r') :
    (Node.stmt (.block body)).Moves k r r' := by
  have hbody := ih ((hr.enter []).declareFunctions (Nat.succ_ne_zero k) body)
  have hblock (r : Scoping) :=
    ((grows_declareFunctions (r.enter []) body).trans (Node.change (.body body) _)).exit
  exact ⟨hr.keeps (hblock r) (hblock r') hbody.state.errors,
    fun hquiet => .node (.block (hbody.tree hquiet))⟩

theorem moves_code (hr : Widens k r r') (name : Option Ident) (params : List Ident) (line : Nat)
    {body : List Stmt}
    (ih : ∀ {r r' : Scoping}, Widens (k + 1) r r' → (Node.body body).Moves (k + 1) r r') :
    (Node.function ⟨name, params, body, line⟩).Moves k r r' := by
  have hparams := hr.enterFunction.declareAll (Nat.succ_ne_zero k) params
  have hbody := ih (hparams.declareFunctions (Nat.succ_ne_zero k) body)
  have hcode (r : Scoping) := Node.change (.function ⟨name, params, body, line⟩) r
  exact ⟨hr.keeps (hcode r) (hcode r') hbody.state.errors,
    fun hquiet => .node (.code name params line (hbody.tree hquiet))⟩

/-- The walk over a regular tree with one scope more, in which nothing is declared. -/
theorem moves {node : Node} (h : Regular node) (hr : Widens k r r') (hstand : node.MayStand k) :
    node.Moves k r r' := by
  -- What is quiet in the end has been quiet before each part.
  induction h generalizing k r r' with
  | literal value line => exact ⟨hr, fun _ => .node (.literal value line)⟩
  | group _ ih =>
    have hinner := ih hr trivial
    exact ⟨hinner.state, fun hquiet => .node (.group (hinner.tree hquiet))⟩
  | @«variable» name slot _ =>
    have hvariable := Alike.variable (T := Widened) (g := some k) name
      (some (r.binding name.name))
    rw [← hr.binding_eq] at hvariable
    exact ⟨hr, fun _ => .node hvariable⟩
  | @assign name value slot _ _ ih =>
    have hvalue := ih hr trivial
    refine ⟨hvalue.state, fun hquiet => ?_⟩
    have hassign := Alike.assign name (some (((Node.expr value).after r).binding name.name))
      (hvalue.tree hquiet)
    rw [← hvalue.state.binding_eq] at hassign
    exact .node hassign
  | unary op line _ ih =>
    have hoperand := ih hr trivial
    exact ⟨hoperand.state, fun hquiet => .node (.unary op line (hoperand.tree hquiet))⟩
  | @binary left right op line _ _ ih ih' =>
    have hleft := ih hr trivial
    have hright := ih' hleft.state trivial
    refine ⟨hright.state, fun hquiet => ?_⟩
    have hquiet' := (right.keeps _).grows.errors_nil hquiet
    exact .node (.binary op line (hleft.tree hquiet') (hright.tree hquiet))
  | @logical left right op line _ _ ih ih' =>
    have hleft := ih hr trivial
    have hright := ih' hleft.state trivial
    refine ⟨hright.state, fun hquiet => ?_⟩
    have hquiet' := (right.keeps _).grows.errors_nil hquiet
    exact .node (.logical op line (hleft.tree hquiet') (hright.tree hquiet))
  | @call callee arguments line _ _ ih ih' =>
    have hcallee := ih hr trivial
    have harguments := ih' hcallee.state trivial
    refine ⟨harguments.state, fun hquiet => ?_⟩
    have hquiet' := (Keeps.grows (Node.change (.arguments arguments) _)).errors_nil hquiet
    exact .node (.call line (hcallee.tree hquiet') (harguments.tree hquiet))
  | get name _ ih =>
    have hobject := ih hr trivial
    exact ⟨hobject.state, fun hquiet => .node (.get name (hobject.tree hquiet))⟩
  | @set object value name _ _ ih ih' =>
    have hvalue := ih' hr trivial
    have hobject := ih hvalue.state trivial
    refine ⟨hobject.state, fun hquiet => ?_⟩
    have hquiet' := (object.keeps _).grows.errors_nil hquiet
    exact .node (.set name (hobject.tree hquiet) (hvalue.tree hquiet'))
  | this line slot => exact moves_this hr line slot
  | super line method slot => exact moves_super hr line method slot
  | lambda _ ih =>
    have hdecl := ih hr trivial
    exact ⟨hdecl.state, fun hquiet => .node (.lambda (hdecl.tree hquiet))⟩
  | noArgument => exact ⟨hr, fun _ => .node .noArgument⟩
  | @argument e es _ _ ih ih' =>
    have he := ih hr trivial
    have hes := ih' he.state trivial
    refine ⟨hes.state, fun hquiet => ?_⟩
    have hquiet' := (Keeps.grows (Node.change (.arguments es) _)).errors_nil hquiet
    exact .node (.argument (he.tree hquiet') (hes.tree hquiet))
  | expression _ ih =>
    have hvalue := ih hr trivial
    exact ⟨hvalue.state, fun hquiet => .node (.expression (hvalue.tree hquiet))⟩
  | print _ ih =>
    have hvalue := ih hr trivial
    exact ⟨hvalue.state, fun hquiet => .node (.print (hvalue.tree hquiet))⟩
  | @var name _ =>
    have hk : k ≠ 0 := fun hzero => Bool.noConfusion (hstand hzero)
    exact ⟨hr.declare hk name, fun _ => .node (.var name (by simpa using hk))⟩
  | @varWith name value _ _ ih =>
    have hk : k ≠ 0 := fun hzero => Bool.noConfusion (hstand hzero)
    exact moves_var hr hk name fun hr => ih hr trivial
  | block _ ih => exact moves_block hr fun hr => ih hr (Nat.succ_ne_zero k)
  | @cond condition thenBranch _ _ hthen ih ih' =>
    have hcondition := ih hr trivial
    have hbranch := ih' hcondition.state fun _ => hthen
    refine ⟨hbranch.state, fun hquiet => ?_⟩
    have hquiet' := (thenBranch.grows _).errors_nil hquiet
    exact .node (.cond (hcondition.tree hquiet') (hbranch.tree hquiet))
  | @condElse condition thenBranch elseBranch _ _ hthen _ helse ih ih' ih'' =>
    have hcondition := ih hr trivial
    have hbranch := ih' hcondition.state fun _ => hthen
    have hbranch' := ih'' hbranch.state fun _ => helse
    refine ⟨hbranch'.state, fun hquiet => ?_⟩
    have hquiet' := (elseBranch.grows _).errors_nil hquiet
    have hquiet'' := (thenBranch.grows _).errors_nil hquiet'
    exact .node (.condElse (hcondition.tree hquiet'') (hbranch.tree hquiet') (hbranch'.tree hquiet))
  | @loop condition body _ hbody hdeclares ih ih' =>
    have hcondition := ih hr trivial
    have hturn := ih' hcondition.state.enterLoop fun _ => hdeclares
    refine ⟨hcondition.state.keeps (hbody.keeps hdeclares _).exitLoop
      (hbody.keeps hdeclares _).exitLoop hturn.state.errors, fun hquiet => ?_⟩
    have hquiet' := (body.grows _).errors_nil hquiet
    exact .node (.loop (hcondition.tree hquiet') (hturn.tree hquiet))
  | @functionDecl decl _ _ ih =>
    have hk : k ≠ 0 := fun hzero => Bool.noConfusion (hstand hzero)
    have hdecl := ih (hr.declareAll hk decl.name.toList) trivial
    exact ⟨hdecl.state, fun hquiet => .node (.functionDecl (by simpa using hk) (hdecl.tree hquiet))⟩
  | ret line => exact moves_ret hr line
  | retWith line _ ih => exact moves_retWith hr line fun hr => ih hr trivial
  | brk line => exact moves_brk hr line
  | @classDecl name decls _ _ ih =>
    have hk : k ≠ 0 := fun hzero => Bool.noConfusion (hstand hzero)
    have hname := hr.declare hk name
    have hdecls := ih ((hname.within .plain).enter ["this"]) trivial
    have hclass (r : Scoping) : r.Keeps _ :=
      (Keeps.grows (Node.change (.methods decls) ((r.within .plain).enter ["this"]))).exit.exitClass
    exact ⟨hname.keeps (hclass _) (hclass _) hdecls.state.errors,
      fun hquiet => .node (.classDecl name (by simpa using hk) (hdecls.tree hquiet))⟩
  | @subclassDecl name decls parent _ _ _ ih =>
    have hk : k ≠ 0 := fun hzero => Bool.noConfusion (hstand hzero)
    exact moves_subclass hr hk name parent fun hr => ih hr trivial
  | noStatement => exact ⟨hr, fun _ => .noStatement⟩
  | @bodyFunction decl rest _ _ _ ih ih' =>
    have hdecl := ih hr trivial
    have hrest := ih' hdecl.state hstand
    refine ⟨hrest.state, fun hquiet => ?_⟩
    have hquiet' := Grows.errors_nil (Node.change (.body rest) _) hquiet
    have hk : (some k : Gap) ≠ some 0 := fun hzero => hstand (Option.some.inj hzero)
    exact .statement (.node (.functionDecl hk (hdecl.tree hquiet'))) (hrest.tree hquiet)
  | @bodyStmt s rest hs _ _ ih ih' =>
    have hstmt := ih hr fun hzero => absurd hzero hstand
    have hrest := ih' hstmt.state hstand
    have hbody := resolveBody_cons hs rest
    refine ⟨?_, fun hquiet => ?_⟩
    · rw [Node.after, Node.after, hbody]
      exact hrest.state
    · rw [Node.after, hbody] at hquiet
      rw [Node.outcome, Node.outcome, hbody]
      have hquiet' := Grows.errors_nil (Node.change (.body rest) _) hquiet
      exact .statement (hstmt.tree hquiet') (hrest.tree hquiet)
  | code name line _ _ ih =>
    exact moves_code hr name _ line fun hr => ih hr (Nat.succ_ne_zero k)
  | noMethod => exact ⟨hr, fun _ => .node .noMethod⟩
  | @method decl decls _ _ ih ih' =>
    have hdecl := ih hr trivial
    have hdecls := ih' hdecl.state trivial
    refine ⟨hdecls.state, fun hquiet => ?_⟩
    have hquiet' := (Keeps.grows (Node.change (.methods decls) _)).errors_nil hquiet
    exact .node (.method (hdecl.tree hquiet') (hdecls.tree hquiet))
  | noTop => exact hstand.elim
  | topStmt => exact hstand.elim

end Regular

end Lox
