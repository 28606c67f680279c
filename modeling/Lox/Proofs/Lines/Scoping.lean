import Lox.Proofs.Lines.Syntax

/-!
# Line numbers and scopes

The resolver writes lines into its reports and does not look at them. So it fills the slots of a
tree whose lines have been changed as it fills those of the tree itself.
-/

set_option autoImplicit false

namespace Lox

def ResolveError.mapLine (f : Nat → Nat) (e : ResolveError) : ResolveError :=
  ⟨f e.line, e.lexeme, e.fault⟩

def Scoping.mapLines (f : Nat → Nat) (r : Scoping) : Scoping :=
  { r with errors := r.errors.map (ResolveError.mapLine f) }

namespace ResolveM
variable {α α' β β' : Type}

/-- Where lines are changed by `f`, the second action does what the first does, and `g` changes
what it yields. -/
def Follows (f : Nat → Nat) (g : α → β) (act : ResolveM α) (act' : ResolveM β) : Prop :=
  ∀ r, act'.outcome (r.mapLines f) = g (act.outcome r) ∧
    act'.after (r.mapLines f) = (act.after r).mapLines f

namespace Follows
variable {f : Nat → Nat} {g : α → β} {act : ResolveM α} {act' : ResolveM β}

theorem pure (a : α) : Follows f g (pure a) (pure (g a)) := fun _ => ⟨rfl, rfl⟩

theorem bind {g' : α' → β'} {k : α → ResolveM α'} {k' : β → ResolveM β'} (h : Follows f g act act')
    (hk : ∀ a, Follows f g' (k a) (k' (g a))) : Follows f g' (act >>= k) (act' >>= k') := by
  intro r
  obtain ⟨houtcome, hafter⟩ := h r
  rw [outcome_bind, after_bind, houtcome, hafter]
  exact hk (act.outcome r) (act.after r)

theorem get_bind {k : Scoping → ResolveM α} {k' : Scoping → ResolveM β}
    (hk : ∀ r, Follows f g (k r) (k' (r.mapLines f))) : Follows f g (get >>= k) (get >>= k') := by
  intro r
  exact hk r r

theorem ite {act₁ : ResolveM α} {act₁' : ResolveM β} (c : Prop) [Decidable c]
    (h : Follows f g act act') (h₁ : Follows f g act₁ act₁') :
    Follows f g (if c then act else act₁) (if c then act' else act₁') := by
  split
  · exact h
  · exact h₁

theorem report (line : Nat) (lexeme : String) (fault : ResolveFault) :
    Follows f id (report line lexeme fault) (report (f line) lexeme fault) := by
  intro r
  refine ⟨rfl, ?_⟩
  change (r.mapLines f).reporting _ = (r.reporting _).mapLines f
  simp [Scoping.mapLines, Scoping.reporting, ResolveError.mapLine]

/-- A report under a condition, and what is done whether or not it is made. -/
theorem report_if (c : Prop) [Decidable c] (line : Nat) (lexeme : String) (fault : ResolveFault)
    (h : Follows f g act act') :
    Follows f g (if c then ResolveM.report line lexeme fault >>= fun _ => act else act)
      (if c then ResolveM.report (f line) lexeme fault >>= fun _ => act' else act') :=
  .ite c ((report line lexeme fault).bind fun _ => h) h

theorem bindingOf (name : String) : Follows f id (bindingOf name) (bindingOf name) :=
  fun _ => ⟨rfl, rfl⟩

theorem inScope (names : List String) (h : Follows f g act act') :
    Follows f g (inScope names act) (inScope names act') := by
  intro r
  obtain ⟨houtcome, hafter⟩ := h (r.enter names)
  exact ⟨houtcome, congrArg Scoping.exit hafter⟩

theorem inFunction (h : Follows f g act act') : Follows f g (inFunction act) (inFunction act') := by
  intro r
  obtain ⟨houtcome, hafter⟩ := h r.enterFunction
  exact ⟨houtcome, congrArg (fun r' => { r'.exit with
    inFunction := r.inFunction, loopDepth := r.loopDepth, pending := r.pending }) hafter⟩

theorem inClass (context : ClassContext) (h : Follows f g act act') :
    Follows f g (inClass context act) (inClass context act') := by
  intro r
  obtain ⟨houtcome, hafter⟩ := h (r.within context)
  exact ⟨houtcome, congrArg (fun r' => { r' with classContext := r.classContext }) hafter⟩

theorem inLoop (h : Follows f g act act') : Follows f g (inLoop act) (inLoop act') := by
  intro r
  obtain ⟨houtcome, hafter⟩ := h r.enterLoop
  exact ⟨houtcome, congrArg (fun r' => { r' with loopDepth := r'.loopDepth - 1 }) hafter⟩

theorem initializing (name : String) (h : Follows f g act act') :
    Follows f g (initializing name act) (initializing name act') := by
  intro r
  obtain ⟨houtcome, hafter⟩ := h (r.awaiting name)
  exact ⟨houtcome, congrArg (fun r' => { r' with pending := r.pending }) hafter⟩

theorem declare (name : Ident) : Follows f id (declare name) (declare (name.mapLine f)) := by
  intro r
  refine ⟨rfl, ?_⟩
  rw [after_declare, after_declare]
  obtain ⟨scopes, inFunction, context, depth, pending, errors⟩ := r
  cases scopes with
  | nil => rfl
  | cons scope outer =>
    dsimp only [Scoping.mapLines]
    by_cases hname : name.name ∈ scope
    · have hname' : (name.mapLine f).name ∈ scope := hname
      rw [if_pos hname, if_pos hname']
      simp [Scoping.reporting, ResolveError.mapLine, Ident.mapLine]
    · have hname' : (name.mapLine f).name ∉ scope := hname
      rw [if_neg hname, if_neg hname']
      rfl

theorem declareAll (names : List Ident) :
    Follows f id (declareAll names) (declareAll (names.map (Ident.mapLine f))) := by
  induction names with
  | nil => exact .pure ()
  | cons name names ih => exact (declare name).bind fun _ => ih

theorem declareFunctions (body : List Stmt) :
    Follows f id (declareFunctions body) (declareFunctions (mapLinesInBody f body)) := by
  fun_induction ResolveM.declareFunctions body with
  | case1 => exact .pure ()
  | case2 decl rest ih =>
    obtain ⟨name, params, body, line⟩ := decl
    cases name with
    | none => exact (declareAll []).bind fun _ => ih
    | some name => exact (declareAll [name]).bind fun _ => ih
  | case3 s rest hs ih =>
    rw [mapLinesInBody, declareFunctions.eq_3]
    · exact ih
    · exact Stmt.mapLines_ne_function f hs

end Follows

end ResolveM

open ResolveM

/-- The walk over the node with its lines changed does what the walk over the node does. -/
def Node.ResolvesAlike (f : Nat → Nat) : Node → Prop
  | .expr e => Follows f (Expr.mapLines f) e.resolve (e.mapLines f).resolve
  | .arguments es => Follows f (mapLinesInArguments f) (resolveArguments es)
      (resolveArguments (mapLinesInArguments f es))
  | .stmt s => Follows f (Stmt.mapLines f) s.resolve (s.mapLines f).resolve
  | .body ss => Follows f (mapLinesInBody f) (resolveBody ss) (resolveBody (mapLinesInBody f ss))
  | .function decl => Follows f (FunDecl.mapLines f) decl.resolve (decl.mapLines f).resolve
  | .methods decls => Follows f (mapLinesInMethods f) (resolveMethods decls)
      (resolveMethods (mapLinesInMethods f decls))
  | .top ss => Follows f (mapLinesInBody f) (resolveTop ss) (resolveTop (mapLinesInBody f ss))

section Walk
variable {f : Nat → Nat}

theorem Expr.isReferenceTo_mapLines (name : String) (e : Expr) :
    (e.mapLines f).isReferenceTo name = e.isReferenceTo name := by
  fun_induction Expr.isReferenceTo name e with
  | case1 n slot => rfl
  | case2 inner ih => exact ih
  | case3 e hvariable hgroup => cases e <;> simp_all [mapLines, isReferenceTo]

theorem Expr.resolvesAlike {e : Expr} (h : ∀ part ∈ e.parts, part.ResolvesAlike f) :
    (Node.expr e).ResolvesAlike f := by
  cases e with
  | literal value line => exact .pure _
  | group inner =>
    have hinner := h _ (.head _)
    exact hinner.bind fun _ => .pure _
  | «variable» name slot => exact (Follows.bindingOf name.name).bind fun _ => .pure _
  | assign name value slot =>
    have hvalue := h _ (.head _)
    exact hvalue.bind fun _ => (Follows.bindingOf name.name).bind fun _ => .pure _
  | unary op operand line =>
    have hoperand := h _ (.head _)
    exact hoperand.bind fun _ => .pure _
  | binary op left right line | logical op left right line =>
    have hleft := h _ (.head _)
    have hright := h _ (.tail _ (.head _))
    exact hleft.bind fun _ => hright.bind fun _ => .pure _
  | call callee arguments line =>
    have hcallee := h _ (.head _)
    have harguments := h _ (.tail _ (.head _))
    exact hcallee.bind fun _ => harguments.bind fun _ => .pure _
  | get object name =>
    have hobject := h _ (.head _)
    exact hobject.bind fun _ => .pure _
  | set object name value =>
    have hobject := h _ (.head _)
    have hvalue := h _ (.tail _ (.head _))
    exact hvalue.bind fun _ => hobject.bind fun _ => .pure _
  | this line slot =>
    refine Follows.get_bind fun r => ?_
    obtain ⟨scopes, inFunction, context, depth, pending, errors⟩ := r
    cases context with
    | outside => exact (Follows.report line "this" _).bind fun _ => .pure _
    | plain | derived => exact (Follows.bindingOf "this").bind fun _ => .pure _
  | super line method slot =>
    refine Follows.get_bind fun r => ?_
    obtain ⟨scopes, inFunction, context, depth, pending, errors⟩ := r
    cases context with
    | outside | plain => exact (Follows.report line "super" _).bind fun _ => .pure _
    | derived => exact (Follows.bindingOf "super").bind fun _ => .pure _
  | lambda decl =>
    have hdecl := h _ (.head _)
    exact hdecl.bind fun _ => .pure _

theorem Stmt.resolvesAlike {s : Stmt} (h : ∀ part ∈ s.parts, part.ResolvesAlike f) :
    (Node.stmt s).ResolvesAlike f := by
  cases s with
  | expression value | print value =>
    have hvalue := h _ (.head _)
    exact hvalue.bind fun _ => .pure _
  | var name value =>
    cases value with
    | none => exact (Follows.declare name).bind fun _ => .pure _
    | some value =>
      have hvalue := h _ (.head _)
      refine (Follows.declare name).bind fun _ => Follows.get_bind fun r => ?_
      have href : (value.mapLines f).isReferenceTo (name.mapLine f).name =
          value.isReferenceTo name.name := value.isReferenceTo_mapLines name.name
      rw [href]
      exact .report_if _ name.line name.name _
        ((hvalue.initializing name.name).bind fun _ => .pure _)
  | block body =>
    have hbody := h _ (.head _)
    exact .inScope [] ((Follows.declareFunctions body).bind fun _ => hbody.bind fun _ => .pure _)
  | cond condition thenBranch elseBranch =>
    have hcondition := h (.expr condition) (by cases elseBranch <;> exact .head _)
    have hthen := h (.stmt thenBranch) (by cases elseBranch <;> exact .tail _ (.head _))
    cases elseBranch with
    | none => exact hcondition.bind fun _ => hthen.bind fun _ => .pure _
    | some elseBranch =>
      have helse := h _ (.tail _ (.tail _ (.head _)))
      exact hcondition.bind fun _ => hthen.bind fun _ => helse.bind fun _ => .pure _
  | loop condition body =>
    have hcondition := h _ (.head _)
    have hbody := h _ (.tail _ (.head _))
    exact hcondition.bind fun _ => hbody.inLoop.bind fun _ => .pure _
  | function decl =>
    have hdecl := h _ (.head _)
    obtain ⟨name, params, body, line⟩ := decl
    cases name with
    | none => exact (Follows.declareAll []).bind fun _ => hdecl.bind fun _ => .pure _
    | some name => exact (Follows.declareAll [name]).bind fun _ => hdecl.bind fun _ => .pure _
  | ret line value =>
    cases value with
    | none => exact .get_bind fun r => .report_if _ line "return" _ (.pure _)
    | some value =>
      have hvalue := h _ (.head _)
      exact .get_bind fun r => .report_if _ line "return" _ (hvalue.bind fun _ => .pure _)
  | brk line => exact .get_bind fun r => .report_if _ line "break" _ (.pure _)
  | classDecl name superclass methods =>
    have hmethods := h (.methods methods) (.head _)
    rcases superclass with _ | ⟨parent, slot⟩
    · exact (Follows.declare name).bind fun _ =>
        (Follows.inClass .plain (hmethods.inScope ["this"])).bind fun _ => .pure _
    · have hclass := Follows.inClass .derived ((hmethods.inScope ["this"]).inScope ["super"])
      exact (Follows.declare name).bind fun _ => .report_if _ parent.line parent.name _
        ((Follows.bindingOf parent.name).bind fun _ => hclass.bind fun _ => .pure _)

theorem Node.resolvesAlike (node : Node) : node.ResolvesAlike f := by
  induction node using parts_induction with
  | h node ih =>
    cases node with
    | expr e => exact Expr.resolvesAlike ih
    | stmt s => exact Stmt.resolvesAlike ih
    | arguments es =>
      cases es with
      | nil => exact Follows.pure (g := mapLinesInArguments f) []
      | cons e es =>
        have he := ih _ (.head _)
        have hes := ih _ (.tail _ (.head _))
        exact he.bind fun _ => hes.bind fun _ => .pure _
    | body ss =>
      rcases ss with _ | ⟨s, rest⟩
      · exact Follows.pure (g := mapLinesInBody f) []
      cases hs : s.isFunction with
      | true =>
        cases s with
        | function decl =>
          have hdecl := ih _ (.head _)
          have hrest := ih _ (.tail _ (.head _))
          exact hdecl.bind fun _ => hrest.bind fun _ => .pure _
        | _ => cases hs
      | false =>
        have hs' : (s.mapLines f).isFunction = false := by rw [s.isFunction_mapLines, hs]
        rw [Node.parts_body_cons hs] at ih
        have hstmt := ih _ (.head _)
        have hrest := ih _ (.tail _ (.head _))
        change Follows f _ (resolveBody (s :: rest))
          (resolveBody (s.mapLines f :: mapLinesInBody f rest))
        rw [resolveBody_cons hs, resolveBody_cons hs']
        exact hstmt.bind fun _ => hrest.bind fun _ => .pure _
    | function decl =>
      obtain ⟨name, params, body, line⟩ := decl
      have hbody := ih (.body body) (.head _)
      exact .inFunction ((Follows.declareAll params).bind fun _ =>
        (Follows.declareFunctions body).bind fun _ => hbody.bind fun _ => .pure _)
    | methods decls =>
      cases decls with
      | nil => exact Follows.pure (g := mapLinesInMethods f) []
      | cons decl decls =>
        have hdecl := ih _ (.head _)
        have hdecls := ih _ (.tail _ (.head _))
        exact hdecl.bind fun _ => hdecls.bind fun _ => .pure _
    | top ss =>
      cases ss with
      | nil => exact Follows.pure (g := mapLinesInBody f) []
      | cons s rest =>
        have hs := ih _ (.head _)
        have hrest := ih _ (.tail _ (.head _))
        exact hs.bind fun _ => hrest.bind fun _ => .pure _

/-- The resolver accepts a program whatever its lines are, and fills the same slots. -/
theorem Program.resolved_mapLines {p q : Program} (h : p.resolved = .ok q) :
    (p.mapLines f).resolved = .ok (q.mapLines f) := by
  obtain ⟨hquiet, rfl⟩ := resolved_eq_ok h
  have hfollows : Follows f (mapLinesInBody f) (resolveTop p) (resolveTop (p.mapLines f)) :=
    Node.resolvesAlike (.top p)
  obtain ⟨houtcome, hafter⟩ := hfollows .fresh
  change _ = Program.mapLines f _ at houtcome
  rw [← houtcome]
  apply resolved_of_quiet
  change ((resolveTop (p.mapLines f)).after (Scoping.fresh.mapLines f)).errors = []
  rw [hafter]
  simp [Scoping.mapLines, hquiet]

end Walk

end Lox
