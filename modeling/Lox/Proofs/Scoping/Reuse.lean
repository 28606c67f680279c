import Lox.Proofs.Scoping.Resolved

/-!
# Using a resolver again

The walk closes what it opens, whatever it finds in a program, and the violations are taken out at
its end. So a resolver that has been used is as good as a new one. The walk looks at no slot that it
fills, so a program whose slots have been filled is resolved as it was before.
-/

set_option autoImplicit false

namespace Lox

namespace ResolveM
variable {α β : Type}

/-- With the same knowledge the two actions do the same. -/
def SameFrom (r : Scoping) (act act' : ResolveM α) : Prop :=
  act'.run r = act.run r

namespace SameFrom
variable {r : Scoping} {act act' : ResolveM α}

theorem bind {k k' : α → ResolveM β} (h : SameFrom r act act')
    (hk : SameFrom (act.after r) (k (act.outcome r)) (k' (act.outcome r))) :
    SameFrom r (act >>= k) (act' >>= k') := by
  change (k' (act'.run r).1).run (act'.run r).2 = (k (act.run r).1).run (act.run r).2
  rw [show act'.run r = act.run r from h]
  exact hk

theorem of_eq (h : act' = act) : SameFrom r act act' := by rw [h, SameFrom]

/-- What is known in the end is the same, too, if it depends on what is known after both. -/
theorem close {r' : Scoping} {acts acts' : ResolveM α} (f : Scoping → Scoping)
    (h : SameFrom r' act act') (hacts : acts.run r = (act.outcome r', f (act.after r')))
    (hacts' : acts'.run r = (act'.outcome r', f (act'.after r'))) : SameFrom r acts acts' := by
  have houtcome : act'.outcome r' = act.outcome r' := congrArg Prod.fst h
  have hafter : act'.after r' = act.after r' := congrArg Prod.snd h
  rw [SameFrom, hacts, hacts', houtcome, hafter]

theorem inScope (names : List String) (h : SameFrom (r.enter names) act act') :
    SameFrom r (inScope names act) (inScope names act') :=
  h.close Scoping.exit rfl rfl

theorem inFunction (h : SameFrom r.enterFunction act act') :
    SameFrom r (inFunction act) (inFunction act') :=
  h.close (fun r' => { r'.exit with
    inFunction := r.inFunction, loopDepth := r.loopDepth, pending := r.pending }) rfl rfl

theorem inClass (context : ClassContext) (h : SameFrom (r.within context) act act') :
    SameFrom r (inClass context act) (inClass context act') :=
  h.close (fun r' => { r' with classContext := r.classContext }) rfl rfl

theorem inLoop (h : SameFrom r.enterLoop act act') : SameFrom r (inLoop act) (inLoop act') :=
  h.close (fun r' => { r' with loopDepth := r'.loopDepth - 1 }) rfl rfl

theorem initializing (name : String) (h : SameFrom (r.awaiting name) act act') :
    SameFrom r (initializing name act) (initializing name act') :=
  h.close (fun r' => { r' with pending := r.pending }) rfl rfl

theorem get_bind {k k' : Scoping → ResolveM α} (h : SameFrom r (k r) (k' r)) :
    SameFrom r (get >>= k) (get >>= k') := h

end SameFrom

theorem SameFrom.report_if {act act' : ResolveM α} {r : Scoping} (c : Prop) [Decidable c]
    {line : Nat} {lexeme : String} {fault : ResolveFault}
    (h : SameFrom (if c then r.reporting ⟨line, lexeme, fault⟩ else r) act act') :
    SameFrom r (if c then report line lexeme fault >>= fun _ => act else act)
      (if c then report line lexeme fault >>= fun _ => act' else act') := by
  rw [SameFrom, run_report_if, run_report_if]
  exact h

end ResolveM

open Scoping ResolveM

/-- The walk over the node that the walk makes of a node does the same again. -/
def Node.Repeats : Node → Prop
  | .expr e => ∀ r, SameFrom r e.resolve (e.resolve.outcome r).resolve
  | .arguments es =>
    ∀ r, SameFrom r (resolveArguments es) (resolveArguments ((resolveArguments es).outcome r))
  | .stmt s => ∀ r, SameFrom r s.resolve (s.resolve.outcome r).resolve
  | .body ss => ∀ r, SameFrom r (resolveBody ss) (resolveBody ((resolveBody ss).outcome r))
  | .function decl => ∀ r, SameFrom r decl.resolve (decl.resolve.outcome r).resolve
  | .methods decls =>
    ∀ r, SameFrom r (resolveMethods decls) (resolveMethods ((resolveMethods decls).outcome r))
  | .top ss => ∀ r, SameFrom r (resolveTop ss) (resolveTop ((resolveTop ss).outcome r))

theorem Expr.isReferenceTo_resolve (name : String) (e : Expr) (r : Scoping) :
    (e.resolve.outcome r).isReferenceTo name = e.isReferenceTo name := by
  generalize hsize : sizeOf e = size
  induction size using Nat.strongRecOn generalizing e with
  | ind size ih =>
    subst hsize
    cases e with
    | group inner => exact ih (sizeOf inner) (by simp) inner rfl
    | this line slot | super line method slot =>
      obtain ⟨scopes, inFunction, context, depth, pending, errors⟩ := r
      cases context <;> rfl
    | _ => rfl

theorem declareFunctions_cons {s : Stmt} (hs : s.isFunction = false) (rest : List Stmt) :
    declareFunctions (s :: rest) = declareFunctions rest := by
  cases s with
  | function decl => cases hs
  | _ => rfl

/-- The functions of a body are declared by their names, which the walk leaves as they are. -/
theorem declareFunctions_resolveBody (body : List Stmt) (r : Scoping) :
    declareFunctions ((resolveBody body).outcome r) = declareFunctions body := by
  induction body generalizing r with
  | nil => rfl
  | cons s rest ih =>
    cases hs : s.isFunction with
    | true =>
      cases s with
      | function decl =>
        change (declareAll (decl.resolve.outcome r).name.toList >>= fun _ =>
          declareFunctions ((resolveBody rest).outcome (decl.resolve.after r))) = _
        rw [decl.name_resolve, ih]
        rfl
      | _ => cases hs
    | false =>
      have hresolved : (s.resolve.outcome r).isFunction = false := by
        rw [s.isFunction_resolve, hs]
      rw [resolveBody_cons hs, declareFunctions_cons hs, ← ih (s.resolve.after r)]
      exact declareFunctions_cons hresolved _

theorem Expr.repeats {e : Expr} (ih : ∀ part ∈ e.parts, part.Repeats) : (Node.expr e).Repeats := by
  intro r
  cases e with
  | literal value line => rfl
  | group inner =>
    have hinner := ih (.expr inner) (.head _)
    exact (hinner r).bind rfl
  | «variable» name slot => rfl
  | assign name value slot =>
    have hvalue := ih (.expr value) (.head _)
    exact (hvalue r).bind rfl
  | unary op operand line =>
    have hoperand := ih (.expr operand) (.head _)
    exact (hoperand r).bind rfl
  | binary op left right line | logical op left right line =>
    have hleft := ih (.expr left) (.head _)
    have hright := ih (.expr right) (.tail _ (.head _))
    exact (hleft r).bind ((hright _).bind rfl)
  | call callee arguments line =>
    have hcallee := ih (.expr callee) (.head _)
    have harguments := ih (.arguments arguments) (.tail _ (.head _))
    exact (hcallee r).bind ((harguments _).bind rfl)
  | get object name =>
    have hobject := ih (.expr object) (.head _)
    exact (hobject r).bind rfl
  | set object name value =>
    have hobject := ih (.expr object) (.head _)
    have hvalue := ih (.expr value) (.tail _ (.head _))
    exact (hvalue r).bind ((hobject _).bind rfl)
  | this line slot =>
    obtain ⟨scopes, inFunction, context, depth, pending, errors⟩ := r
    cases context <;> rfl
  | super line method slot =>
    obtain ⟨scopes, inFunction, context, depth, pending, errors⟩ := r
    cases context <;> rfl
  | lambda decl =>
    have hdecl := ih (.function decl) (.head _)
    exact (hdecl r).bind rfl

/-- Whether a variable is in its own initializer is not changed by the walk. -/
theorem Stmt.repeats_var (name : Ident) {value : Expr} (hvalue : (Node.expr value).Repeats)
    (r : Scoping) : SameFrom r (Stmt.var name (some value)).resolve
      ((Stmt.var name (some value)).resolve.outcome r).resolve := by
  rw [Stmt.outcome_var, Stmt.resolve, Stmt.resolve, Expr.isReferenceTo_resolve]
  have hinitializer (r' : Scoping) := (hvalue (r'.awaiting name.name)).initializing name.name
  exact SameFrom.bind rfl (.get_bind (.report_if _ ((hinitializer _).bind rfl)))

theorem Stmt.repeats {s : Stmt} (ih : ∀ part ∈ s.parts, part.Repeats) : (Node.stmt s).Repeats := by
  intro r
  cases s with
  | expression value | print value =>
    have hvalue := ih (.expr value) (.head _)
    exact (hvalue r).bind rfl
  | var name value =>
    cases value with
    | none => rfl
    | some value =>
      have hvalue := ih (.expr value) (.head _)
      exact Stmt.repeats_var name hvalue r
  | block body =>
    have hbody := ih (.body body) (.head _)
    exact .inScope [] ((SameFrom.of_eq (declareFunctions_resolveBody body _)).bind
      ((hbody _).bind rfl))
  | cond condition thenBranch elseBranch =>
    cases elseBranch with
    | none =>
      have hcondition := ih (.expr condition) (.head _)
      have hthen := ih (.stmt thenBranch) (.tail _ (.head _))
      exact (hcondition r).bind ((hthen _).bind rfl)
    | some elseBranch =>
      have hcondition := ih (.expr condition) (.head _)
      have hthen := ih (.stmt thenBranch) (.tail _ (.head _))
      have helse := ih (.stmt elseBranch) (.tail _ (.tail _ (.head _)))
      exact (hcondition r).bind ((hthen _).bind ((helse _).bind rfl))
  | loop condition body =>
    have hcondition := ih (.expr condition) (.head _)
    have hbody := ih (.stmt body) (.tail _ (.head _))
    exact (hcondition r).bind ((hbody _).inLoop.bind rfl)
  | function decl =>
    have hdecl := ih (.function decl) (.head _)
    have hname := decl.name_resolve ((declareAll decl.name.toList).after r)
    have hdeclare : SameFrom r (declareAll decl.name.toList)
        (declareAll (decl.resolve.outcome ((declareAll decl.name.toList).after r)).name.toList) :=
      .of_eq (by rw [hname])
    exact hdeclare.bind ((hdecl _).bind rfl)
  | ret line value =>
    cases value with
    | none =>
      simp only [Stmt.resolve, outcome_get_bind, outcome_report_if]
      rfl
    | some value =>
      have hvalue := ih (.expr value) (.head _)
      simp only [Stmt.resolve, outcome_get_bind, outcome_report_if]
      exact .get_bind (.report_if _ ((hvalue _).bind rfl))
  | brk line =>
    simp only [Stmt.resolve, outcome_get_bind, outcome_report_if]
    rfl
  | classDecl name superclass methods =>
    have hmethods := ih (.methods methods) (.head _)
    rcases superclass with _ | ⟨parent, slot⟩
    · exact SameFrom.bind rfl ((SameFrom.inClass .plain ((hmethods _).inScope ["this"])).bind rfl)
    · simp only [Stmt.resolve, outcome_bind, outcome_report_if]
      refine SameFrom.bind rfl (.report_if _ (SameFrom.bind rfl ?_))
      exact (SameFrom.inClass .derived (((hmethods _).inScope ["this"]).inScope ["super"])).bind rfl

theorem Node.repeats (node : Node) : node.Repeats := by
  induction node using parts_induction with
  | h node ih =>
    cases node with
    | expr e => exact Expr.repeats ih
    | stmt s => exact Stmt.repeats ih
    | arguments es =>
      intro r
      cases es with
      | nil => rfl
      | cons e es =>
        have he := ih (.expr e) (.head _)
        have hes := ih (.arguments es) (.tail _ (.head _))
        exact (he r).bind ((hes _).bind rfl)
    | body ss =>
      intro r
      rcases ss with _ | ⟨s, rest⟩
      · rfl
      cases hs : s.isFunction with
      | true =>
        cases s with
        | function decl =>
          have hdecl := ih (.function decl) (.head _)
          have hrest := ih (.body rest) (.tail _ (.head _))
          exact (hdecl r).bind ((hrest _).bind rfl)
        | _ => cases hs
      | false =>
        rw [Node.parts_body_cons hs] at ih
        have hstmt := ih (.stmt s) (.head _)
        have hrest := ih (.body rest) (.tail _ (.head _))
        have hresolved : (s.resolve.outcome r).isFunction = false := by
          rw [s.isFunction_resolve, hs]
        have hbody : SameFrom r (do return (← s.resolve) :: (← resolveBody rest))
            (do return (← (s.resolve.outcome r).resolve) ::
              (← resolveBody ((resolveBody rest).outcome (s.resolve.after r)))) :=
          (hstmt r).bind ((hrest _).bind rfl)
        rw [resolveBody_cons hs]
        rw [← resolveBody_cons hresolved] at hbody
        exact hbody
    | function decl =>
      intro r
      obtain ⟨name, params, body, line⟩ := decl
      have hbody := ih (.body body) (.head _)
      exact .inFunction (SameFrom.bind rfl
        ((SameFrom.of_eq (declareFunctions_resolveBody body _)).bind ((hbody _).bind rfl)))
    | methods decls =>
      intro r
      cases decls with
      | nil => rfl
      | cons decl decls =>
        have hdecl := ih (.function decl) (.head _)
        have hdecls := ih (.methods decls) (.tail _ (.head _))
        exact (hdecl r).bind ((hdecls _).bind rfl)
    | top ss =>
      intro r
      cases ss with
      | nil => rfl
      | cons s rest =>
        have hs := ih (.stmt s) (.head _)
        have hrest := ih (.top rest) (.tail _ (.head _))
        exact (hs r).bind ((hrest _).bind rfl)

namespace Scoping

/-- Nothing is tracked at top level, so the walk over a program leaves its violations only. -/
theorem keeps_top (p : Program) : fresh.Keeps ((resolveTop p).after fresh) := by
  obtain ⟨scopes, new, hafter, -, hlength⟩ := Node.change (.top p) fresh
  obtain rfl : scopes = [] := List.length_eq_zero_iff.1 hlength
  exact ⟨new, hafter⟩

theorem run_resolve (p : Program) : (resolve p).run fresh =
    (((resolveTop p).outcome fresh, ((resolveTop p).after fresh).errors), fresh) := by
  have hrun : (resolve p).run fresh =
      (((resolveTop p).outcome fresh, ((resolveTop p).after fresh).errors),
        { (resolveTop p).after fresh with errors := [] }) := rfl
  obtain ⟨new, hafter⟩ := keeps_top p
  rw [hrun, hafter]
  rfl

theorem resolveTop_again (p : Program) :
    (resolveTop ((resolveTop p).outcome fresh)).run fresh = (resolveTop p).run fresh :=
  Node.repeats (.top p) fresh

end Scoping

/-- One resolver makes of each program of a sequence what a new one makes of it, with the same
violations in the same order, and is in the end as it was at the start. It fills the slots of a
program that it has filled before with what is there. -/
theorem resolver_carries_nothing_over (ps : List Program) :
    (ps.mapM Scoping.resolve).run .fresh =
      (ps.map fun p => ((Scoping.resolve p).run .fresh).1,
        { scopes := [], inFunction := false, classContext := .outside, loopDepth := 0,
          pending := none, errors := [] }) ∧
    ∀ p, (Scoping.resolve ((Scoping.resolve p).run .fresh).1.1).run .fresh =
      (Scoping.resolve p).run .fresh := by
  constructor
  · induction ps with
    | nil => rfl
    | cons p ps ih =>
      have hstate : ((Scoping.resolve p).run .fresh).2 = .fresh := by rw [Scoping.run_resolve]
      rw [List.mapM_cons]
      change (((Scoping.resolve p).run .fresh).1 ::
          ((ps.mapM Scoping.resolve).run ((Scoping.resolve p).run .fresh).2).1,
        ((ps.mapM Scoping.resolve).run ((Scoping.resolve p).run .fresh).2).2) = _
      rw [hstate, ih, List.map_cons]
  · intro p
    have hagain := Scoping.resolveTop_again p
    rw [Scoping.run_resolve p, Scoping.run_resolve]
    exact congrArg (fun done => ((done.1, done.2.errors), Scoping.fresh)) hagain

end Lox
