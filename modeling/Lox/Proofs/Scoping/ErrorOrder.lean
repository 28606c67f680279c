import Lox.Proofs.Grammar.Recovery
import Lox.Proofs.Scoping.Reports
import Lox.Proofs.Scoping.SourceOrder

/-!
# The order of violations

The walk over a tree in source order reports violations in the order of their lines, except at three
kinds of positions. The functions of a scope are declared before the rest of the scope is walked
over, the value of a property before its object, and the body of a loop before its increment. Two
violations are out of order only if both are at or inside one such position.
-/

set_option autoImplicit false

namespace Lox

open Scoping ResolveM

/-! ## Positions that change the order -/

/-- The violation is that a function of a body has a name that is taken. -/
def RedeclaresFunction (body : List Stmt) (e : ResolveError) : Prop :=
  ∃ x ∈ body.filterMap Stmt.functionName?, e = redeclaration x

/-- At this position the walk reports the first violation before the second one, wherever the two
stand in it. -/
def Position.Displaces : Position → ResolveError → ResolveError → Prop
  | ⟨path, .expr (.set object _ value)⟩, e, e' =>
    e ∈ Position.total ⟨path, .expr value⟩ ∧ e' ∈ Position.total ⟨path, .expr object⟩
  | ⟨path, .stmt (.loop _ (.block [body, .expression increment]))⟩, e, e' =>
    e ∈ Position.total ⟨.block :: .loopBody :: path, .stmt body⟩ ∧
      e' ∈ Position.total ⟨.block :: .loopBody :: path, .expr increment⟩
  | ⟨path, .stmt (.block body)⟩, e, e' =>
    RedeclaresFunction body e ∧ e' ∈ Position.total ⟨path, .stmt (.block body)⟩
  | ⟨path, .function decl⟩, e, e' =>
    RedeclaresFunction decl.body e ∧ e' ∈ Position.total ⟨path, .function decl⟩
  | _, _, _ => False

/-- The first violation is on the line of the second one or before, or one of the positions puts it
first. -/
def MayPrecede (all : List Position) (e e' : ResolveError) : Prop :=
  e.line ≤ e'.line ∨ ∃ p ∈ all, p.Displaces e e'

/-! ## Lists of violations -/

/-- Behind the first list, the second one has violations in order, from one line to another. -/
structure AddsInOrder (all : List Position) (lo hi : Nat) (before after : List ResolveError) :
    Prop where
  le : lo ≤ hi
  new : ∃ new, after = before ++ new ∧ new.Pairwise (MayPrecede all) ∧
    ∀ e ∈ new, lo ≤ e.line ∧ e.line ≤ hi

namespace AddsInOrder
variable {all : List Position} {lo lo' mid hi hi' : Nat} {es es' es'' : List ResolveError}

theorem refl (hle : lo ≤ hi) (es : List ResolveError) : AddsInOrder all lo hi es es :=
  ⟨hle, [], by simp, .nil, by simp⟩

theorem widen (h : AddsInOrder all lo hi es es') (hlo : lo' ≤ lo) (hhi : hi ≤ hi') :
    AddsInOrder all lo' hi' es es' := by
  obtain ⟨hle, new, hnew, hsorted, hlines⟩ := h
  refine ⟨Nat.le_trans hlo (Nat.le_trans hle hhi), new, hnew, hsorted, ?_⟩
  intro e he
  exact ⟨Nat.le_trans hlo (hlines e he).1, Nat.le_trans (hlines e he).2 hhi⟩

/-- What is added first may precede what is added then. -/
theorem beside (h : AddsInOrder all lo hi es es') (h' : AddsInOrder all lo hi es' es'')
    (hcross : ∀ new new', es' = es ++ new → es'' = es' ++ new' → ∀ e ∈ new, ∀ e' ∈ new',
      MayPrecede all e e') :
    AddsInOrder all lo hi es es'' := by
  obtain ⟨hle, new, hnew, hsorted, hlines⟩ := h
  obtain ⟨-, new', hnew', hsorted', hlines'⟩ := h'
  refine ⟨hle, new ++ new', by rw [hnew', hnew, List.append_assoc], ?_, ?_⟩
  · exact List.pairwise_append.2 ⟨hsorted, hsorted', hcross new new' hnew hnew'⟩
  · intro e he
    exact (List.mem_append.1 he).elim (hlines e) (hlines' e)

theorem trans (h : AddsInOrder all lo mid es es') (h' : AddsInOrder all mid hi es' es'') :
    AddsInOrder all lo hi es es'' := by
  refine (h.widen (Nat.le_refl lo) h'.le).beside (h'.widen h.le (Nat.le_refl hi)) ?_
  intro new new' hnew hnew' e he e' he'
  obtain ⟨_, hsame, -, hlines⟩ := h.new
  obtain ⟨_, hsame', -, hlines'⟩ := h'.new
  obtain rfl := List.append_cancel_left (hnew.symm.trans hsame)
  obtain rfl := List.append_cancel_left (hnew'.symm.trans hsame')
  exact .inl (Nat.le_trans (hlines e he).2 (hlines' e' he').1)

theorem report {r : Scoping} {e : ResolveError} (hlo : lo ≤ e.line) (hhi : e.line ≤ hi) :
    AddsInOrder all lo hi r.errors (r.reporting e).errors := by
  refine ⟨Nat.le_trans hlo hhi, [e], rfl, List.pairwise_singleton _ _, ?_⟩
  intro e' he'
  obtain rfl := List.mem_singleton.1 he'
  exact ⟨hlo, hhi⟩

theorem report_if {c : Prop} [Decidable c] {r : Scoping} {e : ResolveError} (hlo : lo ≤ e.line)
    (hhi : e.line ≤ hi) :
    AddsInOrder all lo hi r.errors (if c then r.reporting e else r).errors := by
  split
  · exact .report hlo hhi
  · exact .refl (Nat.le_trans hlo hhi) _

theorem redeclared {xs : List Ident} (scopes : List (List String))
    (h : Rising lo (xs.map Ident.line) hi) :
    AddsInOrder all lo hi es (es ++ redeclaredIn scopes xs) := by
  induction xs generalizing lo scopes es with
  | nil => exact ⟨h, [], rfl, .nil, by simp⟩
  | cons x xs ih =>
    obtain ⟨hlo, hrest⟩ := h
    rw [redeclaredIn, ← List.append_assoc]
    have hfirst : AddsInOrder all lo x.line es
        (es ++ if x.name ∈ scopes.headD [] then [redeclaration x] else []) := by
      split
      · exact ⟨hlo, _, rfl, List.pairwise_singleton _ _, by simpa [redeclaration] using hlo⟩
      · rw [List.append_nil]
        exact .refl hlo es
    exact hfirst.trans (ih _ hrest)

theorem declared (xs : List Ident) (r : Scoping) (h : Rising lo (xs.map Ident.line) hi) :
    AddsInOrder all lo hi r.errors ((declareAll xs).after r).errors := by
  rw [declareAll_eq]
  exact .redeclared _ h

end AddsInOrder

theorem mem_redeclaredIn {scopes : List (List String)} {xs : List Ident} {e : ResolveError}
    (h : e ∈ redeclaredIn scopes xs) : ∃ x ∈ xs, e = redeclaration x := by
  induction xs generalizing scopes with
  | nil => cases h
  | cons x xs ih =>
    rcases List.mem_append.1 h with h | h
    · split at h
      · exact ⟨x, List.mem_cons_self, List.mem_singleton.1 h⟩
      · cases h
    · obtain ⟨y, hy, rfl⟩ := ih h
      exact ⟨y, List.mem_cons_of_mem _ hy, rfl⟩

theorem LaidOut.functionNames {lo hi : Nat} {ss : List Stmt} (h : LaidOut lo [.body ss] hi) :
    Rising lo ((ss.filterMap Stmt.functionName?).map Ident.line) hi := by
  induction ss generalizing lo with
  | nil => exact h.le
  | cons s rest ih =>
    obtain ⟨own, hown, hparts⟩ := h.inside (by simp)
    by_cases hs : s.isFunction = true
    · cases s with
      | function decl =>
        obtain ⟨mid, hdecl, hrest⟩ := hparts.uncons
        obtain ⟨own', hlines, hbody⟩ := hdecl.inside (by simp)
        cases hname : decl.name with
        | none =>
          simp only [List.filterMap_cons, Stmt.functionName?, hname]
          exact (ih hrest).lower (Nat.le_trans hown hdecl.le)
        | some name =>
          simp only [Node.ownLines, hname] at hlines
          simp only [List.filterMap_cons, Stmt.functionName?, hname]
          exact ⟨Nat.le_trans hown hlines.1, (ih hrest).lower (Nat.le_trans hlines.2.le hbody.le)⟩
      | _ => cases hs
    · rw [Bool.not_eq_true] at hs
      rw [Node.parts_body_cons hs] at hparts
      obtain ⟨mid, hs', hrest⟩ := hparts.uncons
      rw [List.filterMap_cons_none (Stmt.functionName?_eq_none hs)]
      exact (ih hrest).lower (Nat.le_trans hown hs'.le)

/-! ## The walk -/

/-- The positions and what is inside them are all among the given ones. -/
def Embraces (all ps : List Position) : Prop :=
  ∀ p ∈ ps, p.within ⊆ all

namespace Embraces
variable {all ps : List Position} {p : Position}

theorem mem (h : Embraces all (p :: ps)) : p ∈ all := by
  apply h p List.mem_cons_self
  rw [Position.within_eq]
  exact List.mem_cons_self

theorem head (h : Embraces all (p :: ps)) : Embraces all [p] :=
  List.forall_mem_singleton.2 (h p List.mem_cons_self)

theorem tail (h : Embraces all (p :: ps)) : Embraces all ps :=
  fun q hq => h q (List.mem_cons_of_mem p hq)

theorem inside (h : Embraces all (p :: ps)) : Embraces all p.inside := by
  intro q hq q' hq'
  apply h p List.mem_cons_self
  rw [Position.within_eq]
  exact List.mem_cons_of_mem p (List.mem_flatMap_of_mem hq hq')

end Embraces

/-- The positions that a node consists of. -/
def Node.roots (path : List Enclosure) : Node → List Position
  | .expr e => [⟨path, .expr e⟩]
  | .arguments es => es.map fun e => ⟨path, .expr e⟩
  | .stmt s => [⟨path, .stmt s⟩]
  | .body ss | .top ss => ss.map fun s => ⟨path, .stmt s⟩
  | .function decl => [⟨path, .function decl⟩]
  | .methods decls => decls.map fun decl => ⟨path, .function decl⟩

/-- The walk over the node reports in order, from one line to another. -/
def Node.ReportsInOrder (all : List Position) (lo : Nat) (n : Node) (hi : Nat) : Prop :=
  ∀ path r, Regular n → r.Stands path → Embraces all (n.roots path) →
    AddsInOrder all lo hi r.errors (n.after r).errors

/-- The walk over each of the nodes reports in order, and none before the lines of another one that
precedes it. -/
def ReportInOrder (all : List Position) : Nat → List Node → Nat → Prop
  | lo, [], hi => lo ≤ hi
  | lo, n :: rest, hi => ∃ mid, n.ReportsInOrder all lo mid ∧ ReportInOrder all mid rest hi

theorem Scoping.Stands.report_if {c : Prop} [Decidable c] {r : Scoping} {path : List Enclosure}
    (h : r.Stands path) (e : ResolveError) : (if c then r.reporting e else r).Stands path := by
  split
  · exact ⟨h.inFunction, h.inLoop, h.inClass, h.isLocal⟩
  · exact h

theorem Regular.mem_total {n : Node} (h : Regular n) (hdeclares : n.declares = [])
    {path : List Enclosure} {r : Scoping} (hr : r.Stands path) {new : List ResolveError}
    (hnew : (n.after r).errors = r.errors ++ new) : ∀ e ∈ new, e ∈ n.total path := by
  obtain ⟨new', hafter, hperm⟩ := h.adds hr
  rw [hdeclares, redeclaredIn, List.append_nil] at hperm
  rw [hafter] at hnew
  obtain rfl := List.append_cancel_left hnew
  intro e he
  exact hperm.mem_iff.1 he

/-- The functions of a body are declared before the walk over it. -/
theorem AddsInOrder.hoisting {all : List Position} {lo hi : Nat} {body : List Stmt} {r : Scoping}
    {after : List ResolveError} (hnames : LaidOut lo [.body body] hi)
    (hbody : AddsInOrder all lo hi ((declareFunctions body).after r).errors after)
    (hcross : ∀ e e', RedeclaresFunction body e →
      (∃ new, after = r.errors ++ new ∧ e' ∈ new) → MayPrecede all e e') :
    AddsInOrder all lo hi r.errors after := by
  have hfunctions : AddsInOrder all lo hi r.errors ((declareFunctions body).after r).errors := by
    rw [declareFunctions_eq]
    exact .declared _ r hnames.functionNames
  refine hfunctions.beside hbody ?_
  intro new new' hnew hnew' e he e' he'
  apply hcross
  · rw [declareFunctions_eq, declareAll_eq] at hnew
    obtain rfl := List.append_cancel_left hnew
    exact mem_redeclaredIn he
  · refine ⟨new ++ new', ?_, List.mem_append_right _ he'⟩
    rw [hnew', hnew, List.append_assoc]

theorem Node.reportsInOrder {all : List Position} {n : Node} {lo own hi : Nat}
    (hown : Rising lo n.ownLines own) (hlaid : LaidOut own n.parts hi)
    (hparts : ReportInOrder all own n.parts hi) : n.ReportsInOrder all lo hi := by
  intro path r hregular hr hall
  cases hregular with
  | literal | «variable» | noArgument | noMethod | noStatement | noTop =>
    exact .refl (Nat.le_trans hown hparts) _
  | group hinner | unary _ _ hinner | get _ hinner | assign _ _ hinner | lambda hinner
  | expression hinner | print hinner =>
    obtain ⟨mid, hpart, hle⟩ := hparts
    exact (hpart path r hinner hr hall.inside).widen hown hle
  | binary _ _ hleft hright | logical _ _ hleft hright =>
    obtain ⟨mid, hfirst, mid', hsecond, hle⟩ := hparts
    have hstands := (hleft.adds hr).stands hr
    exact ((hfirst path r hleft hr hall.inside.head).trans
      (hsecond path _ hright hstands hall.inside.tail)).widen hown hle
  | call _ hcallee harguments =>
    obtain ⟨mid, hfirst, mid', hsecond, hle⟩ := hparts
    have hstands := (hcallee.adds hr).stands hr
    have hrest := hall.inside.tail
    rw [List.map_map] at hrest
    exact ((hfirst path r hcallee hr hall.inside.head).trans
      (hsecond path _ harguments hstands hrest)).widen hown hle
  | set _ hobject hvalue =>
    obtain ⟨mid, hfirst, mid', hsecond, hle⟩ := hparts
    have hstands := (hvalue.adds hr).stands hr
    have hearly := hsecond path r hvalue hr hall.inside.tail
    have hlate := hfirst path _ hobject hstands hall.inside.head
    refine AddsInOrder.widen ?_ hown hle
    refine (hearly.widen hlate.le (Nat.le_refl mid')).beside
      (hlate.widen (Nat.le_refl own) hearly.le) ?_
    intro new new' hnew hnew' e he e' he'
    exact .inr ⟨_, hall.mem, hvalue.mem_total rfl hr hnew e he,
      hobject.mem_total rfl hstands hnew' e' he'⟩
  | this line slot =>
    show AddsInOrder all lo hi r.errors ((Expr.this line slot).resolve.after r).errors
    rw [Expr.resolve, after_get_bind]
    cases r.classContext with
    | outside => exact .report hown.1 (Nat.le_trans hown.2 hparts)
    | plain | derived => exact .refl (Nat.le_trans hown.le hparts) _
  | super line method slot =>
    show AddsInOrder all lo hi r.errors ((Expr.super line method slot).resolve.after r).errors
    rw [Expr.resolve, after_get_bind]
    cases r.classContext with
    | outside | plain => exact .report hown.1 (Nat.le_trans hown.2 hparts)
    | derived => exact .refl (Nat.le_trans hown.le hparts) _
  | argument hfirst hrest | method hfirst hrest | topStmt hfirst hrest =>
    obtain ⟨mid, hpart, mid', hparts, hle⟩ := hparts
    have hstands := (hfirst.adds hr).stands hr
    exact ((hpart path r hfirst hr hall.head).trans
      (hparts path _ hrest hstands hall.tail)).widen hown hle
  | @var name =>
    exact (AddsInOrder.declared [name] r hown).widen (Nat.le_refl lo) hparts
  | @varWith name value _ hvalue =>
    obtain ⟨mid, hpart, hle⟩ := hparts
    obtain ⟨hlo, hhi⟩ := hown
    have hname : AddsInOrder all lo name.line r.errors ((declare name).after r).errors :=
      .declared [name] r (.singleton hlo)
    have hreport : AddsInOrder all name.line own ((declare name).after r).errors
        (r.beforeInitializer name value).errors := .report_if (Nat.le_refl _) hhi
    have hstands : (r.beforeInitializer name value).Stands path :=
      ((Adds.declared [name] r).stands hr).report_if _
    have hinner := hpart path _ hvalue (hstands.awaiting name.name) hall.inside
    rw [Node.after, Stmt.after_var]
    exact (hname.trans (hreport.trans hinner)).widen (Nat.le_refl lo) hle
  | @block body hbody =>
    obtain ⟨mid, hpart, hle⟩ := hparts
    have hfunctions := Adds.declared (body.filterMap Stmt.functionName?) (r.enter [])
    rw [← declareFunctions_eq] at hfunctions
    have hinner := hpart _ _ hbody (hfunctions.stands hr.block) hall.inside
    refine AddsInOrder.widen ?_ hown (Nat.le_refl hi)
    refine .hoisting (r := r.enter []) hlaid (hinner.widen (Nat.le_refl own) hle) ?_
    rintro e e' he ⟨new, hnew, he'⟩
    exact .inr ⟨_, hall.mem, he, (Regular.block hbody).mem_total rfl hr hnew e' he'⟩
  | cond hcondition hthen _ =>
    obtain ⟨mid, hfirst, mid', hsecond, hle⟩ := hparts
    have hstands := (hcondition.adds hr).stands hr
    exact ((hfirst path r hcondition hr hall.inside.head).trans
      (hsecond path _ hthen hstands hall.inside.tail)).widen hown hle
  | condElse hcondition hthen _ helse _ =>
    obtain ⟨mid, hfirst, mid', hsecond, mid'', hthird, hle⟩ := hparts
    have hstands := (hcondition.adds hr).stands hr
    have hstands' := (hthen.adds hstands).stands hstands
    exact ((hfirst path r hcondition hr hall.inside.head).trans
      ((hsecond path _ hthen hstands hall.inside.tail.head).trans
        (hthird path _ helse hstands' hall.inside.tail.tail))).widen hown hle
  | loop hcondition hbody _ =>
    obtain ⟨mid, hfirst, mid', hsecond, hle⟩ := hparts
    have hstands := ((hcondition.adds hr).stands hr).loop
    have hinner := hsecond _ _ hbody hstands hall.inside.tail
    exact ((hfirst path r hcondition hr hall.inside.head).trans hinner).widen hown hle
  | @functionDecl decl _ hdecl =>
    obtain ⟨mid, hpart, hle⟩ := hparts
    have hname : AddsInOrder all lo own r.errors ((declareAll decl.name.toList).after r).errors :=
      .declared _ r hown
    have hstands := (Adds.declared decl.name.toList r).stands hr
    exact (hname.trans (hpart path _ hdecl hstands hall.inside)).widen (Nat.le_refl lo) hle
  | ret line =>
    show AddsInOrder all lo hi r.errors ((Stmt.ret line none).resolve.after r).errors
    rw [Stmt.resolve, after_get_bind, after_ite]
    exact .report_if hown.1 (Nat.le_trans hown.2 hparts)
  | @retWith value line hvalue =>
    obtain ⟨mid, hpart, hle⟩ := hparts
    rw [Node.after, Stmt.after_ret]
    exact ((AddsInOrder.report_if hown.1 hown.2).trans
      (hpart path _ hvalue (hr.report_if _) hall.inside)).widen (Nat.le_refl lo) hle
  | brk line =>
    show AddsInOrder all lo hi r.errors ((Stmt.brk line).resolve.after r).errors
    rw [Stmt.resolve, after_get_bind, after_ite]
    exact .report_if hown.1 (Nat.le_trans hown.2 hparts)
  | @classDecl name decls _ hdecls =>
    obtain ⟨mid, hpart, hle⟩ := hparts
    have hname : AddsInOrder all lo own r.errors ((declare name).after r).errors :=
      .declared [name] r hown
    have hstands := ((Adds.declared [name] r).stands hr).classBody
    have hinner := hpart _ _ hdecls hstands hall.inside
    exact (hname.trans hinner).widen (Nat.le_refl lo) hle
  | @subclassDecl name decls parent _ _ hdecls =>
    obtain ⟨parent, slot⟩ := parent
    obtain ⟨mid, hpart, hle⟩ := hparts
    obtain ⟨hlo, hparent, hhi⟩ := hown
    have hname : AddsInOrder all lo name.line r.errors ((declare name).after r).errors :=
      .declared [name] r (.singleton hlo)
    have hreport : AddsInOrder all name.line own ((declare name).after r).errors
        (if parent.name = name.name then
          ((declare name).after r).reporting ⟨parent.line, parent.name, .selfInheritance⟩
        else (declare name).after r).errors := .report_if hparent hhi
    have hstands := ((Adds.declared [name] r).stands hr).report_if (c := parent.name = name.name)
      ⟨parent.line, parent.name, .selfInheritance⟩
    have hinner := hpart _ _ hdecls hstands.subclassBody hall.inside
    rw [Node.after, Stmt.after_subclass]
    exact (hname.trans (hreport.trans hinner)).widen (Nat.le_refl lo) hle
  | @bodyFunction decl rest _ hdecl hrest =>
    obtain ⟨mid, hpart, mid', hparts, hle⟩ := hparts
    have hstands := (hdecl.adds hr).stands hr
    exact ((hpart path r hdecl hr hall.inside).trans
      (hparts path _ hrest hstands hall.tail)).widen hown hle
  | @bodyStmt s rest hs hstmt hrest =>
    rw [Node.parts_body_cons hs] at hparts
    obtain ⟨mid, hpart, mid', hparts, hle⟩ := hparts
    have hstands := (hstmt.adds hr).stands hr
    rw [Node.after, resolveBody_cons hs]
    exact ((hpart path r hstmt hr hall.head).trans
      (hparts path _ hrest hstands hall.tail)).widen hown hle
  | @code params body name line hplain hbody =>
    obtain ⟨mid, hpart, hle⟩ := hparts
    rw [Node.ownLines, List.map_append] at hown
    have hparams : AddsInOrder all lo own r.errors
        ((declareAll params).after r.enterFunction).errors := .declared params r.enterFunction hown.drop
    have hscope := (Adds.declared params r.enterFunction).stands hr.function
    have hfunctions := Adds.declared (body.filterMap Stmt.functionName?)
      ((declareAll params).after r.enterFunction)
    rw [← declareFunctions_eq] at hfunctions
    have hinner := hpart _ _ hbody (hfunctions.stands hscope) hall.inside
    refine hparams.trans (.hoisting hlaid (hinner.widen (Nat.le_refl own) hle) ?_)
    rintro e e' he ⟨new, hnew, he'⟩
    obtain ⟨new', hnew', -⟩ := hparams.new
    rw [hnew', List.append_assoc] at hnew
    exact .inr ⟨_, hall.mem, he, (Regular.code name line hplain hbody).mem_total rfl hr hnew e'
      (List.mem_append_right _ he')⟩

/-- The body of a loop is walked over before the increment, which stands before it. -/
theorem increment_reportsInOrder {all : List Position} {condition increment : Expr} {body : Stmt}
    {lo hi : Nat} (hbody : body.isDeclaration = false)
    (hparts : ReportInOrder all lo [.expr condition, .expr increment, .stmt body] hi) :
    (Node.stmt (.loop condition (.block [body, .expression increment]))).ReportsInOrder
      all lo hi := by
  intro path r hregular hr hall
  obtain ⟨mid, hfirst, mid', hlate, mid'', hearly, hle⟩ := hparts
  obtain ⟨hfunction, -⟩ := Stmt.of_not_declaration hbody
  cases hregular with
  | loop hcondition hblock _ =>
  cases hblock with
  | block hstmts =>
  cases hstmts with
  | bodyFunction => cases hfunction
  | bodyStmt _ hstmt hrest =>
  cases hrest with
  | bodyStmt _ hincrement _ =>
  cases hincrement with
  | expression hincrement =>
  have hrun : ((Node.stmt (.loop condition (.block [body, .expression increment]))).after r).errors =
      ((Node.expr increment).after ((Node.stmt body).after
        ((((Node.expr condition).after r).enterLoop).enter []))).errors := by
    cases body <;> rfl
  have hstands := ((hcondition.adds hr).stands hr).loop.block
  have hstands' := (hstmt.adds hstands).stands hstands
  have hinside := hall.inside.tail.inside
  have hearly := hearly _ _ hstmt hstands hinside.head
  have hlate := hlate _ _ hincrement hstands' hinside.tail.inside
  rw [hrun]
  refine ((hfirst path r hcondition hr hall.inside.head).trans ?_).widen (Nat.le_refl lo) hle
  refine (hearly.widen hlate.le (Nat.le_refl mid'')).beside
    (hlate.widen (Nat.le_refl mid) hearly.le) ?_
  intro new new' hnew hnew' e he e' he'
  exact .inr ⟨_, hall.mem, hstmt.mem_total (Stmt.declares_eq_nil hbody) hstands hnew e he,
    hincrement.mem_total rfl hstands' hnew' e' he'⟩

theorem LaidOut.reportInOrder {all : List Position} {lo hi : Nat} {ns : List Node}
    (h : LaidOut lo ns hi) : ReportInOrder all lo ns hi := by
  induction h with
  | nil hle => exact hle
  | cons hown hlaid _ ih ih' => exact ⟨_, Node.reportsInOrder hown hlaid ih, ih'⟩
  | increment hbody _ _ ih ih' => exact ⟨_, increment_reportsInOrder hbody ih, ih'⟩

/-! ## Whole programs -/

theorem errors_of_resolved {p : Program} {errors : List ResolveError}
    (h : p.resolved = .error errors) : errors = ((resolveTop p).after .fresh).errors := by
  by_cases hquiet : ((resolveTop p).after .fresh).errors = []
  · obtain ⟨q, hq⟩ : ∃ q, p.resolved = .ok q := ⟨_, resolved_of_quiet hquiet⟩
    rw [h] at hq
    cases hq
  · rw [resolved_of_errors hquiet] at h
    exact (Except.error.inj h).symm

theorem embraces_positions (p : Program) : Embraces p.positions ((Node.top p).roots []) := by
  intro q hq q' hq'
  obtain ⟨s, hs, rfl⟩ := List.mem_map.1 hq
  exact List.mem_flatMap_of_mem hs hq'

theorem pairwise_of_resolved {source : String} {p : Program} {errors : List ResolveError}
    (h : Grammar.parseProgram (tokens source) = .ok p) (herrors : p.resolved = .error errors) :
    errors.Pairwise (MayPrecede p.positions) := by
  obtain ⟨hi, hlaid⟩ := laidOut_of_parsed_program h
  obtain ⟨mid, htop, -⟩ := hlaid.reportInOrder
  obtain ⟨new, hnew, hsorted, -⟩ := (htop [] .fresh (regular_of_parsed_program h)
    Scoping.Stands.fresh (embraces_positions p)).new
  rw [errors_of_resolved herrors]
  change ((resolveTop p).after .fresh).errors = [] ++ new at hnew
  rw [hnew, List.nil_append]
  exact hsorted

theorem Grammar.exists_rejected (source : String) (lines : List Nat) (hsome : lines ≠ [])
    (h : (parseErrors (parseProgram (tokens source))).map ParseError.line = lines) :
    ∃ errors, parseProgram (tokens source) = .error errors ∧ errors.map ParseError.line = lines := by
  cases hparse : parseProgram (tokens source) with
  | ok p =>
    rw [hparse] at h
    exact absurd h.symm hsome
  | error errors =>
    rw [hparse] at h
    exact ⟨errors, rfl, h⟩

theorem exists_resolved (source : String) (lines : List Nat) (hsome : lines ≠ [])
    (h : ((Grammar.parseProgram (tokens source)).toOption.any fun p =>
      decide (((resolveTop p).after .fresh).errors.map ResolveError.line = lines)) = true) :
    ∃ p errors, Grammar.parseProgram (tokens source) = .ok p ∧ p.resolved = .error errors ∧
      errors.map ResolveError.line = lines := by
  cases hparse : Grammar.parseProgram (tokens source) with
  | error e =>
    rw [hparse] at h
    cases h
  | ok p =>
    rw [hparse] at h
    have hlines := of_decide_eq_true h
    refine ⟨p, _, rfl, resolved_of_errors ?_, hlines⟩
    intro hnone
    rw [hnone] at hlines
    exact hsome hlines.symm

/-- Errors of one pass over a source come in the order of their lines, apart from these: the target
of an assignment is reported after what is wrong with the value, a function that has the name of
another one before the rest of its scope, the value of a property before its object, and the body of
a loop before its increment. -/
theorem static_errors_in_order_unless_displaced (source : String) :
    (∀ errors, Grammar.parseProgram (tokens source) = .error errors →
      errors.Pairwise fun e e' => e.line ≤ e'.line ∨
        ∃ sign after, sign :: after <:+ tokens source ∧ Grammar.Displaces sign after e e') ∧
    ∀ p errors, Grammar.parseProgram (tokens source) = .ok p → p.resolved = .error errors →
      errors.Pairwise fun e e' => e.line ≤ e'.line ∨ ∃ q ∈ p.positions, q.Displaces e e' := by
  constructor
  · intro errors herrors
    exact Grammar.inOrder_of_parsed herrors
  · intro p errors hp herrors
    exact pairwise_of_resolved hp herrors

/-- All kinds of displaced errors, and errors in order after them. -/
theorem static_errors_in_order_unless_displaced_nested :
    (∃ errors, Grammar.parseProgram (tokens "a + b = (\n1 = 2);\nprint ;") = .error errors ∧
      errors.map ParseError.line = [2, 1, 3] ∧
      errors.Pairwise fun e e' => e.line ≤ e'.line ∨ ∃ sign after,
        sign :: after <:+ tokens "a + b = (\n1 = 2);\nprint ;" ∧
          Grammar.Displaces sign after e e') ∧
    ∃ p errors, Grammar.parseProgram (tokens
        "\x7bfor (;;\nthis.x =\nthis)\nreturn; fun f()\x7b\x7d\nfun f()\x7b\x7d\x7d\nbreak;") = .ok p ∧
      p.resolved = .error errors ∧ errors.map ResolveError.line = [5, 4, 3, 2, 6] ∧
      errors.Pairwise fun e e' => e.line ≤ e'.line ∨ ∃ q ∈ p.positions, q.Displaces e e' := by
  constructor
  · obtain ⟨errors, herrors, hlines⟩ :=
      Grammar.exists_rejected "a + b = (\n1 = 2);\nprint ;" [2, 1, 3] (by simp) (by decide +kernel)
    exact ⟨errors, herrors, hlines, (static_errors_in_order_unless_displaced _).1 errors herrors⟩
  · obtain ⟨p, errors, hp, herrors, hlines⟩ := exists_resolved
      "\x7bfor (;;\nthis.x =\nthis)\nreturn; fun f()\x7b\x7d\nfun f()\x7b\x7d\x7d\nbreak;"
      [5, 4, 3, 2, 6] (by simp) (by decide +kernel)
    exact ⟨p, errors, hp, herrors, hlines,
      (static_errors_in_order_unless_displaced _).2 p errors hp herrors⟩

/-- An invalid target in the value of another one, a function declared twice after an error, the
receiver of a property with another one as its value, and one in an increment. -/
theorem static_errors_out_of_order :
    (∃ errors, Grammar.parseProgram (tokens "1 =\n2 = 3;") = .error errors ∧
      ¬ errors.Pairwise fun e e' => e.line ≤ e'.line) ∧
    ∀ source ∈ ["\x7b break;\nfun f() \x7b\x7d\nfun f() \x7b\x7d \x7d", "this.x =\nthis;",
        "for (;;\nthis)\nthis;"],
      ∃ p errors, Grammar.parseProgram (tokens source) = .ok p ∧ p.resolved = .error errors ∧
        ¬ errors.Pairwise fun e e' => e.line ≤ e'.line := by
  have hresolved (source : String) (lines : List Nat) (hsome : lines ≠ [])
      (h : ((Grammar.parseProgram (tokens source)).toOption.any fun p =>
        decide (((resolveTop p).after .fresh).errors.map ResolveError.line = lines)) = true)
      (hlines : ¬ lines.Pairwise (· ≤ ·)) :
      ∃ p errors, Grammar.parseProgram (tokens source) = .ok p ∧ p.resolved = .error errors ∧
        ¬ errors.Pairwise fun e e' => e.line ≤ e'.line := by
    obtain ⟨p, errors, hp, herrors, rfl⟩ := exists_resolved source lines hsome h
    exact ⟨p, errors, hp, herrors, fun hsorted => hlines (List.pairwise_map.2 hsorted)⟩
  constructor
  · obtain ⟨errors, herrors, hlines⟩ :=
      Grammar.exists_rejected "1 =\n2 = 3;" [2, 1] (by simp) (by decide +kernel)
    refine ⟨errors, herrors, fun hsorted => ?_⟩
    have hrising := List.pairwise_map.2 hsorted
    rw [hlines] at hrising
    revert hrising
    decide
  · intro source hsource
    simp only [List.mem_cons, List.not_mem_nil, or_false] at hsource
    rcases hsource with rfl | rfl | rfl
    · exact hresolved _ [3, 1] (by simp) (by decide +kernel) (by decide)
    · exact hresolved _ [2, 1] (by simp) (by decide +kernel) (by decide)
    · exact hresolved _ [3, 2] (by simp) (by decide +kernel) (by decide)

end Lox
