import Lox.Proofs.Machine.Confinement
import Lox.Proofs.Session.Histories

/-!
# What binds names

Evaluating an expression or calling a value binds no name in a scope that was there before, and a
statement binds at most the names that it declares in the innermost scope. That is its own name at
most if no branch and no loop body in it is a declaration, as in every program that was parsed. In
general it may be more: a conditional binds the name of a variable that is its branch.
-/

set_option autoImplicit false

namespace Lox

open Scoping ResolveM Machine

/-- The scopes that were there bind the same names in `σ`, except that the innermost scope in force
may bind the given names besides. -/
def World.BindsAtMost (w : World) (names : List String) (σ : Store) : Prop :=
  ∀ id < w.store.scopes.size, ∀ x,
    (w.store.Binds id x → σ.Binds id x) ∧
    (σ.Binds id x → w.store.Binds id x ∨ (w.env.head? = some id ∧ x ∈ names))

/-! ## Declarations as branches and loop bodies -/

/-- No declaration is the branch of a conditional or the body of a loop, unless it stands in a block,
a function or a class. -/
def Stmt.noBareDeclaration : Stmt → Bool
  | .cond _ thenBranch none => !thenBranch.isDeclaration && thenBranch.noBareDeclaration
  | .cond _ thenBranch (some elseBranch) =>
    (!thenBranch.isDeclaration && thenBranch.noBareDeclaration) &&
      (!elseBranch.isDeclaration && elseBranch.noBareDeclaration)
  | .loop _ body => !body.isDeclaration && body.noBareDeclaration
  | _ => true

namespace Stmt

/-- A branch or loop body that is not a declaration exposes nothing, if the same holds inside it. -/
theorem exposed_eq_nil {s : Stmt} (h : (!s.isDeclaration && s.noBareDeclaration) = true)
    (hown : s.noBareDeclaration = true → s.exposed = s.own) : s.exposed = [] := by
  obtain ⟨hdeclares, hbare⟩ := (Bool.and_eq_true _ _).mp h
  rw [hown hbare]
  exact own_eq_nil (Bool.not_eq_true' _ ▸ hdeclares)

theorem exposed_eq_own {s : Stmt} (h : s.noBareDeclaration = true) : s.exposed = s.own := by
  fun_induction Stmt.noBareDeclaration s with
  | case1 condition thenBranch ih => exact exposed_eq_nil (s := thenBranch) h ih
  | case2 condition thenBranch elseBranch ihThen ihElse =>
    obtain ⟨hthen, helse⟩ := (Bool.and_eq_true _ _).mp h
    rw [exposed, exposed_eq_nil hthen ihThen, exposed_eq_nil helse ihElse]
    rfl
  | case3 condition body ih => exact exposed_eq_nil (s := body) h ih
  | case4 s hcond hcondElse hloop =>
    cases s with
    | cond condition thenBranch elseBranch =>
      cases elseBranch with
      | none => exact absurd rfl (hcond condition thenBranch)
      | some elseBranch => exact absurd rfl (hcondElse condition thenBranch elseBranch)
    | loop condition body => exact absurd rfl (hloop condition body)
    | _ => rfl

theorem branch_resolve {s : Stmt}
    (h : ∀ r, (s.resolve.outcome r).noBareDeclaration = s.noBareDeclaration) (r : Scoping) :
    (!(s.resolve.outcome r).isDeclaration && (s.resolve.outcome r).noBareDeclaration) =
      (!s.isDeclaration && s.noBareDeclaration) := by
  rw [isDeclaration_resolve, h]

theorem noBareDeclaration_resolve (s : Stmt) (r : Scoping) :
    (s.resolve.outcome r).noBareDeclaration = s.noBareDeclaration := by
  fun_induction Stmt.noBareDeclaration s generalizing r with
  | case1 condition thenBranch ih => exact branch_resolve ih _
  | case2 condition thenBranch elseBranch ihThen ihElse =>
    exact congrArg₂ and (branch_resolve ihThen _) (branch_resolve ihElse _)
  | case3 condition body ih => exact branch_resolve ih _
  | case4 s hcond hcondElse hloop =>
    have hresembles := s.resembles_resolve r
    generalize s.resolve.outcome r = s' at hresembles
    cases hresembles with
    | cond condition _ thenBranch _ elseBranch _ =>
      cases elseBranch with
      | none => exact absurd rfl (hcond condition thenBranch)
      | some elseBranch => exact absurd rfl (hcondElse condition thenBranch elseBranch)
    | loop condition _ body _ => exact absurd rfl (hloop condition body)
    | _ => rfl

end Stmt

theorem Regular.noBareDeclaration {s : Stmt} (h : Regular (.stmt s)) :
    s.noBareDeclaration = true := by
  generalize hnode : Node.stmt s = node at h
  induction h generalizing s with
  | cond _ _ hthen _ ih =>
    cases hnode
    simp [Stmt.noBareDeclaration, hthen, ih rfl]
  | condElse _ _ hthen _ helse _ ihThen ihElse =>
    cases hnode
    simp [Stmt.noBareDeclaration, hthen, helse, ihThen rfl, ihElse rfl]
  | loop _ _ hbody _ ih =>
    cases hnode
    simp [Stmt.noBareDeclaration, hbody, ih rfl]
  | _ => cases hnode <;> rfl

/-- In a statement that is executed in a session, no branch and no loop body is a declaration. -/
theorem Machine.Occurs.noBareDeclaration {texts : List String} {past : List Machine} {m : Machine}
    {s : Stmt} (h : m.Occurs texts past) (hs : m.focus = .execute s) :
    s.noBareDeclaration = true := by
  obtain ⟨shapes, hagrees, -⟩ := h.placed
  cases hagrees with
  | @execute os r s₀ frames w b c hat hknown hallows hwaits =>
    obtain rfl := Focus.execute.inj hs
    rw [Stmt.noBareDeclaration_resolve]
    exact hknown.proper.regular.noBareDeclaration
  | _ => cases hs

/-! ## What work binds -/

/-- The names that work in a world may bind: those given in the innermost scope, and any in a scope
that is not there yet. -/
def World.Allowed (w : World) (names : List String) (id : ScopeId) (x : String) : Prop :=
  w.store.scopes.size ≤ id ∨ (w.env.head? = some id ∧ x ∈ names)

namespace World

variable {w : World} {names : List String}

theorem allowed_fresh (id : ScopeId) (x : String) (h : w.store.scopes.size ≤ id) :
    w.Allowed names id x :=
  Or.inl h

theorem admits_allowed : Admits (w.Allowed names) w.env names := by
  intro x hx id hid
  exact Or.inr ⟨hid, hx⟩

theorem bindsAtMost_of_gains {σ : Store} (h : w.store.Gains (w.Allowed names) σ) :
    w.BindsAtMost names σ := by
  intro id hid x
  refine ⟨h.grows id x, ?_⟩
  intro hx
  rcases h.only id x hx with hx | hx | hx
  · exact Or.inl hx
  · exact absurd hid (Nat.not_lt.2 hx)
  · exact Or.inr hx

/-- With no name given, the scopes that were there bind the same names. -/
theorem BindsAtMost.same {σ : Store} (h : w.BindsAtMost [] σ) {id : ScopeId}
    (hid : id < w.store.scopes.size) (x : String) : σ.Binds id x ↔ w.store.Binds id x := by
  obtain ⟨hgrows, honly⟩ := h id hid x
  refine ⟨?_, hgrows⟩
  intro hx
  rcases honly hx with hx | ⟨-, hx⟩
  · exact hx
  · cases hx

end World

namespace Machine

variable {base : List Frame} {w : World} {m m' : Machine}

theorem bindsAtMost_of_confined {wanted : Handed} {names : List String}
    (hconfined : Confined (w.Allowed names) w.store base w.env m)
    (habove : Above base wanted w.env w.depth m) (hreturns : Returns base m m') :
    w.BindsAtMost names m'.world.store :=
  World.bindsAtMost_of_gains (hconfined.returned World.allowed_fresh habove hreturns)

theorem evaluate_bindsAtMost {e : Expr} (h : Returns base ⟨.evaluate e, base, w⟩ m') :
    w.BindsAtMost [] m'.world.store := by
  have habove : Above base .value w.env w.depth ⟨.evaluate e, base, w⟩ := above_base rfl
  exact bindsAtMost_of_confined (confined_plain (.refl _) rfl) habove h

theorem call_bindsAtMost {callee : Value} {arguments : List Value} {line : Nat}
    (h : Returns base (call callee arguments line base w) m') :
    w.BindsAtMost [] m'.world.store :=
  bindsAtMost_of_confined (confined_call World.allowed_fresh (.refl _) base callee arguments line)
    (above_call base w callee arguments line) h

theorem execute_bindsAtMost {s : Stmt} (h : Returns base ⟨.execute s, base, w⟩ m') :
    w.BindsAtMost s.exposed m'.world.store := by
  have habove : Above base .completion w.env w.depth ⟨.execute s, base, w⟩ := above_base rfl
  exact bindsAtMost_of_confined (confined_base (.refl _) World.admits_allowed) habove h

end Machine

/-- A conditional whose branch declares a variable binds its name, although it is no declaration. -/
theorem conditional_binds_name_of_branch :
    ¬ ∀ (base : List Frame) (w : World) (s : Stmt) (m' : Machine),
      Returns base ⟨.execute s, base, w⟩ m' → w.BindsAtMost s.own m'.world.store := by
  intro h
  let w : World := World.initial .unlimited fun _ => 0
  let branch : Stmt := .cond (.literal (.bool true) 1) (.var ⟨"a", 1⟩ none) none
  have hfinal : ((executing branch w).after 4).isFinal = true := rfl
  have hbinds : ((executing branch w).after 4).world.store.Binds 0 "a" := rfl
  have hbefore : (w.store.find? 0 "a").isSome = false := rfl
  obtain ⟨-, honly⟩ := h [] w branch _ (returns_of_isFinal hfinal) 0 (by decide) "a"
  rcases honly hbinds with hbound | ⟨-, hown⟩
  · exact absurd hbound (by simp [Store.Binds, hbefore])
  · cases hown

/-- Evaluating an expression and calling a value leave the bound names of every scope as they were,
however they end. A statement in which no branch and no loop body is a declaration adds to the
innermost scope its own name at most, and there are no other statements in a session. Any other
statement adds at most what it declares there. -/
theorem expressions_bind_nothing :
    (∀ (base : List Frame) (w : World) (m m' : Machine),
      ((∃ e, m = ⟨.evaluate e, base, w⟩) ∨
        ∃ callee arguments line, m = call callee arguments line base w) →
      Returns base m m' →
      ∀ id < w.store.scopes.size, ∀ x, m'.world.store.Binds id x ↔ w.store.Binds id x) ∧
    (∀ (base : List Frame) (w : World) (s : Stmt) (m' : Machine), s.noBareDeclaration = true →
      Returns base ⟨.execute s, base, w⟩ m' → w.BindsAtMost s.own m'.world.store) ∧
    (∀ (base : List Frame) (w : World) (s : Stmt) (m' : Machine),
      Returns base ⟨.execute s, base, w⟩ m' → w.BindsAtMost s.exposed m'.world.store) ∧
    (∀ (texts : List String) (past : List Machine) (m : Machine) (s : Stmt),
      m.Occurs texts past → m.focus = .execute s → s.noBareDeclaration = true) := by
  refine ⟨?_, ?_, ?_, ?_⟩
  · rintro base w m m' (⟨e, rfl⟩ | ⟨callee, arguments, line, rfl⟩) hreturns id hid x
    · exact (evaluate_bindsAtMost hreturns).same hid x
    · exact (call_bindsAtMost hreturns).same hid x
  · intro base w s m' hbare hreturns
    rw [← Stmt.exposed_eq_own hbare]
    exact execute_bindsAtMost hreturns
  · intro base w s m' hreturns
    exact execute_bindsAtMost hreturns
  · intro texts past m s hoccurs hs
    exact hoccurs.noBareDeclaration hs

/-- A call of a function with declarations of all kinds, a conditional whose branch is a block with a
declaration in it, another whose branch is a declaration, and the declaration of a variable whose
value is that of a call. -/
theorem expressions_bind_nothing_calls :
    let body : List Stmt := [.var ⟨"a", 1⟩ none, .classDecl ⟨"B", 1⟩ none [],
      .function ⟨some ⟨"g", 1⟩, [], [], 1⟩]
    let w : World := World.initial .unlimited fun _ => 0
    let m := call (.function 5 ⟨⟨none, [], body, 1⟩, [0], false⟩) [] 1 [] w
    let inBlock : Stmt := .cond (.literal (.bool true) 1) (.block [.var ⟨"a", 1⟩ none]) none
    let branch : Stmt := .cond (.literal (.bool true) 1) (.var ⟨"a", 1⟩ none) none
    let source := "fun f() \x7b var y; \x7d var x = f();"
    ((m.after 9).isFinal = true ∧
      ∀ id < w.store.scopes.size, ∀ x, (m.after 9).world.store.Binds id x ↔ w.store.Binds id x) ∧
    (((executing inBlock w).after 9).isFinal = true ∧ inBlock.noBareDeclaration = true ∧
      w.BindsAtMost [] ((executing inBlock w).after 9).world.store) ∧
    (((executing branch w).after 4).isFinal = true ∧
      w.BindsAtMost ["a"] ((executing branch w).after 4).world.store) ∧
    ∃ task, Request.run.task source = .ok task ∧
      let m := (task.start w).after 3
      m.Occurs [source] ((task.start w).moments 3) ∧
      ∃ s m', m.focus = .execute s ∧ Returns m.frames m m' ∧ s.own = ["x"] ∧
        m.world.BindsAtMost s.own m'.world.store := by
  intro body w m inBlock branch source
  have hcall : (m.after 9).isFinal = true := rfl
  have hinBlock : ((executing inBlock w).after 9).isFinal = true := rfl
  have hbranch : ((executing branch w).after 4).isFinal = true := rfl
  obtain ⟨hexpressions, hdeclarations, hstatements, hsessions⟩ := expressions_bind_nothing
  refine ⟨⟨hcall, ?_⟩, ⟨hinBlock, rfl, ?_⟩, ⟨hbranch, ?_⟩, ?_⟩
  · exact hexpressions [] w m (m.after 9) (Or.inr ⟨_, _, _, rfl⟩) (returns_of_isFinal hcall)
  · exact hdeclarations [] w inBlock _ rfl (returns_of_isFinal hinBlock)
  · exact hstatements [] w branch _ (returns_of_isFinal hbranch)
  have hrun : ((Request.run.task source).toOption.any fun task =>
      ((task.start w).after 3).focus.exposed = ["x"] ∧
        ((task.start w).after 3).frames.length = 1 ∧
        (((task.start w).after 3).after 20).frames.length = 0) = true := by decide +kernel
  cases htask : Request.run.task source with
  | error e =>
    rw [htask] at hrun
    cases hrun
  | ok task =>
    rw [htask] at hrun
    obtain ⟨hfocus, hframes, hgone⟩ := of_decide_eq_true hrun
    have hoccurs : ((task.start w).after 3).Occurs [source] ((task.start w).moments 3) :=
      ⟨w, [], [], .run, source, task, 3, .new .unlimited _, htask, rfl, rfl, rfl⟩
    refine ⟨task, rfl, hoccurs, ?_⟩
    generalize (task.start w).after 3 = m at *
    obtain ⟨focus, frames, w'⟩ := m
    cases focus with
    | execute s =>
      have habove : Above frames .completion w'.env w'.depth ⟨.execute s, frames, w'⟩ :=
        above_base rfl
      obtain ⟨m', hreturns⟩ := habove.exists_returns (n := 20) (by rw [hgone, hframes]; decide)
      have hbare : s.noBareDeclaration = true := hsessions _ _ _ s hoccurs rfl
      have hown : s.own = ["x"] := (Stmt.exposed_eq_own hbare).symm.trans hfocus
      exact ⟨s, m', rfl, hreturns, hown, hdeclarations _ _ s m' hbare hreturns⟩
    | _ => cases hfocus

end Lox
