import Lox.Proofs.Grammar.Provenance
import Lox.Proofs.Lines.Syntax
import Lox.Proofs.Scoping.Visibility

/-!
# Source texts without loops

A loop is made of one of two keywords only, so the tree of a text that has neither of them as a
token contains no loop, and neither does any site of it.
-/

set_option autoImplicit false

namespace Lox

def Node.isLoop : Node → Bool
  | .stmt (.loop _ _) => true
  | _ => false

/-- Neither the node nor any of its parts is a loop. -/
inductive LoopFree : Node → Prop where
  | node {n : Node} : n.isLoop = false → (∀ part ∈ n.parts, LoopFree part) → LoopFree n

/-! ## Sites -/

namespace Site

theorem node_mem_inExpr {os : List ScopeOrigin} {r : Scoping} {e : Expr} {c : Site}
    (hc : c ∈ inExpr os r e) : c.node ∈ e.parts := by
  have hnode := List.mem_map_of_mem (f := Site.node) hc
  cases e with
  | set object name value =>
    -- The resolver walks over the value first.
    rcases List.mem_cons.1 hnode with hvalue | hobject
    · exact List.mem_cons_of_mem _ (List.mem_singleton.2 hvalue)
    · exact List.mem_cons.2 (Or.inl (List.mem_singleton.1 hobject))
  | _ => exact hnode

theorem node_mem_inStmt {os : List ScopeOrigin} {r : Scoping} {s : Stmt} {c : Site}
    (hc : c ∈ inStmt os r s) :
    c.node ∈ s.parts ∨ ∃ parent slot, c.node = .expr (.variable parent slot) := by
  have hnode := List.mem_map_of_mem (f := Site.node) hc
  cases s with
  | classDecl name superclass decls =>
    rcases superclass with _ | ⟨parent, slot⟩
    · exact Or.inl hnode
    · rcases List.mem_cons.1 hnode with hparent | hmethods
      · exact Or.inr ⟨parent, slot, hparent⟩
      · exact Or.inl hmethods
  | var name value => cases value <;> exact Or.inl hnode
  | ret line value => cases value <;> exact Or.inl hnode
  | cond condition thenBranch elseBranch => cases elseBranch <;> exact Or.inl hnode
  | _ => exact Or.inl hnode

/-- What the resolver goes on to at a site is part of the site's node, or the name of a
superclass. -/
theorem node_mem_children {s c : Site} (hc : c ∈ s.children) :
    c.node ∈ s.node.parts ∨ ∃ parent slot, c.node = .expr (.variable parent slot) := by
  have hnode := List.mem_map_of_mem (f := Site.node) hc
  obtain ⟨os, r, node⟩ := s
  cases node with
  | expr e => exact Or.inl (node_mem_inExpr hc)
  | stmt s => exact node_mem_inStmt hc
  | function decl =>
    obtain ⟨name, params, body, line⟩ := decl
    exact Or.inl hnode
  | arguments es => cases es <;> exact Or.inl hnode
  | methods decls => cases decls <;> exact Or.inl hnode
  | top ss => cases ss <;> exact Or.inl hnode
  | body ss =>
    cases ss with
    | nil => exact Or.inl hnode
    | cons s rest => cases s <;> exact Or.inl hnode

end Site

namespace LoopFree

variable {n a : Node}

theorem isLoop_eq_false (h : LoopFree n) : n.isLoop = false := by
  cases h with
  | node hn _ => exact hn

theorem part (h : LoopFree n) (ha : a ∈ n.parts) : LoopFree a := by
  cases h with
  | node _ hparts => exact hparts a ha

theorem leaf (hn : n.isLoop = false) (hparts : n.parts = []) : LoopFree n := by
  apply node hn
  rw [hparts]
  exact List.forall_mem_nil _

theorem child {site c : Site} (h : LoopFree site.node) (hc : c ∈ site.children) :
    LoopFree c.node := by
  rcases Site.node_mem_children hc with hpart | ⟨parent, slot, hparent⟩
  · exact h.part hpart
  · rw [hparent]
    exact leaf rfl rfl

theorem visited {p : Program} {site : Site} (hp : LoopFree (.top p)) (h : Visited p site) :
    LoopFree site.node := by
  induction h with
  | top => exact hp
  | child _ hc ih => exact ih.child hc

end LoopFree

/-! ## Trees of a text -/

/-- Neither keyword of a loop is among the tokens. -/
def NoLoop (ts : List Token) : Prop :=
  ∀ t ∈ ts, t.kind ≠ .keyword .whileKw ∧ t.kind ≠ .keyword .forKw

section NoKeyword
variable {Q : Token → Prop} {n : Node}
  (hQ : ∀ t, Q t → t.kind ≠ .keyword .whileKw ∧ t.kind ≠ .keyword .forKw)
include hQ

/-- A node that is made of no keyword of a loop is not a loop. -/
theorem Node.MadeOf.isLoop_eq_false (h : n.MadeOf Q) : n.isLoop = false := by
  cases n with
  | stmt s =>
    cases s with
    | loop condition body =>
      obtain ⟨t, ht, hkind⟩ := h
      exact absurd hkind (not_or.2 (hQ t ht))
    | _ => rfl
  | _ => rfl

theorem TreeOf.loopFree (h : TreeOf Q n) : LoopFree n := by
  induction h with
  | node hn _ ih => exact .node (hn.isLoop_eq_false hQ) ih

end NoKeyword

theorem loopFree_of_parsed_program {source : String} {p : Program} (hsource : NoLoop (tokens source))
    (h : Grammar.parseProgram (tokens source) = .ok p) : LoopFree (.top p) :=
  TreeOf.loopFree (fun _ ht => ht) (madeOf_of_parsed_program hsource h)

theorem loopFree_of_parsed_expression {source : String} {e : Expr}
    (hsource : NoLoop (tokens source)) (h : Grammar.parseExpression (tokens source) = .ok e) :
    LoopFree (.top [.expression e]) := by
  have he : LoopFree (.expr e) :=
    TreeOf.loopFree (fun _ ht => ht) (madeOf_of_parsed_expression hsource h)
  have hs : LoopFree (.stmt (.expression e)) := .node rfl (List.forall_mem_singleton.2 he)
  exact .node rfl (List.forall_mem_cons.2 ⟨hs, List.forall_mem_singleton.2 (.leaf rfl rfl)⟩)

end Lox
