import Lox.Proofs.Lockstep.Trees

/-!
# Trees with one scope more around them

A tree may be moved to a place with one more scope between two of those in force. Then distances
that lead past the extra scope are longer by one, and the others stay as they are. Nothing may be
declared in the extra scope itself, and none may come between a receiver and its superclass.
-/

set_option autoImplicit false

namespace Lox

/-- The second node is the first one, moved to a place with an extra scope around it. -/
inductive Widened : Gap → Node → Node → Prop where
  | node {g : Gap} {n n' : Node} : Alike Widened n n' g → Widened g n n'
  | noStatement {g : Gap} : Widened g (.body []) (.body [])
  | statement {g : Gap} {s s' : Stmt} {rest rest' : List Stmt} :
      Widened g (.stmt s) (.stmt s') → Widened g (.body rest) (.body rest') →
      Widened g (.body (s :: rest)) (.body (s' :: rest'))

namespace Widened
variable {g : Gap}

theorem alike {n n' : Node} (hn : n.isSequence = false) (h : Widened g n n') :
    Alike Widened n n' g := by
  cases h with
  | node h => exact h
  | noStatement | statement => cases hn

/-- No function is declared in the extra scope. -/
theorem isFunction_of_innermost {s s' : Stmt} (h : Widened (some 0) (.stmt s) (.stmt s')) :
    s.isFunction = false := by
  cases h.alike rfl with
  | functionDecl hg => exact absurd rfl hg
  | _ => rfl

theorem statements {body body' : List Stmt} (h : Widened g (.body body) (.body body')) :
    List.Forall₂ (fun s s' => Widened g (.stmt s) (.stmt s')) body body' := by
  induction body generalizing body' with
  | nil =>
    cases h with
    | node h => cases h
    | noStatement => exact .nil
  | cons s rest ih =>
    cases h with
    | node h => cases h
    | statement hs hrest => exact .cons hs (ih hrest)

end Widened

/-! ## Without an extra scope -/

/-- The node is its own copy where there is no extra scope. The statements of the top level are not
moved. -/
def Node.Stays : Node → Prop
  | .top _ => True
  | node => Widened none node node

theorem Expr.stays {e : Expr} (ih : ∀ part ∈ e.parts, part.Stays) : (Node.expr e).Stays := by
  refine Widened.node ?_
  cases e with
  | literal value line => exact .literal value line
  | group inner => exact .group (ih (.expr inner) (.head _))
  | «variable» name slot =>
    have h := Alike.variable (T := Widened) (g := none) name slot
    rwa [Gap.slot_none] at h
  | assign name value slot =>
    have h := Alike.assign (T := Widened) (g := none) name slot (ih (.expr value) (.head _))
    rwa [Gap.slot_none] at h
  | unary op operand line => exact .unary op line (ih (.expr operand) (.head _))
  | binary op left right line =>
    exact .binary op line (ih (.expr left) (.head _)) (ih (.expr right) (.tail _ (.head _)))
  | logical op left right line =>
    exact .logical op line (ih (.expr left) (.head _)) (ih (.expr right) (.tail _ (.head _)))
  | call callee arguments line =>
    exact .call line (ih (.expr callee) (.head _)) (ih (.arguments arguments) (.tail _ (.head _)))
  | get object name => exact .get name (ih (.expr object) (.head _))
  | set object name value =>
    exact .set name (ih (.expr object) (.head _)) (ih (.expr value) (.tail _ (.head _)))
  | this line slot =>
    have h := Alike.this (T := Widened) (g := none) line slot
    rwa [Gap.slot_none] at h
  | super line method slot =>
    have h : Alike Widened (.expr (.super line method slot)) _ none :=
      .super line method (by simp)
    rwa [Gap.slot_none] at h
  | lambda decl => exact .lambda (ih (.function decl) (.head _))

theorem Stmt.stays {s : Stmt} (ih : ∀ part ∈ s.parts, part.Stays) : (Node.stmt s).Stays := by
  refine Widened.node ?_
  cases s with
  | expression value => exact .expression (ih (.expr value) (.head _))
  | print value => exact .print (ih (.expr value) (.head _))
  | var name value =>
    cases value with
    | none => exact .var name (by simp)
    | some value => exact .varWith name (by simp) (ih (.expr value) (.head _))
  | block body => exact .block (ih (.body body) (.head _))
  | cond condition thenBranch elseBranch =>
    cases elseBranch with
    | none =>
      exact .cond (ih (.expr condition) (.head _)) (ih (.stmt thenBranch) (.tail _ (.head _)))
    | some elseBranch =>
      exact .condElse (ih (.expr condition) (.head _)) (ih (.stmt thenBranch) (.tail _ (.head _)))
        (ih (.stmt elseBranch) (.tail _ (.tail _ (.head _))))
  | loop condition body =>
    exact .loop (ih (.expr condition) (.head _)) (ih (.stmt body) (.tail _ (.head _)))
  | function decl => exact .functionDecl (by simp) (ih (.function decl) (.head _))
  | ret line value =>
    cases value with
    | none => exact .ret line
    | some value => exact .retWith line (ih (.expr value) (.head _))
  | brk line => exact .brk line
  | classDecl name superclass methods =>
    have hmethods := ih (.methods methods) (.head _)
    rcases superclass with _ | ⟨parent, slot⟩
    · exact .classDecl name (by simp) hmethods
    · have h := Alike.subclassDecl (T := Widened) (g := none) name parent slot (by simp)
        (.node (.variable parent slot)) hmethods
      rwa [Gap.slot_none] at h

theorem Node.stays (node : Node) : node.Stays := by
  induction node using parts_induction with
  | h node ih =>
    cases node with
    | expr e => exact Expr.stays ih
    | stmt s => exact Stmt.stays ih
    | top ss => trivial
    | arguments es =>
      cases es with
      | nil => exact .node .noArgument
      | cons e es =>
        exact .node (.argument (ih (.expr e) (.head _)) (ih (.arguments es) (.tail _ (.head _))))
    | body ss =>
      rcases ss with _ | ⟨s, rest⟩
      · exact .noStatement
      cases hs : s.isFunction with
      | true =>
        cases s with
        | function decl =>
          exact .statement (.node (.functionDecl (by simp) (ih (.function decl) (.head _))))
            (ih (.body rest) (.tail _ (.head _)))
        | _ => cases hs
      | false =>
        rw [parts_body_cons hs] at ih
        exact .statement (ih (.stmt s) (.head _)) (ih (.body rest) (.tail _ (.head _)))
    | function decl =>
      obtain ⟨name, params, body, line⟩ := decl
      exact .node (.code name params line (ih (.body body) (.head _)))
    | methods decls =>
      cases decls with
      | nil => exact .node .noMethod
      | cons decl decls =>
        exact .node (.method (ih (.function decl) (.head _))
          (ih (.methods decls) (.tail _ (.head _))))

end Lox
