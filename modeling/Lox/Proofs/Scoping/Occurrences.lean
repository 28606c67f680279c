import Lox.Proofs.Scoping.Names

/-!
# Occurrences of names

The names that are looked up or assigned in a tree, each with its slot. What the resolver makes of
a site is part of what it makes of the whole program, so every occurrence at a site is one of the
resolved program.
-/

set_option autoImplicit false

namespace Lox

open Scoping ResolveM

mutual

def Expr.occurrences : Expr → List (String × Slot)
  | .literal _ _ | .this _ _ | .super _ _ _ => []
  | .variable name slot => [(name.name, slot)]
  | .group inner => inner.occurrences
  | .assign name value slot => (name.name, slot) :: value.occurrences
  | .unary _ operand _ => operand.occurrences
  | .binary _ left right _ => left.occurrences ++ right.occurrences
  | .logical _ left right _ => left.occurrences ++ right.occurrences
  | .call callee arguments _ => callee.occurrences ++ occurrencesInArguments arguments
  | .get object _ => object.occurrences
  | .set object _ value => object.occurrences ++ value.occurrences
  | .lambda decl => decl.occurrences

def occurrencesInArguments : List Expr → List (String × Slot)
  | [] => []
  | e :: es => e.occurrences ++ occurrencesInArguments es

/-- The name of a superclass occurs in its class. -/
def Stmt.occurrences : Stmt → List (String × Slot)
  | .expression value => value.occurrences
  | .print value => value.occurrences
  | .var _ none | .ret _ none | .brk _ => []
  | .var _ (some value) => value.occurrences
  | .block body => occurrencesInBody body
  | .cond condition thenBranch none => condition.occurrences ++ thenBranch.occurrences
  | .cond condition thenBranch (some elseBranch) =>
    condition.occurrences ++ thenBranch.occurrences ++ elseBranch.occurrences
  | .loop condition body => condition.occurrences ++ body.occurrences
  | .function decl => decl.occurrences
  | .ret _ (some value) => value.occurrences
  | .classDecl _ none methods => occurrencesInMethods methods
  | .classDecl _ (some (parent, slot)) methods =>
    (parent.name, slot) :: occurrencesInMethods methods

def occurrencesInBody : List Stmt → List (String × Slot)
  | [] => []
  | s :: rest => s.occurrences ++ occurrencesInBody rest

def FunDecl.occurrences : FunDecl → List (String × Slot)
  | ⟨_, _, body, _⟩ => occurrencesInBody body

def occurrencesInMethods : List FunDecl → List (String × Slot)
  | [] => []
  | decl :: decls => decl.occurrences ++ occurrencesInMethods decls

end

/-- The occurrences of names in a program. -/
def Program.occurrences (p : Program) : List (String × Slot) :=
  occurrencesInBody p

/-- The occurrences in what the resolver makes of a site. -/
def Site.occurrences : Site → List (String × Slot)
  | ⟨_, r, .expr e⟩ => (e.resolve.outcome r).occurrences
  | ⟨_, r, .arguments es⟩ => occurrencesInArguments ((resolveArguments es).outcome r)
  | ⟨_, r, .stmt s⟩ => (s.resolve.outcome r).occurrences
  | ⟨_, r, .body ss⟩ => occurrencesInBody ((resolveBody ss).outcome r)
  | ⟨_, r, .function decl⟩ => (decl.resolve.outcome r).occurrences
  | ⟨_, r, .methods decls⟩ => occurrencesInMethods ((resolveMethods decls).outcome r)
  | ⟨_, r, .top ss⟩ => occurrencesInBody ((resolveTop ss).outcome r)

namespace KnownIn

variable {C : Corpus} {os : List ScopeOrigin} {r : Scoping} {c : Site}

theorem occurrences_inExpr {e : Expr} (hc : c ∈ Site.inExpr os r e) :
    c.occurrences ⊆ Site.occurrences ⟨os, r, .expr e⟩ := by
  cases e with
  | literal | «variable» | this | super => cases hc
  | group | unary | get | lambda =>
    obtain rfl := List.mem_singleton.1 hc
    exact List.Subset.refl _
  | assign =>
    obtain rfl := List.mem_singleton.1 hc
    exact List.subset_cons_self _ _
  | binary | logical | call =>
    rcases List.mem_cons.1 hc with rfl | hc
    · exact List.subset_append_left _ _
    · obtain rfl := List.mem_singleton.1 hc
      exact List.subset_append_right _ _
  | set =>
    rcases List.mem_cons.1 hc with rfl | hc
    · exact List.subset_append_right _ _
    · obtain rfl := List.mem_singleton.1 hc
      exact List.subset_append_left _ _

theorem occurrences_inStmt {s : Stmt} (h : KnownIn C ⟨os, r, .stmt s⟩)
    (hc : c ∈ Site.inStmt os r s) : c.occurrences ⊆ Site.occurrences ⟨os, r, .stmt s⟩ := by
  cases s with
  | expression | print | function | block =>
    obtain rfl := List.mem_singleton.1 hc
    exact List.Subset.refl _
  | var name value =>
    cases value with
    | none => cases hc
    | some value =>
      have hregular : Regular (.expr value) := by
        cases h.proper.regular with
        | varWith _ hvalue => exact hvalue
      obtain ⟨hdeclare, -, -, houtcome⟩ := var_quiet hregular h.proper.quiet
      obtain rfl := List.mem_singleton.1 hc
      rw [hdeclare, Site.occurrences, Site.occurrences, houtcome]
      exact List.Subset.refl _
  | ret line value =>
    cases value with
    | none => cases hc
    | some value =>
      obtain rfl := List.mem_singleton.1 hc
      rw [Site.occurrences, Site.occurrences, h.retWith.2]
      exact List.Subset.refl _
  | brk => cases hc
  | cond condition thenBranch elseBranch =>
    cases elseBranch with
    | none =>
      rcases List.mem_cons.1 hc with rfl | hc
      · exact List.subset_append_left _ _
      · obtain rfl := List.mem_singleton.1 hc
        exact List.subset_append_right _ _
    | some elseBranch =>
      rcases List.mem_cons.1 hc with rfl | hc
      · exact List.subset_append_of_subset_left _ (List.subset_append_left _ _)
      rcases List.mem_cons.1 hc with rfl | hc
      · exact List.subset_append_of_subset_left _ (List.subset_append_right _ _)
      · obtain rfl := List.mem_singleton.1 hc
        exact List.subset_append_right _ _
  | loop =>
    rcases List.mem_cons.1 hc with rfl | hc
    · exact List.subset_append_left _ _
    · obtain rfl := List.mem_singleton.1 hc
      exact List.subset_append_right _ _
  | classDecl name superclass decls =>
    rcases superclass with _ | ⟨parent, slot⟩
    · obtain rfl := List.mem_singleton.1 hc
      exact List.Subset.refl _
    · have hregular : Regular (.methods decls) := by
        cases h.proper.regular with
        | subclassDecl _ _ _ hdecls => exact hdecls
      obtain ⟨-, hdeclare, -⟩ := subclass_quiet hregular h.proper.quiet
      rw [Site.occurrences, h.subclassDecl.2.2]
      rcases List.mem_cons.1 hc with rfl | hc
      · exact List.cons_subset.2 ⟨List.mem_cons_self, List.nil_subset _⟩
      · obtain rfl := List.mem_singleton.1 hc
        rw [hdeclare]
        exact List.subset_cons_self _ _

theorem occurrences_child {s : Site} (h : KnownIn C s) (hc : c ∈ s.children) :
    c.occurrences ⊆ s.occurrences := by
  obtain ⟨os, r, node⟩ := s
  cases node with
  | expr e => exact occurrences_inExpr hc
  | stmt s => exact h.occurrences_inStmt hc
  | arguments parts | methods parts | top parts =>
    cases parts with
    | nil => cases hc
    | cons first rest =>
      rcases List.mem_cons.1 hc with rfl | hc
      · exact List.subset_append_left _ _
      · obtain rfl := List.mem_singleton.1 hc
        exact List.subset_append_right _ _
  | body ss =>
    cases ss with
    | nil => cases hc
    | cons s rest =>
      cases s with
      | _ =>
        rcases List.mem_cons.1 hc with rfl | hc
        · exact List.subset_append_left _ _
        · obtain rfl := List.mem_singleton.1 hc
          exact List.subset_append_right _ _
  | function decl =>
    obtain ⟨name, params, body, line⟩ := decl
    obtain rfl := List.mem_singleton.1 hc
    exact List.Subset.refl _

end KnownIn

/-- The occurrences at a site are among those of the resolved program. -/
theorem Visited.occurrences_subset {p : Program} {s : Site} (h : Visited p s) (hp : Accepted p) :
    s.occurrences ⊆ Program.occurrences ((resolveTop p).outcome .fresh) := by
  induction h with
  | top => exact List.Subset.refl _
  | @child s c hs hc ih =>
    have hknown : KnownIn ⟨(· = p), fun _ => True⟩ s := ⟨p, rfl, hp, hs⟩
    exact List.Subset.trans (hknown.occurrences_child hc) ih

end Lox
