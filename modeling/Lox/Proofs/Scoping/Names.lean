import Lox.Proofs.Scoping.Resolved

/-!
# Declared names

The names that a program declares are those of its top level, its globals, and those of scopes
within it, its locals. Walking down to a site opens scopes whose names were not counted before, so
the names of the scopes that are open at a site, together with those declared further inside, are
locals, each no more often than the program declares it.
-/

set_option autoImplicit false

namespace Lox

open Scoping ResolveM

mutual

/-- The names that are declared by the functions in an expression. -/
def Expr.declared : Expr → List String
  | .literal _ _ | .variable _ _ | .this _ _ | .super _ _ _ => []
  | .group inner => inner.declared
  | .assign _ value _ => value.declared
  | .unary _ operand _ => operand.declared
  | .binary _ left right _ => left.declared ++ right.declared
  | .logical _ left right _ => left.declared ++ right.declared
  | .call callee arguments _ => callee.declared ++ declaredInArguments arguments
  | .get object _ => object.declared
  | .set object _ value => object.declared ++ value.declared
  | .lambda decl => decl.declared

def declaredInArguments : List Expr → List String
  | [] => []
  | e :: es => e.declared ++ declaredInArguments es

/-- The names that a statement declares, its own first. -/
def Stmt.declared : Stmt → List String
  | .expression value => value.declared
  | .print value => value.declared
  | .var name none => [name.name]
  | .var name (some value) => name.name :: value.declared
  | .block body => declaredInBody body
  | .cond condition thenBranch none => condition.declared ++ thenBranch.declared
  | .cond condition thenBranch (some elseBranch) =>
    condition.declared ++ thenBranch.declared ++ elseBranch.declared
  | .loop condition body => condition.declared ++ body.declared
  | .function decl => decl.name.toList.map Ident.name ++ decl.declared
  | .ret _ none | .brk _ => []
  | .ret _ (some value) => value.declared
  | .classDecl name _ methods => name.name :: declaredInMethods methods

def declaredInBody : List Stmt → List String
  | [] => []
  | s :: rest => s.declared ++ declaredInBody rest

/-- The names that a function declares, its parameters first; its own name is not among them. -/
def FunDecl.declared : FunDecl → List String
  | ⟨_, params, body, _⟩ => params.map Ident.name ++ declaredInBody body

/-- Methods are not variables, so their names are not declared. -/
def declaredInMethods : List FunDecl → List String
  | [] => []
  | decl :: decls => decl.declared ++ declaredInMethods decls

end

/-- The name that a statement declares where it stands. -/
def Stmt.own : Stmt → List String
  | .var name _ => [name.name]
  | .function decl => decl.name.toList.map Ident.name
  | .classDecl name _ _ => [name.name]
  | _ => []

/-- The names that are declared inside a statement. -/
def Stmt.inner : Stmt → List String
  | .var _ none => []
  | .var _ (some value) => value.declared
  | .function decl => decl.declared
  | .classDecl _ _ methods => declaredInMethods methods
  | s => s.declared

namespace Program

/-- All names that a program declares. -/
def declared (p : Program) : List String :=
  declaredInBody p

/-- The names that are declared at top level. -/
def globals (p : Program) : List String :=
  p.flatMap Stmt.own

/-- The names that are declared in scopes within the top level. -/
def locals (p : Program) : List String :=
  p.flatMap Stmt.inner

end Program

theorem Stmt.own_append_inner (s : Stmt) : s.own ++ s.inner = s.declared := by
  cases s with
  | var name value => cases value <;> rfl
  | _ => rfl

theorem Stmt.own_eq_nil {s : Stmt} (hs : s.isDeclaration = false) : s.own = [] := by
  cases s with
  | var | function | classDecl => cases hs
  | _ => rfl

/-- A statement declares the same name once its slots are filled. -/
theorem Stmt.own_resolve (s : Stmt) (r : Scoping) : (s.resolve.outcome r).own = s.own := by
  have hresembles := s.resembles_resolve r
  generalize s.resolve.outcome r = s' at hresembles
  cases hresembles with
  | function hname => exact congrArg (fun n => n.toList.map Ident.name) hname
  | _ => rfl

theorem Stmt.inner_sublist (s : Stmt) : s.inner.Sublist s.declared := by
  rw [← s.own_append_inner]
  exact List.sublist_append_right _ _

theorem Program.count_declared (p : Program) (x : String) :
    p.declared.count x = p.globals.count x + p.locals.count x := by
  induction p with
  | nil => rfl
  | cons s rest ih =>
    have hrest : (declaredInBody rest).count x =
        (rest.flatMap Stmt.own).count x + (rest.flatMap Stmt.inner).count x := ih
    simp only [declared, declaredInBody, globals, locals, List.flatMap_cons, List.count_append,
      ← Stmt.own_append_inner, hrest]
    omega

/-- The names of a body are those of its functions, of its variables and classes, and those further
inside. -/
theorem count_declaredInBody (body : List Stmt) (x : String) :
    (declaredInBody body).count x = (functionNames body).count x +
      (introducedNames body).count x + (body.flatMap Stmt.inner).count x := by
  induction body with
  | nil => rfl
  | cons s rest ih =>
    have hown : (functionNames (s :: rest)).count x + (introducedNames (s :: rest)).count x =
        s.own.count x + ((functionNames rest).count x + (introducedNames rest).count x) := by
      cases s with
      | function decl => simp [functionNames, introducedNames, Stmt.introduced?, Stmt.own]; omega
      | var | classDecl =>
        simp [functionNames, introducedNames, Stmt.introduced?, Stmt.own, List.count_cons]
        omega
      | _ => simp [functionNames, introducedNames, Stmt.introduced?, Stmt.own]
    simp only [declaredInBody, List.flatMap_cons, List.count_append, ← Stmt.own_append_inner, ih]
    omega

/-! ## Names of the scopes around a site -/

/-- The names that a program declares in a scope; a receiver or a superclass is not declared. -/
def ScopeOrigin.declared (o : ScopeOrigin) : List String :=
  if o.hasBody then o.names else []

/-- The names that are declared inside a node. Those of a body itself belong to its scope. -/
def Node.inner : Node → List String
  | .expr e => e.declared
  | .arguments es => declaredInArguments es
  | .stmt s => s.inner
  | .body ss => ss.flatMap Stmt.inner
  | .function decl => decl.declared
  | .methods decls => declaredInMethods decls
  | .top ss => ss.flatMap Stmt.inner

/-- The names of the scopes around a site, and those declared inside it. -/
def Site.declared (s : Site) : List String :=
  s.origins.flatMap ScopeOrigin.declared ++ s.node.inner

namespace Site

variable {os : List ScopeOrigin} {r r' : Scoping} {node node' : Node}

theorem count_declared (os : List ScopeOrigin) (r : Scoping) (node : Node) (x : String) :
    (Site.declared ⟨os, r, node⟩).count x =
      (os.flatMap ScopeOrigin.declared).count x + node.inner.count x :=
  List.count_append

theorem count_declared_same (h : node'.inner.Sublist node.inner) (x : String) :
    (declared ⟨os, r', node'⟩).count x ≤ (declared ⟨os, r, node⟩).count x := by
  rw [count_declared, count_declared]
  exact Nat.add_le_add_left (h.count_le x) _

/-- A new scope takes over the names of its body. -/
theorem count_declared_scope {o : ScopeOrigin} (x : String)
    (h : o.declared.count x + node'.inner.count x = node.inner.count x) :
    (declared ⟨o :: os, r', node'⟩).count x ≤ (declared ⟨os, r, node⟩).count x := by
  rw [count_declared, count_declared, List.flatMap_cons, List.count_append]
  omega

theorem count_declared_inExpr {e : Expr} {c : Site} (hc : c ∈ inExpr os r e) (x : String) :
    c.declared.count x ≤ (declared ⟨os, r, .expr e⟩).count x := by
  cases e with
  | literal | «variable» | this | super => cases hc
  | group | assign | unary | get | lambda =>
    obtain rfl := List.mem_singleton.1 hc
    exact Nat.le_refl _
  | binary | logical | call =>
    rcases List.mem_cons.1 hc with rfl | hc
    · exact count_declared_same (List.sublist_append_left _ _) x
    · obtain rfl := List.mem_singleton.1 hc
      exact count_declared_same (List.sublist_append_right _ _) x
  | set =>
    rcases List.mem_cons.1 hc with rfl | hc
    · exact count_declared_same (List.sublist_append_right _ _) x
    · obtain rfl := List.mem_singleton.1 hc
      exact count_declared_same (List.sublist_append_left _ _) x

theorem count_declared_inStmt {s : Stmt} {c : Site} (hc : c ∈ inStmt os r s) (x : String) :
    c.declared.count x ≤ (declared ⟨os, r, .stmt s⟩).count x := by
  cases s with
  | expression | print | function =>
    obtain rfl := List.mem_singleton.1 hc
    exact Nat.le_refl _
  | var name value | ret line value =>
    cases value with
    | none => cases hc
    | some value =>
      obtain rfl := List.mem_singleton.1 hc
      exact Nat.le_refl _
  | brk => cases hc
  | block body =>
    obtain rfl := List.mem_singleton.1 hc
    apply count_declared_scope
    have hnames : (ScopeOrigin.block body).declared =
        functionNames body ++ introducedNames body := rfl
    rw [hnames, List.count_append]
    exact (count_declaredInBody body x).symm
  | cond condition thenBranch elseBranch =>
    have hthen := thenBranch.inner_sublist
    cases elseBranch with
    | none =>
      rcases List.mem_cons.1 hc with rfl | hc
      · exact count_declared_same (List.sublist_append_left _ _) x
      · obtain rfl := List.mem_singleton.1 hc
        apply count_declared_same
        exact hthen.trans (List.sublist_append_right _ _)
    | some elseBranch =>
      rcases List.mem_cons.1 hc with rfl | hc
      · exact count_declared_same
          ((List.sublist_append_left _ _).trans (List.sublist_append_left _ _)) x
      rcases List.mem_cons.1 hc with rfl | hc
      · apply count_declared_same
        exact hthen.trans ((List.sublist_append_right _ _).trans (List.sublist_append_left _ _))
      · obtain rfl := List.mem_singleton.1 hc
        apply count_declared_same
        exact elseBranch.inner_sublist.trans (List.sublist_append_right _ _)
  | loop condition body =>
    rcases List.mem_cons.1 hc with rfl | hc
    · exact count_declared_same (List.sublist_append_left _ _) x
    · obtain rfl := List.mem_singleton.1 hc
      apply count_declared_same
      exact body.inner_sublist.trans (List.sublist_append_right _ _)
  | classDecl name superclass methods =>
    rcases superclass with _ | ⟨parent, slot⟩
    · obtain rfl := List.mem_singleton.1 hc
      exact count_declared_scope x (Nat.zero_add _)
    · rcases List.mem_cons.1 hc with rfl | hc
      · apply count_declared_same
        exact List.nil_sublist _
      · obtain rfl := List.mem_singleton.1 hc
        refine Nat.le_trans (count_declared_scope (r := r) x (Nat.zero_add _)) ?_
        exact count_declared_scope x (Nat.zero_add _)

theorem count_declared_child {s c : Site} (hc : c ∈ s.children) (x : String) :
    c.declared.count x ≤ s.declared.count x := by
  obtain ⟨os, r, node⟩ := s
  cases node with
  | expr e => exact count_declared_inExpr hc x
  | stmt s => exact count_declared_inStmt hc x
  | arguments parts | methods parts | top parts =>
    cases parts with
    | nil => cases hc
    | cons first rest =>
      rcases List.mem_cons.1 hc with rfl | hc
      · exact count_declared_same (List.sublist_append_left _ _) x
      · obtain rfl := List.mem_singleton.1 hc
        exact count_declared_same (List.sublist_append_right _ _) x
  | body ss =>
    cases ss with
    | nil => cases hc
    | cons s rest =>
      cases s with
      | _ =>
        rcases List.mem_cons.1 hc with rfl | hc
        · exact count_declared_same (List.sublist_append_left _ _) x
        · obtain rfl := List.mem_singleton.1 hc
          exact count_declared_same (List.sublist_append_right _ _) x
  | function decl =>
    obtain ⟨name, params, body, line⟩ := decl
    obtain rfl := List.mem_singleton.1 hc
    apply count_declared_scope
    have hnames : (ScopeOrigin.function params body).declared =
        (params.map Ident.name ++ functionNames body) ++ introducedNames body := rfl
    have hinner : (Node.function ⟨name, params, body, line⟩).inner =
        params.map Ident.name ++ declaredInBody body := rfl
    have hbody := count_declaredInBody body x
    rw [hnames, hinner, List.count_append, List.count_append, List.count_append, Node.inner]
    omega

end Site

theorem Visited.count_declared {p : Program} {s : Site} (h : Visited p s) (x : String) :
    s.declared.count x ≤ p.locals.count x := by
  induction h with
  | top => exact Nat.le_refl _
  | child _ hc ih => exact Nat.le_trans (Site.count_declared_child hc x) ih

/-- Scopes that are open at the same site have no declared name in common. -/
theorem eq_of_declared {os : List ScopeOrigin} {x : String} {d d' : Nat} {o o' : ScopeOrigin}
    (h : (os.flatMap ScopeOrigin.declared).count x ≤ 1) (ho : os[d]? = some o)
    (ho' : os[d']? = some o') (hx : x ∈ o.declared) (hx' : x ∈ o'.declared) : d = d' := by
  induction os generalizing d d' with
  | nil => cases ho
  | cons first rest ih =>
    rw [List.flatMap_cons, List.count_append] at h
    have hrest {i : Nat} {o : ScopeOrigin} (hi : rest[i]? = some o) (hmem : x ∈ o.declared) :
        0 < (rest.flatMap ScopeOrigin.declared).count x :=
      List.count_pos_iff.2 (List.mem_flatMap.2 ⟨o, List.mem_of_getElem? hi, hmem⟩)
    cases d with
    | zero =>
      obtain rfl := Option.some.inj ho
      have hfirst := List.count_pos_iff.2 hx
      cases d' with
      | zero => rfl
      | succ d' =>
        have hlast := hrest ho' hx'
        omega
    | succ d =>
      cases d' with
      | zero =>
        obtain rfl := Option.some.inj ho'
        have hfirst := List.count_pos_iff.2 hx'
        have hlast := hrest ho hx
        omega
      | succ d' => rw [ih (by omega) ho ho']

/-! ## Names of the top level -/

/-- The names that a node declares where it stands; those of a body belong to its scope. -/
def Node.own : Node → List String
  | .stmt s => s.own
  | .top ss => ss.flatMap Stmt.own
  | _ => []

theorem Site.Proper.own_child {os : List ScopeOrigin} {r : Scoping} {node : Node} {c : Site}
    (h : Proper ⟨os, r, node⟩) (hc : c ∈ (⟨os, r, node⟩ : Site).children) (htop : c.origins = []) :
    c.node.own = [] ∨ os = [] ∧ c.node.own ⊆ node.own := by
  have hregular : Regular node := h.regular
  cases hregular with
  | literal | «variable» | this | super | noArgument | var | ret | brk | noStatement | noMethod
  | noTop => exact absurd hc List.not_mem_nil
  | group | unary | get | assign | expression | print | lambda | varWith | retWith | block
  | functionDecl | classDecl | code =>
    obtain rfl := List.mem_singleton.1 hc
    exact Or.inl rfl
  | binary | logical | call | set | argument | method | bodyFunction =>
    rcases List.mem_cons.1 hc with rfl | hc
    · exact Or.inl rfl
    · obtain rfl := List.mem_singleton.1 hc
      exact Or.inl rfl
  | subclassDecl parent =>
    obtain ⟨parent, slot⟩ := parent
    rcases List.mem_cons.1 hc with rfl | hc
    · exact Or.inl rfl
    · obtain rfl := List.mem_singleton.1 hc
      exact Or.inl rfl
  | cond _ _ hdeclares | loop _ _ hdeclares =>
    rcases List.mem_cons.1 hc with rfl | hc
    · exact Or.inl rfl
    · obtain rfl := List.mem_singleton.1 hc
      exact Or.inl (Stmt.own_eq_nil hdeclares)
  | condElse _ _ hdeclares _ hdeclares' =>
    rcases List.mem_cons.1 hc with rfl | hc
    · exact Or.inl rfl
    rcases List.mem_cons.1 hc with rfl | hc
    · exact Or.inl (Stmt.own_eq_nil hdeclares)
    · obtain rfl := List.mem_singleton.1 hc
      exact Or.inl (Stmt.own_eq_nil hdeclares')
  | bodyStmt hs _ _ =>
    obtain ⟨o, ho, -⟩ := h.fits
    rw [children_body os r hs] at hc
    rcases List.mem_cons.1 hc with rfl | hc
    · obtain rfl : os = [] := htop
      cases ho
    · obtain rfl := List.mem_singleton.1 hc
      exact Or.inl rfl
  | topStmt _ _ =>
    refine Or.inr ⟨h.fits, ?_⟩
    rcases List.mem_cons.1 hc with rfl | hc
    · exact List.subset_append_left _ _
    · obtain rfl := List.mem_singleton.1 hc
      exact List.subset_append_right _ _

/-- What is declared outside all scopes is a global. -/
theorem Visited.own_subset {p : Program} {s : Site} (h : Visited p s) (hp : Accepted p)
    (htop : s.origins = []) : s.node.own ⊆ p.globals := by
  induction h with
  | top => exact List.Subset.refl _
  | @child s c hs hc ih =>
    obtain ⟨os, r, node⟩ := s
    rcases (hs.proper hp.regular hp.quiet).own_child hc htop with hnil | ⟨hos, hsubset⟩
    · rw [hnil]
      exact List.nil_subset _
    · exact List.Subset.trans hsubset (ih hos)

/-- A program declares the name at top level, or a host function has it. -/
def Corpus.Names (C : Corpus) (x : String) : Prop :=
  (∃ p, C.programs p ∧ x ∈ p.globals) ∨ ∃ native, C.hosts native ∧ native.name = x

/-- The name may be bound in the innermost of the scopes. -/
structure DeclaredIn (C : Corpus) (os : List ScopeOrigin) (x : String) : Prop where
  plain : Plain x
  inner : ∀ o ∈ os.head?, x ∈ o.names
  top : os = [] → C.Names x

theorem KnownIn.own {C : Corpus} {os : List ScopeOrigin} {r : Scoping} {node : Node} {x : String}
    (h : KnownIn C ⟨os, r, node⟩) (hx : x ∈ node.own) (htop : os = []) : C.Names x := by
  obtain ⟨p, hp, haccepted, hvisited⟩ := h
  exact Or.inl ⟨p, hp, hvisited.own_subset haccepted htop hx⟩

/-- A variable or class is declared in the innermost scope around it. -/
theorem KnownIn.declares {C : Corpus} {os : List ScopeOrigin} {r : Scoping} {s : Stmt} {x : Ident}
    (h : KnownIn C ⟨os, r, .stmt s⟩) (hx : s.introduced? = some x) :
    DeclaredIn C os x.name ∧ s.resolve.after r = r.declaring x.name := by
  refine ⟨⟨Site.Proper.plain_variable h.proper.regular hx, ?_, ?_⟩, ?_⟩
  · intro o ho
    exact List.mem_append_right _ (h.proper.fits.2 o ho x hx)
  · apply h.own
    cases s with
    | var | classDecl =>
      obtain rfl := Option.some.inj hx
      exact List.mem_cons_self
    | _ => cases hx
  · rw [h.proper.after_stmt, hx]
    rfl

end Lox
