import Lox.Proofs.Scoping.Visibility

/-!
# The class around a site

The scopes around a site tell which class it belongs to: that of the nearest receiver. The resolver
keeps track of this class, and so finds a receiver in the nearest scope of one, and a superclass
just outside it.
-/

set_option autoImplicit false

namespace Lox

open Scoping ResolveM

/-- The class that the scopes around a site belong to. -/
def ScopeOrigin.context : List ScopeOrigin → ClassContext
  | [] => .outside
  | .receiver :: .superclass :: _ => .derived
  | .receiver :: _ => .plain
  | _ :: os => context os

open ScopeOrigin

theorem Scoping.Grows.classContext_eq {r r' : Scoping} (h : r.Grows r') :
    r'.classContext = r.classContext := by
  obtain ⟨scopes, new, rfl, -⟩ := h
  rfl

/-- A superclass holds nothing but a receiver, so no class stands directly in one. -/
theorem Nested.context_receiver {os : List ScopeOrigin} (h : Nested os) :
    context (.receiver :: os) = .plain := by
  cases h with
  | top | plain | derived => rfl
  | @body o _ hbody =>
    cases o with
    | block | function | receiver => rfl
    | superclass => cases hbody

/-! ## What the resolver keeps track of -/

section
variable {os : List ScopeOrigin} {r : Scoping}

theorem context_inExpr {e : Expr} {c : Site} (hregular : Regular (.expr e))
    (h : r.classContext = context os) (hc : c ∈ Site.inExpr os r e) :
    c.state.classContext = context c.origins := by
  have hpair {first second : Node} (hfirst : Regular first)
      (hc : c ∈ [(⟨os, r, first⟩ : Site), ⟨os, first.after r, second⟩]) :
      c.state.classContext = context c.origins := by
    rcases List.mem_cons.1 hc with rfl | hc
    · exact h
    · obtain rfl := List.mem_singleton.1 hc
      exact (hfirst.grows r).classContext_eq.trans h
  cases hregular with
  | literal | «variable» | this | super => cases hc
  | group | assign | unary | get | lambda =>
    obtain rfl := List.mem_singleton.1 hc
    exact h
  | binary _ _ hfirst | logical _ _ hfirst | call _ hfirst | set _ _ hfirst => exact hpair hfirst hc

theorem context_inStmt {s : Stmt} {c : Site} (hproper : Site.Proper ⟨os, r, .stmt s⟩)
    (h : r.classContext = context os) (hc : c ∈ Site.inStmt os r s) :
    c.state.classContext = context c.origins := by
  have hregular : Regular (.stmt s) := hproper.regular
  cases hregular with
  | var | ret | brk => cases hc
  | expression | print | retWith =>
    obtain rfl := List.mem_singleton.1 hc
    exact h
  | @varWith name =>
    obtain rfl := List.mem_singleton.1 hc
    exact (grows_declare r name).classContext_eq.trans h
  | @block body =>
    obtain rfl := List.mem_singleton.1 hc
    exact (grows_declareFunctions (r.enter []) body).classContext_eq.trans h
  | cond hcondition =>
    rcases List.mem_cons.1 hc with rfl | hc
    · exact h
    · obtain rfl := List.mem_singleton.1 hc
      exact (hcondition.grows r).classContext_eq.trans h
  | condElse hcondition hthen =>
    have hfirst := (hcondition.grows r).classContext_eq.trans h
    rcases List.mem_cons.1 hc with rfl | hc
    · exact h
    rcases List.mem_cons.1 hc with rfl | hc
    · exact hfirst
    · obtain rfl := List.mem_singleton.1 hc
      exact (hthen.grows _).classContext_eq.trans hfirst
  | loop hcondition =>
    rcases List.mem_cons.1 hc with rfl | hc
    · exact h
    · obtain rfl := List.mem_singleton.1 hc
      exact (hcondition.grows r).classContext_eq.trans h
  | @functionDecl decl =>
    obtain rfl := List.mem_singleton.1 hc
    exact (grows_declareAll r decl.name.toList).classContext_eq.trans h
  | classDecl =>
    obtain rfl := List.mem_singleton.1 hc
    exact hproper.nested.context_receiver.symm
  | subclassDecl parent =>
    obtain ⟨parent, slot⟩ := parent
    rcases List.mem_cons.1 hc with rfl | hc
    · exact h
    · obtain rfl := List.mem_singleton.1 hc
      rfl

theorem context_child {node : Node} {c : Site} (hproper : Site.Proper ⟨os, r, node⟩)
    (h : r.classContext = context os) (hc : c ∈ (⟨os, r, node⟩ : Site).children) :
    c.state.classContext = context c.origins := by
  have hregular : Regular node := hproper.regular
  have hpair {first second : Node} (hfirst : Regular first)
      (hc : c ∈ [(⟨os, r, first⟩ : Site), ⟨os, first.after r, second⟩]) :
      c.state.classContext = context c.origins := by
    rcases List.mem_cons.1 hc with rfl | hc
    · exact h
    · obtain rfl := List.mem_singleton.1 hc
      exact (hfirst.grows r).classContext_eq.trans h
  cases node with
  | expr e => exact context_inExpr hregular h hc
  | stmt s => exact context_inStmt hproper h hc
  | arguments es =>
    cases hregular with
    | noArgument => cases hc
    | argument hfirst _ => exact hpair hfirst hc
  | body ss =>
    cases hregular with
    | noStatement => cases hc
    | bodyFunction _ hfirst _ => exact hpair hfirst hc
    | bodyStmt hs hfirst _ =>
      rw [Site.children_body os r hs] at hc
      exact hpair hfirst hc
  | function decl =>
    obtain ⟨name, params, body, line⟩ := decl
    obtain rfl := List.mem_singleton.1 hc
    have hparams := (grows_declareAll r.enterFunction params).classContext_eq.trans h
    exact (grows_declareFunctions _ body).classContext_eq.trans hparams
  | methods decls =>
    cases hregular with
    | noMethod => cases hc
    | method hfirst _ => exact hpair hfirst hc
  | top ss =>
    cases hregular with
    | noTop => cases hc
    | topStmt hfirst _ => exact hpair hfirst hc

end

namespace KnownIn

variable {C : Corpus} {os : List ScopeOrigin} {r : Scoping}

/-- The resolver knows which class a site belongs to. -/
theorem context_eq {node : Node} (h : KnownIn C ⟨os, r, node⟩) : r.classContext = context os := by
  obtain ⟨p, -, haccepted, hvisited⟩ := h
  suffices hsite : ∀ {s : Site}, Visited p s → s.state.classContext = context s.origins from
    hsite hvisited
  intro s hs
  induction hs with
  | top => rfl
  | @child s c hs hc ih =>
    obtain ⟨os, r, node⟩ := s
    exact context_child (hs.proper haccepted.regular haccepted.quiet) ih hc

end KnownIn

/-! ## The nearest receiver -/

/-- The scope at the distance holds a receiver, and no scope before it does. -/
def NearestReceiver (os : List ScopeOrigin) (d : Nat) : Prop :=
  os[d]? = some .receiver ∧ ∀ i < d, os[i]? ≠ some .receiver

theorem NearestReceiver.outer {os : List ScopeOrigin} {d : Nat} {o : ScopeOrigin}
    (h : NearestReceiver os d) (ho : o ≠ .receiver) : NearestReceiver (o :: os) (d + 1) := by
  refine ⟨h.1, ?_⟩
  intro i hi hreceiver
  cases i with
  | zero => exact ho (Option.some.inj hreceiver)
  | succ i => exact h.2 i (Nat.lt_of_succ_lt_succ hi) hreceiver

/-- In a class with a superclass, the superclass is just outside the nearest receiver. -/
theorem superclass_of_derived {os : List ScopeOrigin} (h : context os = .derived) :
    ∃ d, NearestReceiver os d ∧ os[d + 1]? = some .superclass := by
  fun_induction context os with
  | case1 => cases h
  | case2 =>
    refine ⟨0, ⟨rfl, ?_⟩, rfl⟩
    intro i hi
    cases hi
  | case3 => cases h
  | case4 o os _ ho ih =>
    obtain ⟨d, hnearest, hsuper⟩ := ih h
    exact ⟨d + 1, hnearest.outer ho, hsuper⟩

theorem not_mem_of_lt_distance? {x : String} {scopes : List (List String)} {d : Nat}
    (h : distance? x scopes = some d) {i : Nat} (hi : i < d) {names : List String}
    (hnames : scopes[i]? = some names) : x ∉ names := by
  induction scopes generalizing d i with
  | nil => cases h
  | cons scope outer ih =>
    rw [distance?] at h
    split at h
    · cases h
      cases hi
    · rename_i hnot
      obtain ⟨d', hd', rfl⟩ := Option.map_eq_some_iff.1 h
      cases i with
      | zero =>
        obtain rfl := Option.some.inj hnames
        exact hnot
      | succ i => exact ih hd' (Nat.lt_of_succ_lt_succ hi) hnames

/-- The scopes of receivers and superclasses bind just what they are for. -/
theorem Describes.special {os : List ScopeOrigin} {scopes : List (List String)} {d : Nat}
    {o : ScopeOrigin} (h : Describes os scopes) (ho : os[d]? = some o) (hbody : o.hasBody = false) :
    scopes[d]? = some o.names := by
  induction h generalizing d with
  | top => cases ho
  | scope _ hnames _ ih =>
    cases d with
    | zero =>
      obtain rfl := Option.some.inj ho
      exact congrArg some (hnames hbody)
    | succ d => exact ih ho

namespace KnownIn

variable {C : Corpus} {os : List ScopeOrigin} {r : Scoping}

/-- A receiver is found in the nearest scope of one. -/
theorem nearest_this {line : Nat} {slot : Slot} (h : KnownIn C ⟨os, r, .expr (.this line slot)⟩) :
    ∃ d, (Expr.this line slot).resolve.outcome r = .this line (some (.atDistance d)) ∧
      NearestReceiver os d := by
  obtain ⟨d, houtcome, hvisible, hreceiver⟩ := h.this
  rw [h.visible?_special (by simp [Plain])] at hvisible
  refine ⟨d, houtcome, hreceiver, ?_⟩
  intro i hi hi'
  have hnames := h.proper.describes.special hi' rfl
  exact not_mem_of_lt_distance? hvisible hi hnames List.mem_cons_self

/-- A superclass is found just outside the nearest scope of a receiver. -/
theorem nearest_super {line : Nat} {method : Ident} {slot : Slot}
    (h : KnownIn C ⟨os, r, .expr (.super line method slot)⟩) :
    ∃ d, (Expr.super line method slot).resolve.outcome r =
        .super line method (some (.atDistance (d + 1))) ∧
      NearestReceiver os d ∧ os[d + 1]? = some .superclass := by
  obtain ⟨n, hnearest, hsuper⟩ := superclass_of_derived (h.context_eq.symm.trans h.derived_of_super)
  obtain ⟨d, houtcome, hvisible, -, hreceiver⟩ := h.super
  rw [h.visible?_special (by simp [Plain])] at hvisible
  have hle : d ≤ n := by
    apply Nat.le_of_not_lt
    intro hlt
    have hnames := h.proper.describes.special hsuper rfl
    exact not_mem_of_lt_distance? hvisible (Nat.succ_lt_succ hlt) hnames List.mem_cons_self
  have hge : n ≤ d := Nat.le_of_not_lt fun hlt => hnearest.2 d hlt hreceiver
  obtain rfl := Nat.le_antisymm hle hge
  exact ⟨d, houtcome, hnearest, hsuper⟩

end KnownIn

end Lox
