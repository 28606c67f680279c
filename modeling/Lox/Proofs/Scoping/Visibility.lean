import Lox.Proofs.Grammar.Regular
import Lox.Proofs.Scoping.Sites
import Lox.Value.Basic

/-!
# What is visible at the sites of accepted programs

A program is accepted if it comes from a source text and has no violation. At each of its sites, a
name that is bound at a distance is declared in the scope there, a receiver is bound in the scope
of a receiver, and a superclass in the scope just outside one.
-/

set_option autoImplicit false

namespace Lox

open Scoping ResolveM

/-! ## Distances -/

namespace Scoping

/-- The name is declared in the scope at the distance and visible there. -/
def Shows (r : Scoping) (d : Nat) (x : String) : Prop :=
  (∃ names ∈ r.scopes[d]?, x ∈ names) ∧ (d = 0 → r.pending ≠ some x)

theorem mem_of_distance? {x : String} {scopes : List (List String)} {d : Nat}
    (h : distance? x scopes = some d) : ∃ names ∈ scopes[d]?, x ∈ names := by
  induction scopes generalizing d with
  | nil => cases h
  | cons scope outer ih =>
    rw [distance?] at h
    split at h
    · rename_i hmem
      obtain rfl := Option.some.inj h
      exact ⟨scope, rfl, hmem⟩
    · obtain ⟨d', hd', rfl⟩ := Option.map_eq_some_iff.1 h
      exact ih hd'

theorem shows_of_visible? {r : Scoping} {x : String} {d : Nat} (h : r.visible? x = some d) :
    r.Shows d x := by
  unfold visible? at h
  split at h
  · split at h
    · cases h
    · rename_i names outer hscopes
      obtain ⟨d', hd', rfl⟩ := Option.map_eq_some_iff.1 h
      obtain ⟨names', hnames', hmem⟩ := mem_of_distance? hd'
      refine ⟨⟨names', ?_, hmem⟩, by simp⟩
      rw [hscopes]
      exact hnames'
  · rename_i hpending
    exact ⟨mem_of_distance? h, fun _ => hpending⟩

theorem visible?_of_binding {r : Scoping} {x : String} {d : Nat} (h : r.binding x = .atDistance d) :
    r.visible? x = some d := by
  unfold binding at h
  split at h
  · rename_i d' hd'
    cases h
    exact hd'
  · cases h

theorem binding_of_visible? {r : Scoping} {x : String} {d : Nat} (h : r.visible? x = some d) :
    r.binding x = .atDistance d := by
  rw [binding, h]

end Scoping

theorem Describes.get? {os : List ScopeOrigin} {scopes : List (List String)} {d : Nat}
    {names : List String} (h : Describes os scopes) (hnames : scopes[d]? = some names) :
    ∃ o, os[d]? = some o ∧ names ⊆ o.names := by
  induction h generalizing d with
  | top => cases hnames
  | @scope o names' _ _ hsubset _ _ ih =>
    cases d with
    | zero =>
      obtain rfl := Option.some.inj hnames
      exact ⟨o, rfl, hsubset⟩
    | succ d => exact ih hnames

theorem distance?_cons_of_not_mem {x : String} {scope : List String} (h : x ∉ scope)
    (outer : List (List String)) :
    distance? x (scope :: outer) = (distance? x outer).map (· + 1) :=
  if_neg h

/-- A receiver is found in the scope of the nearest receiver. -/
theorem Nested.distance?_this {os : List ScopeOrigin} {scopes : List (List String)}
    (hnested : Nested os) (h : Describes os scopes) (hmem : .receiver ∈ os) :
    ∃ d, distance? "this" scopes = some d ∧ os[d]? = some .receiver := by
  induction hnested generalizing scopes with
  | top => cases hmem
  | @body o os hbody hplain _ ih =>
    obtain _ | ⟨hsubset, _, houter⟩ := h
    have hnot : "this" ∉ _ := fun hthis => (hplain "this" (hsubset hthis)).1 rfl
    have hne : .receiver ≠ o := by
      rintro rfl
      cases hbody
    obtain ⟨d, hd, ho⟩ := ih houter ((List.mem_cons.1 hmem).resolve_left hne)
    exact ⟨d + 1, by rw [distance?_cons_of_not_mem hnot, hd]; rfl, ho⟩
  | plain _ _ | derived _ _ =>
    obtain _ | ⟨_, hnames, _⟩ := h
    exact ⟨0, by rw [hnames rfl]; rfl, rfl⟩

/-- A superclass is found in the scope of a superclass, just outside that of a receiver. -/
theorem Nested.distance?_super {os : List ScopeOrigin} {scopes : List (List String)}
    (hnested : Nested os) (h : Describes os scopes) (hmem : .superclass ∈ os) :
    ∃ d, distance? "super" scopes = some (d + 1) ∧ os[d + 1]? = some .superclass ∧
      os[d]? = some .receiver := by
  have hnot : "super" ∉ ScopeOrigin.receiver.names := by decide
  induction hnested generalizing scopes with
  | top => cases hmem
  | @body o os hbody hplain _ ih =>
    obtain _ | ⟨hsubset, _, houter⟩ := h
    have hnot' : "super" ∉ _ := fun hsuper => (hplain "super" (hsubset hsuper)).2 rfl
    have hne : .superclass ≠ o := by
      rintro rfl
      cases hbody
    obtain ⟨d, hd, ho⟩ := ih houter ((List.mem_cons.1 hmem).resolve_left hne)
    exact ⟨d + 1, by rw [distance?_cons_of_not_mem hnot', hd]; rfl, ho⟩
  | plain _ ih =>
    obtain _ | ⟨_, hnames, houter⟩ := h
    obtain ⟨d, hd, ho⟩ := ih houter ((List.mem_cons.1 hmem).resolve_left (by simp))
    exact ⟨d + 1, by rw [hnames rfl, distance?_cons_of_not_mem hnot, hd]; rfl, ho⟩
  | derived _ _ =>
    obtain _ | ⟨_, hnames, _ | ⟨_, hnames', _⟩⟩ := h
    refine ⟨0, ?_, rfl, rfl⟩
    rw [hnames rfl, distance?_cons_of_not_mem hnot, hnames' rfl]
    rfl

/-! ## Accepted programs -/

/-- A program, or a single expression, that a source text stands for and that has no violation. -/
def Accepted (p : Program) : Prop :=
  (∃ source, parseProgram source = .ok p ∨
      ∃ e, parseExpression source = .ok e ∧ p = [.expression e]) ∧ ∃ q, p.resolved = .ok q

theorem withLexical_eq_ok {α : Type} {lexical : List LexError}
    {parsed : Except (List ParseError) α} {a : α} (h : withLexical lexical parsed = .ok a) :
    lexical = [] ∧ parsed = .ok a := by
  cases parsed with
  | error errors => cases h
  | ok a' =>
    unfold withLexical at h
    dsimp only at h
    split at h
    · rename_i hnone
      exact ⟨List.isEmpty_iff.1 hnone, congrArg Except.ok (Except.ok.inj h)⟩
    · cases h

theorem Accepted.regular {p : Program} (h : Accepted p) : Regular (.top p) := by
  obtain ⟨⟨source, hp | ⟨e, he, rfl⟩⟩, -⟩ := h
  · exact regular_of_parsed_program (withLexical_eq_ok hp).2
  · exact regular_of_parsed_expression (withLexical_eq_ok he).2

theorem Accepted.quiet {p : Program} (h : Accepted p) :
    ((resolveTop p).after .fresh).errors = [] := by
  obtain ⟨-, q, hq⟩ := h
  exact (resolved_eq_ok hq).1

/-- The site is one of an accepted program. -/
def Known (s : Site) : Prop :=
  ∃ p, Accepted p ∧ Visited p s

/-- The programs and the host functions that a session may be given. -/
structure Corpus where
  programs : Program → Prop
  hosts : Native → Prop

/-- The site is one of an accepted program of the collection. -/
def KnownIn (C : Corpus) (s : Site) : Prop :=
  ∃ p, C.programs p ∧ Accepted p ∧ Visited p s

namespace KnownIn

variable {C : Corpus} {os : List ScopeOrigin} {r : Scoping}

theorem known {s : Site} (h : KnownIn C s) : Known s := by
  obtain ⟨p, -, haccepted, hvisited⟩ := h
  exact ⟨p, haccepted, hvisited⟩

theorem proper {s : Site} (h : KnownIn C s) : s.Proper := by
  obtain ⟨p, -, haccepted, hvisited⟩ := h
  exact hvisited.proper haccepted.regular haccepted.quiet

theorem child {s c : Site} (h : KnownIn C s) (hc : c ∈ s.children) : KnownIn C c := by
  obtain ⟨p, hp, haccepted, hvisited⟩ := h
  exact ⟨p, hp, haccepted, hvisited.child hc⟩

theorem expr_after {e : Expr} (h : KnownIn C ⟨os, r, .expr e⟩) : e.resolve.after r = r :=
  Keeps.eq (h.proper.regular.effect r) h.proper.quiet

/-- A name that is visible at a distance is declared in the scope there. -/
theorem declared {node : Node} {d : Nat} {x : String} (h : KnownIn C ⟨os, r, node⟩)
    (hx : r.Shows d x) : ∃ o, os[d]? = some o ∧ x ∈ o.names := by
  obtain ⟨⟨names, hnames, hmem⟩, -⟩ := hx
  obtain ⟨o, ho, hsubset⟩ := h.proper.describes.get? hnames
  exact ⟨o, ho, hsubset hmem⟩

theorem visible?_special {node : Node} {x : String} (h : KnownIn C ⟨os, r, node⟩) (hx : ¬ Plain x) :
    r.visible? x = distance? x r.scopes :=
  if_neg fun hpending => hx (h.proper.plain x hpending)

/-- A receiver is bound in the scope of a receiver. -/
theorem this {line : Nat} {slot : Slot} (h : KnownIn C ⟨os, r, .expr (.this line slot)⟩) :
    ∃ d, (Expr.this line slot).resolve.outcome r = .this line (some (.atDistance d)) ∧
      r.visible? "this" = some d ∧ os[d]? = some .receiver := by
  have hquiet : ((Expr.this line slot).resolve.after r).errors = [] := h.proper.quiet
  have hspecial : r.visible? "this" = distance? "this" r.scopes := by
    apply h.visible?_special
    simp [Plain]
  have hcontext : r.classContext ≠ .outside := by
    intro hcontext
    rw [Expr.resolve, after_get_bind, hcontext] at hquiet
    exact reporting_ne_nil _ _ hquiet
  obtain ⟨d, hd, ho⟩ := h.proper.nested.distance?_this h.proper.describes
    (h.proper.receiver hcontext)
  rw [← hspecial] at hd
  refine ⟨d, ?_, hd, ho⟩
  rw [Expr.resolve, outcome_get_bind, ← binding_of_visible? hd]
  split
  · contradiction
  · rfl

/-- A superclass is referred to only within a class that has one. -/
theorem derived_of_super {line : Nat} {method : Ident} {slot : Slot}
    (h : KnownIn C ⟨os, r, .expr (.super line method slot)⟩) : r.classContext = .derived := by
  have hquiet : ((Expr.super line method slot).resolve.after r).errors = [] := h.proper.quiet
  rw [Expr.resolve, after_get_bind] at hquiet
  split at hquiet
  · exact absurd hquiet (reporting_ne_nil _ _)
  · exact absurd hquiet (reporting_ne_nil _ _)
  · assumption

/-- A superclass is bound in the scope of a superclass, just outside that of a receiver. -/
theorem super {line : Nat} {method : Ident} {slot : Slot}
    (h : KnownIn C ⟨os, r, .expr (.super line method slot)⟩) :
    ∃ d, (Expr.super line method slot).resolve.outcome r =
        .super line method (some (.atDistance (d + 1))) ∧
      r.visible? "super" = some (d + 1) ∧ os[d + 1]? = some .superclass ∧
      os[d]? = some .receiver := by
  have hspecial : r.visible? "super" = distance? "super" r.scopes := by
    apply h.visible?_special
    simp [Plain]
  have hcontext := h.derived_of_super
  obtain ⟨d, hd, ho⟩ := h.proper.nested.distance?_super h.proper.describes
    (h.proper.superclass hcontext)
  rw [← hspecial] at hd
  refine ⟨d, ?_, hd, ho⟩
  rw [Expr.resolve, outcome_get_bind, hcontext, ← binding_of_visible? hd]
  rfl

end KnownIn

end Lox
