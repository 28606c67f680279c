import Lox.Proofs.Reordering.Syntax
import Lox.Proofs.Scoping.Reports
import Lox.Proofs.Scoping.Resolved
import Mathlib.Data.List.Forall2

/-!
# Exchanged functions and scopes

The functions of a body are declared before the resolver walks over any of them, and the walk over
a function adds reports at most. So the resolver fills the slots of a tree in which two functions
have been exchanged as it fills those of the tree itself, and makes as many reports. Where it makes
none, no two functions of a body have one name.
-/

set_option autoImplicit false

namespace Lox

/-! ## Knowledge up to the order of names -/

namespace Scoping

/-- All is the same but the reports and the order of the names in a scope. -/
structure Alike (r r' : Scoping) : Prop where
  scopes : List.Forall₂ List.Perm r.scopes r'.scopes
  inFunction : r'.inFunction = r.inFunction
  classContext : r'.classContext = r.classContext
  loopDepth : r'.loopDepth = r.loopDepth
  pending : r'.pending = r.pending

variable {r r' : Scoping}

theorem distance?_eq {scopes scopes' : List (List String)} (h : List.Forall₂ List.Perm scopes scopes')
    (x : String) : distance? x scopes' = distance? x scopes := by
  induction h with
  | nil => rfl
  | cons hscope _ ih => simp only [distance?, hscope.mem_iff, ih]

namespace Alike

theorem refl (r : Scoping) : r.Alike r :=
  ⟨List.forall₂_same.2 fun _ _ => .refl _, rfl, rfl, rfl, rfl⟩

/-- Reports make no difference. -/
theorem of_keeps (h : r.Alike r') {s s' : Scoping} (hs : r.Keeps s) (hs' : r'.Keeps s') :
    s.Alike s' := by
  obtain ⟨new, rfl⟩ := hs
  obtain ⟨new', rfl⟩ := hs'
  exact { h with }

theorem enter (h : r.Alike r') (names : List String) : (r.enter names).Alike (r'.enter names) :=
  { h with scopes := .cons (.refl _) h.scopes }

theorem enterFunction (h : r.Alike r') : r.enterFunction.Alike r'.enterFunction :=
  ⟨.cons (.refl _) h.scopes, rfl, h.classContext, rfl, rfl⟩

theorem exit (h : r.Alike r') : r.exit.Alike r'.exit := by
  refine { h with scopes := ?_ }
  have hscopes := h.scopes
  unfold Scoping.exit
  generalize r.scopes = scopes, r'.scopes = scopes' at hscopes
  cases hscopes with
  | nil => exact .nil
  | cons _ houter => exact houter

theorem isEmpty_eq (h : r.Alike r') : r'.scopes.isEmpty = r.scopes.isEmpty := by
  rw [Bool.eq_iff_iff, List.isEmpty_iff_length_eq_zero, List.isEmpty_iff_length_eq_zero,
    h.scopes.length_eq]

theorem binding_eq (h : r.Alike r') (x : String) : r'.binding x = r.binding x := by
  have hvisible : r'.visible? x = r.visible? x := by
    have hscopes := h.scopes
    unfold visible?
    rw [h.pending]
    generalize r.scopes = scopes, r'.scopes = scopes' at hscopes
    split
    · cases hscopes with
      | nil => rfl
      | cons _ houter => exact congrArg (Option.map (· + 1)) (distance?_eq houter x)
    · exact distance?_eq hscopes x
  rw [binding, binding, hvisible]

end Alike

end Scoping

namespace ResolveM

open Scoping

variable {α α' β β' : Type}

/-- The second action does with `r'` what the first does with `r`, `g` changes what it yields, and
both make as many reports. If they make none, what the first action yields has the property `P`. -/
def MirrorsAt (g : α → β) (P : α → Prop) (act : ResolveM α) (act' : ResolveM β) (r r' : Scoping) :
    Prop :=
  act'.outcome r' = g (act.outcome r) ∧ (act.after r).Alike (act'.after r') ∧
    ∃ n, (act.after r).errors.length = r.errors.length + n ∧
      (act'.after r').errors.length = r'.errors.length + n ∧ (n = 0 → P (act.outcome r))

/-- The actions do the same wherever the knowledge is alike. -/
def Mirrors (g : α → β) (P : α → Prop) (act : ResolveM α) (act' : ResolveM β) : Prop :=
  ∀ r r' : Scoping, r.Alike r' → MirrorsAt g P act act' r r'

section Contexts
variable {g : α → β} {P : α → Prop} {act : ResolveM α} {act' : ResolveM β} {r r' : Scoping}

theorem MirrorsAt.bind {g' : α' → β'} {P' : α' → Prop} {k : α → ResolveM α'} {k' : β → ResolveM β'}
    (h : MirrorsAt g P act act' r r')
    (hk : ∀ a, Mirrors g' (fun c => P a → P' c) (k a) (k' (g a))) :
    MirrorsAt g' P' (act >>= k) (act' >>= k') r r' := by
  obtain ⟨houtcome, hafter, n, hn, hn', hP⟩ := h
  obtain ⟨houtcome', hafter', m, hm, hm', hP'⟩ := hk (act.outcome r) _ _ hafter
  rw [MirrorsAt, outcome_bind, outcome_bind, after_bind, after_bind, houtcome]
  refine ⟨houtcome', hafter', n + m, by omega, by omega, fun hnone => ?_⟩
  exact hP' (by omega) (hP (by omega))

theorem MirrorsAt.inScope {names : List String}
    (h : MirrorsAt g P act act' (r.enter names) (r'.enter names)) :
    MirrorsAt g P (inScope names act) (inScope names act') r r' := by
  obtain ⟨houtcome, hafter, hcount⟩ := h
  exact ⟨houtcome, hafter.exit, hcount⟩

theorem MirrorsAt.inFunction (hr : r.Alike r')
    (h : MirrorsAt g P act act' r.enterFunction r'.enterFunction) :
    MirrorsAt g P (inFunction act) (inFunction act') r r' := by
  obtain ⟨houtcome, hafter, hcount⟩ := h
  have hscopes := hafter.exit.scopes
  exact ⟨houtcome, ⟨hscopes, hr.inFunction, hafter.classContext, hr.loopDepth, hr.pending⟩, hcount⟩

end Contexts

namespace Mirrors
variable {g : α → β} {P : α → Prop} {act : ResolveM α} {act' : ResolveM β}

theorem pure {a : α} {b : β} (hb : b = g a) (h : P a) : Mirrors g P (pure a) (pure b) :=
  fun _ _ hr => ⟨hb, hr, 0, rfl, rfl, fun _ => h⟩

theorem bind {g' : α' → β'} {P' : α' → Prop} {k : α → ResolveM α'} {k' : β → ResolveM β'}
    (h : Mirrors g P act act') (hk : ∀ a, Mirrors g' (fun c => P a → P' c) (k a) (k' (g a))) :
    Mirrors g' P' (act >>= k) (act' >>= k') :=
  fun r r' hr => (h r r' hr).bind hk

theorem get_bind {k : Scoping → ResolveM α} {k' : Scoping → ResolveM β}
    (hk : ∀ r r', r.Alike r' → Mirrors g P (k r) (k' r')) :
    Mirrors g P (get >>= k) (get >>= k') :=
  fun r r' hr => hk r r' hr r r' hr

theorem report (line : Nat) (lexeme : String) (fault : ResolveFault) :
    Mirrors id (fun _ => False) (report line lexeme fault) (report line lexeme fault) := by
  intro r r' hr
  refine ⟨rfl, hr.of_keeps (.of_report _) (.of_report _), 1, ?_, ?_, by simp⟩
  · exact List.length_append
  · exact List.length_append

/-- A report under a condition, and what is done whether or not it is made. -/
theorem report_if {c c' : Prop} [Decidable c] [Decidable c'] (hc : c ↔ c') (line : Nat)
    (lexeme : String) (fault : ResolveFault) (h : Mirrors g P act act') :
    Mirrors g P (if c then ResolveM.report line lexeme fault >>= fun _ => act else act)
      (if c' then ResolveM.report line lexeme fault >>= fun _ => act' else act') := by
  by_cases hreport : c
  · rw [if_pos hreport, if_pos (hc.1 hreport)]
    refine (report line lexeme fault).bind fun _ r r' hr => ?_
    obtain ⟨houtcome, hafter, n, hn, hn', -⟩ := h r r' hr
    exact ⟨houtcome, hafter, n, hn, hn', fun _ hfalse => hfalse.elim⟩
  · rw [if_neg hreport, if_neg (hreport ∘ hc.2)]
    exact h

theorem bindingOf (name : String) :
    Mirrors id (fun _ => True) (bindingOf name) (bindingOf name) :=
  fun _ _ hr => ⟨hr.binding_eq name, hr, 0, rfl, rfl, fun _ => trivial⟩

theorem inScope (names : List String) (h : Mirrors g P act act') :
    Mirrors g P (inScope names act) (inScope names act') :=
  fun _ _ hr => (h _ _ (hr.enter names)).inScope

theorem inClass (context : ClassContext) (h : Mirrors g P act act') :
    Mirrors g P (inClass context act) (inClass context act') := by
  intro r r' hr
  have hinner : (r.within context).Alike (r'.within context) := { hr with classContext := rfl }
  obtain ⟨houtcome, hafter, hcount⟩ := h _ _ hinner
  exact ⟨houtcome, { hafter with classContext := hr.classContext }, hcount⟩

theorem inLoop (h : Mirrors g P act act') : Mirrors g P (inLoop act) (inLoop act') := by
  intro r r' hr
  have hinner : r.enterLoop.Alike r'.enterLoop :=
    { hr with loopDepth := congrArg (· + 1) hr.loopDepth }
  obtain ⟨houtcome, hafter, hcount⟩ := h _ _ hinner
  exact ⟨houtcome, { hafter with loopDepth := congrArg (· - 1) hafter.loopDepth }, hcount⟩

theorem initializing (name : String) (h : Mirrors g P act act') :
    Mirrors g P (initializing name act) (initializing name act') := by
  intro r r' hr
  have hinner : (r.awaiting name).Alike (r'.awaiting name) := { hr with pending := rfl }
  obtain ⟨houtcome, hafter, hcount⟩ := h _ _ hinner
  exact ⟨houtcome, { hafter with pending := hr.pending }, hcount⟩

/-! ### Exchanges -/

/-- Two actions that make reports at most may be done in either order. -/
theorem exchange {act₂ : ResolveM β} {P₂ : β → Prop} {g' : α' → β'} {P' : α' → Prop} {act : ResolveM α}
    {k : α → β → ResolveM α'} {k' : β → α → ResolveM β'} (h : Mirrors id P act act)
    (h₂ : Mirrors id P₂ act₂ act₂) (hkeeps : ∀ r : Scoping, r.Keeps (act.after r))
    (hkeeps₂ : ∀ r : Scoping, r.Keeps (act₂.after r))
    (hk : ∀ a b, Mirrors g' (fun c => P a → P₂ b → P' c) (k a b) (k' b a)) :
    Mirrors g' P' (act >>= fun a => act₂ >>= fun b => k a b)
      (act₂ >>= fun b => act >>= fun a => k' b a) := by
  intro r r' hr
  -- Each action starts with reports of the other one, or without them.
  obtain ⟨houtcome, -, n, hn, hn', hP⟩ := h r (act₂.after r') (hr.of_keeps (.refl r) (hkeeps₂ r'))
  obtain ⟨houtcome₂, -, m, hm, hm', hP₂⟩ :=
    h₂ (act.after r) r' (hr.of_keeps (hkeeps r) (.refl r'))
  have hboth : (act₂.after (act.after r)).Alike (act.after (act₂.after r')) :=
    hr.of_keeps ((hkeeps r).trans (hkeeps₂ _)) ((hkeeps₂ r').trans (hkeeps _))
  obtain ⟨houtcome', hafter, l, hl, hl', hP'⟩ :=
    hk (act.outcome r) (act₂.outcome (act.after r)) _ _ hboth
  rw [MirrorsAt]
  simp only [outcome_bind, after_bind, houtcome, houtcome₂, id]
  refine ⟨houtcome', hafter, n + m + l, by omega, by omega, fun hnone => ?_⟩
  exact hP' (by omega) (hP (by omega)) (hP₂ (by omega))

end Mirrors

/-! ## Declarations -/

theorem forall₂_perm_trans {scopes scopes' scopes'' : List (List String)}
    (h : List.Forall₂ List.Perm scopes scopes') (h' : List.Forall₂ List.Perm scopes' scopes'') :
    List.Forall₂ List.Perm scopes scopes'' := by
  induction h generalizing scopes'' with
  | nil => exact h'
  | cons hscope _ ih =>
    cases h' with
    | cons hscope' houter' => exact .cons (hscope.trans hscope') (ih houter')

theorem declareIn_perm {scopes scopes' : List (List String)}
    (h : List.Forall₂ List.Perm scopes scopes') (x : Ident) :
    List.Forall₂ List.Perm (declareIn scopes x) (declareIn scopes' x) := by
  cases h with
  | nil => exact .nil
  | cons hscope houter =>
    simp only [declareIn, hscope.mem_iff]
    split
    · exact .cons hscope houter
    · exact .cons (hscope.cons _) houter

theorem declareIn_exchange {scopes scopes' : List (List String)}
    (h : List.Forall₂ List.Perm scopes scopes') (x y : Ident) :
    List.Forall₂ List.Perm (declareIn (declareIn scopes x) y) (declareIn (declareIn scopes' y) x) ∧
      (redeclaredIn scopes [x, y]).length = (redeclaredIn scopes' [y, x]).length := by
  cases h with
  | nil => exact ⟨.nil, rfl⟩
  | cons hscope houter =>
    rename_i scope scope' outer outer'
    by_cases hx : x.name ∈ scope'
    · by_cases hy : y.name ∈ scope'
      · simp [declareIn, redeclaredIn, hscope.mem_iff, hx, hy, hscope, houter]
      · simp [declareIn, redeclaredIn, hscope.mem_iff, hx, hy, hscope, houter]
    by_cases hy : y.name ∈ scope'
    · simp [declareIn, redeclaredIn, hscope.mem_iff, hx, hy, hscope, houter]
    by_cases hxy : x.name = y.name
    · simp [declareIn, redeclaredIn, hscope.mem_iff, hy, hxy, hscope, houter]
    · have hswap : (y.name :: x.name :: scope).Perm (x.name :: y.name :: scope') :=
        (List.Perm.swap _ _ _).trans ((hscope.cons _).cons _)
      simp [declareIn, redeclaredIn, hscope.mem_iff, hx, hy, hxy, Ne.symm hxy, hswap, houter]


theorem mem_headD_iff {scopes scopes' : List (List String)}
    (h : List.Forall₂ List.Perm scopes scopes') (name : String) :
    name ∈ scopes.headD [] ↔ name ∈ scopes'.headD [] := by
  cases h with
  | nil => rfl
  | cons hscope _ => exact hscope.mem_iff

theorem foldl_declareIn_alike (xs : List Ident) {scopes scopes' : List (List String)}
    (h : List.Forall₂ List.Perm scopes scopes') :
    List.Forall₂ List.Perm (xs.foldl declareIn scopes) (xs.foldl declareIn scopes') ∧
      (redeclaredIn scopes xs).length = (redeclaredIn scopes' xs).length := by
  induction xs generalizing scopes scopes' with
  | nil => exact ⟨h, rfl⟩
  | cons x xs ih =>
    obtain ⟨hscopes, hlength⟩ := ih (declareIn_perm h x)
    refine ⟨hscopes, ?_⟩
    simp only [redeclaredIn, List.length_append, hlength, mem_headD_iff h]

/-- Names may be declared in any order, and as many are declared already. -/
theorem foldl_declareIn_perm {xs xs' : List Ident} (hxs : xs.Perm xs')
    {scopes scopes' : List (List String)} (h : List.Forall₂ List.Perm scopes scopes') :
    List.Forall₂ List.Perm (xs.foldl declareIn scopes) (xs'.foldl declareIn scopes') ∧
      (redeclaredIn scopes xs).length = (redeclaredIn scopes' xs').length := by
  induction hxs generalizing scopes scopes' with
  | nil => exact ⟨h, rfl⟩
  | cons x _ ih =>
    obtain ⟨hscopes, hlength⟩ := ih (declareIn_perm h x)
    refine ⟨hscopes, ?_⟩
    simp only [redeclaredIn, List.length_append, hlength, mem_headD_iff h]
  | swap x y zs =>
    obtain ⟨hfirst, hlength⟩ := declareIn_exchange h y x
    obtain ⟨hscopes, hlength'⟩ := foldl_declareIn_alike zs hfirst
    refine ⟨hscopes, ?_⟩
    change (redeclaredIn scopes ([y, x] ++ zs)).length = (redeclaredIn scopes' ([x, y] ++ zs)).length
    rw [redeclaredIn_append, redeclaredIn_append, List.length_append, List.length_append, hlength]
    exact congrArg _ hlength'
  | trans _ _ ih ih' =>
    obtain ⟨hscopes, hlength⟩ := ih (List.forall₂_same.2 fun scope _ => List.Perm.refl scope)
    obtain ⟨hscopes', hlength'⟩ := ih' h
    exact ⟨forall₂_perm_trans hscopes hscopes', hlength.trans hlength'⟩

theorem nodup_of_redeclaredIn {scope : List String} {outer : List (List String)} {xs : List Ident}
    (h : redeclaredIn (scope :: outer) xs = []) :
    (xs.map Ident.name).Nodup ∧ ∀ x ∈ xs, x.name ∉ scope := by
  induction xs generalizing scope with
  | nil => simp
  | cons x xs ih =>
    rw [redeclaredIn, List.append_eq_nil_iff] at h
    have hx : x.name ∉ scope := by simpa using h.1
    rw [declareIn, if_neg hx] at h
    obtain ⟨hnodup, hnew⟩ := ih h.2
    simp only [List.mem_cons, not_or] at hnew
    simp only [List.map_cons, List.nodup_cons, List.mem_map, List.forall_mem_cons]
    refine ⟨⟨?_, hnodup⟩, hx, fun y hy => (hnew y hy).2⟩
    rintro ⟨y, hy, hname⟩
    exact (hnew y hy).1 hname

theorem Mirrors.declareAll {xs xs' : List Ident} (hxs : xs.Perm xs') :
    Mirrors id (fun _ => True) (declareAll xs) (declareAll xs') := by
  intro r r' hr
  obtain ⟨hscopes, hlength⟩ := foldl_declareIn_perm hxs hr.scopes
  rw [MirrorsAt, declareAll_eq, declareAll_eq]
  refine ⟨rfl, { hr with scopes := hscopes }, (redeclaredIn r.scopes xs).length, ?_, ?_, by simp⟩
  · exact List.length_append
  · exact hlength ▸ List.length_append

theorem Mirrors.declare (x : Ident) : Mirrors id (fun _ => True) (declare x) (declare x) :=
  Mirrors.declareAll (.refl [x])

theorem after_hoisting (params : List Ident) (body : List Stmt) (r : Scoping) :
    (declareFunctions body).after ((ResolveM.declareAll params).after r) =
      (ResolveM.declareAll (params ++ body.filterMap Stmt.functionName?)).after r := by
  rw [declareFunctions_eq, declareAll_eq, declareAll_eq, declareAll_eq]
  simp [redeclaredIn_append]

theorem functionNames_eq (body : List Stmt) :
    functionNames body = (body.filterMap Stmt.functionName?).map Ident.name := by
  fun_induction functionNames body with
  | case1 => rfl
  | case2 decl rest ih =>
    rw [ih]
    cases hname : decl.name with
    | none => simp [Stmt.functionName?, hname]
    | some name => simp [Stmt.functionName?, hname]
  | case3 s rest hs ih =>
    have hnone : s.functionName? = none := by
      cases s with
      | function decl => exact absurd rfl (hs decl)
      | _ => rfl
    rw [ih, List.filterMap_cons_none hnone]

/-- Names that are declared without a report are different. -/
theorem nodup_of_declareAll {xs : List Ident} {r : Scoping} (hlocal : r.scopes ≠ [])
    (h : ((ResolveM.declareAll xs).after r).errors.length = r.errors.length) :
    (xs.map Ident.name).Nodup := by
  rw [declareAll_eq, List.length_append] at h
  have hnone : redeclaredIn r.scopes xs = [] := List.eq_nil_of_length_eq_zero (by omega)
  obtain ⟨scope, outer, hscopes⟩ := List.exists_cons_of_ne_nil hlocal
  rw [hscopes] at hnone
  exact (nodup_of_redeclaredIn hnone).1

/-- The functions of a body are declared after the parameters, and before all else is done. -/
theorem MirrorsAt.hoisting {g : α → β} {P : α → Prop} {act : ResolveM α} {act' : ResolveM β}
    (params : List Ident) {body body' : List Stmt}
    (hbody : (body.filterMap Stmt.functionName?).Perm (body'.filterMap Stmt.functionName?))
    (h : Mirrors g (fun a => (functionNames body).Nodup → P a) act act') {r r' : Scoping}
    (hr : r.Alike r') (hlocal : r.scopes ≠ []) :
    MirrorsAt g P (do ResolveM.declareAll params; declareFunctions body; act)
      (do ResolveM.declareAll params; declareFunctions body'; act') r r' := by
  obtain ⟨-, hafter, n, hn, hn', -⟩ := Mirrors.declareAll (hbody.append_left params) r r' hr
  obtain ⟨houtcome, hafter', m, hm, hm', hP⟩ := h _ _ hafter
  simp only [MirrorsAt, outcome_bind, after_bind, after_hoisting]
  refine ⟨houtcome, hafter', n + m, by omega, by omega, fun hnone => hP (by omega) ?_⟩
  have hnodup := nodup_of_declareAll hlocal (hn.trans (by omega))
  rw [List.map_append] at hnodup
  rw [functionNames_eq]
  exact (List.nodup_append.1 hnodup).2.1

end ResolveM

/-! ## The walk -/

open ResolveM

section Kept
variable (way : Way)

theorem Stmt.functionName?_exchange (s : Stmt) :
    (s.exchange way).functionName? = s.functionName? := by
  cases s with
  | function decl => exact decl.name_exchange way
  | var name value | ret line value => cases value <;> rfl
  | cond condition thenBranch elseBranch => cases elseBranch <;> rfl
  | _ => rfl

theorem Expr.isReferenceTo_exchange (name : String) (e : Expr) :
    (e.exchange way).isReferenceTo name = e.isReferenceTo name := by
  induction e using Expr.isReferenceTo.induct with
  | case1 n slot => rfl
  | case2 inner ih => exact ih
  | case3 e hvariable hgroup => cases e <;> simp_all [exchange, isReferenceTo]

theorem exchangeFirst_perm (ss : List Stmt) : ss.Perm (exchangeFirst ss) := by
  fun_cases exchangeFirst ss with
  | case1 s t rest h => exact .swap t s rest
  | case2 s t rest h => exact .refl _
  | case3 => exact .refl _

theorem functionName?_exchangeInBody (body : List Stmt) :
    (body.filterMap Stmt.functionName?).Perm
      ((exchangeInBody way body).filterMap Stmt.functionName?) := by
  induction body generalizing way with
  | nil => exact .nil
  | cons s rest ih =>
    by_cases hway : way = [0]
    · rw [exchangeInBody, if_pos hway]
      exact (exchangeFirst_perm _).filterMap _
    · rw [exchangeInBody_cons hway, List.filterMap_cons, List.filterMap_cons,
        s.functionName?_exchange]
      split
      · exact ih way.next
      · exact (ih way.next).cons _

end Kept

/-- The walk over the node with two functions exchanged does what the walk over the node does. What
it makes of a node without reports is tidy, and declares the same functions. -/
def Node.Commutes (way : Way) : Node → Prop
  | .expr e => Mirrors (Expr.exchange way) (fun e' => Tidy (.expr e')) e.resolve
      (e.exchange way).resolve
  | .arguments es => Mirrors (exchangeInArguments way) (fun es' => Tidy (.arguments es'))
      (resolveArguments es) (resolveArguments (exchangeInArguments way es))
  | .stmt s => Mirrors (Stmt.exchange way)
      (fun s' => s'.isFunction = s.isFunction ∧ Tidy (.stmt s')) s.resolve
      (s.exchange way).resolve
  | .body ss => Mirrors (exchangeInBody way)
      (fun ss' => functionNames ss' = functionNames ss ∧
        ((functionNames ss).Nodup → Tidy (.body ss')))
      (resolveBody ss) (resolveBody (exchangeInBody way ss))
  | .function decl => Mirrors (FunDecl.exchange way)
      (fun decl' => decl'.name = decl.name ∧ Tidy (.function decl')) decl.resolve
      (decl.exchange way).resolve
  | .methods decls => Mirrors (exchangeInMethods way) (fun decls' => Tidy (.methods decls'))
      (resolveMethods decls) (resolveMethods (exchangeInMethods way decls))
  | .top ss => Mirrors (Program.exchange way) (fun ss' => Tidy (.top ss'))
      (resolveTop ss) (resolveTop (Program.exchange way ss))

section Walk
variable {way : Way}

theorem Expr.commutes {e : Expr} (h : ∀ part ∈ e.parts, ∀ way, part.Commutes way) :
    (Node.expr e).Commutes way := by
  cases e with
  | literal value line => exact .pure rfl (.leaf trivial rfl)
  | group inner =>
    have hinner := h _ (.head _) way
    exact hinner.bind fun _ => .pure rfl fun hi => .one hi trivial rfl
  | «variable» name slot =>
    exact (Mirrors.bindingOf name.name).bind fun _ => .pure rfl fun _ => .leaf trivial rfl
  | assign name value slot =>
    have hvalue := h _ (.head _) way
    exact hvalue.bind fun _ => (Mirrors.bindingOf name.name).bind fun _ =>
      .pure rfl fun _ hv => .one hv trivial rfl
  | unary op operand line =>
    have hoperand := h _ (.head _) way
    exact hoperand.bind fun _ => .pure rfl fun ho => .one ho trivial rfl
  | binary op left right line | logical op left right line =>
    have hleft := h _ (.head _) (way.into 0)
    have hright := h _ (.tail _ (.head _)) (way.into 1)
    exact hleft.bind fun _ => hright.bind fun _ =>
      .pure rfl fun hr hl => .two hl hr trivial rfl
  | call callee arguments line =>
    have hcallee := h _ (.head _) (way.into 0)
    have harguments := h _ (.tail _ (.head _)) way.next
    exact hcallee.bind fun _ => harguments.bind fun _ =>
      .pure rfl fun ha hc => .two hc ha trivial rfl
  | get object name =>
    have hobject := h _ (.head _) way
    exact hobject.bind fun _ => .pure rfl fun ho => .one ho trivial rfl
  | set object name value =>
    have hobject := h _ (.head _) (way.into 0)
    have hvalue := h _ (.tail _ (.head _)) (way.into 1)
    exact hvalue.bind fun _ => hobject.bind fun _ =>
      .pure rfl fun ho hv => .two ho hv trivial rfl
  | this line slot =>
    refine Mirrors.get_bind fun r r' hr => ?_
    rw [hr.classContext]
    cases r.classContext with
    | outside => exact (Mirrors.report line "this" _).bind fun _ => .pure rfl False.elim
    | plain | derived =>
      exact (Mirrors.bindingOf "this").bind fun _ => .pure rfl fun _ => .leaf trivial rfl
  | super line method slot =>
    refine Mirrors.get_bind fun r r' hr => ?_
    rw [hr.classContext]
    cases r.classContext with
    | outside | plain => exact (Mirrors.report line "super" _).bind fun _ => .pure rfl False.elim
    | derived =>
      exact (Mirrors.bindingOf "super").bind fun _ => .pure rfl fun _ => .leaf trivial rfl
  | lambda decl =>
    have hdecl := h _ (.head _) way
    exact hdecl.bind fun _ => .pure rfl fun hd => .one hd.2 trivial rfl

theorem Stmt.commutes {s : Stmt} (h : ∀ part ∈ s.parts, ∀ way, part.Commutes way) :
    (Node.stmt s).Commutes way := by
  cases s with
  | expression value | print value =>
    have hvalue := h _ (.head _) way
    exact hvalue.bind fun _ => .pure rfl fun hv => ⟨rfl, .one hv trivial rfl⟩
  | var name value =>
    cases value with
    | none => exact (Mirrors.declare name).bind fun _ => .pure rfl fun _ => ⟨rfl, .leaf trivial rfl⟩
    | some value =>
      have hvalue := h _ (.head _) way
      refine (Mirrors.declare name).bind fun _ => Mirrors.get_bind fun r r' hr => ?_
      rw [hr.isEmpty_eq, value.isReferenceTo_exchange]
      exact .report_if .rfl name.line name.name _ ((hvalue.initializing name.name).bind fun _ =>
        .pure rfl fun hv _ => ⟨rfl, .one hv trivial rfl⟩)
  | block body =>
    have hbody := h _ (.head _) way
    have hblock : Mirrors (Stmt.exchange way)
        (fun s' => (functionNames body).Nodup → s'.isFunction = false ∧ Tidy (.stmt s'))
        (do return .block (← resolveBody body))
        (do return .block (← resolveBody (exchangeInBody way body))) :=
      hbody.bind fun _ => .pure rfl fun hb hnodup => ⟨rfl, .one (hb.2 hnodup) trivial rfl⟩
    exact fun r r' hr => .inScope (.hoisting [] (functionName?_exchangeInBody way body) hblock
      (hr.enter []) (List.cons_ne_nil _ _))
  | cond condition thenBranch elseBranch =>
    have hcondition := h (.expr condition) (by cases elseBranch <;> exact .head _) (way.into 0)
    have hthen := h (.stmt thenBranch) (by cases elseBranch <;> exact .tail _ (.head _))
      (way.into 1)
    cases elseBranch with
    | none =>
      exact hcondition.bind fun _ => hthen.bind fun _ =>
        .pure rfl fun ht hc => ⟨rfl, .two hc ht.2 trivial rfl⟩
    | some elseBranch =>
      have helse := h _ (.tail _ (.tail _ (.head _))) (way.into 2)
      exact hcondition.bind fun _ => hthen.bind fun _ => helse.bind fun _ =>
        .pure rfl fun he ht hc => ⟨rfl, .three hc ht.2 he.2 trivial rfl⟩
  | loop condition body =>
    have hcondition := h _ (.head _) (way.into 0)
    have hbody := h _ (.tail _ (.head _)) (way.into 1)
    exact hcondition.bind fun _ => hbody.inLoop.bind fun _ =>
      .pure rfl fun hb hc => ⟨rfl, .two hc hb.2 trivial rfl⟩
  | function decl =>
    have hdecl := h _ (.head _) way
    change Mirrors _ _ (ResolveM.declareAll decl.name.toList >>= _)
      (ResolveM.declareAll (decl.exchange way).name.toList >>= _)
    rw [decl.name_exchange]
    exact (Mirrors.declareAll (.refl _)).bind fun _ => hdecl.bind fun _ =>
      .pure rfl fun hd _ => ⟨rfl, .one hd.2 trivial rfl⟩
  | ret line value =>
    cases value with
    | none =>
      refine .get_bind fun r r' hr => ?_
      rw [hr.inFunction]
      exact .report_if .rfl line "return" _ (.pure rfl ⟨rfl, .leaf trivial rfl⟩)
    | some value =>
      have hvalue := h _ (.head _) way
      refine .get_bind fun r r' hr => ?_
      rw [hr.inFunction]
      exact .report_if .rfl line "return" _
        (hvalue.bind fun _ => .pure rfl fun hv => ⟨rfl, .one hv trivial rfl⟩)
  | brk line =>
    refine .get_bind fun r r' hr => ?_
    rw [hr.loopDepth]
    exact .report_if .rfl line "break" _ (.pure rfl ⟨rfl, .leaf trivial rfl⟩)
  | classDecl name superclass methods =>
    have hmethods := h (.methods methods) (.head _) way
    rcases superclass with _ | ⟨parent, slot⟩
    · exact (Mirrors.declare name).bind fun _ =>
        (Mirrors.inClass .plain (hmethods.inScope ["this"])).bind fun _ =>
          .pure rfl fun hm _ => ⟨rfl, .one hm trivial rfl⟩
    · have hclass := Mirrors.inClass .derived ((hmethods.inScope ["this"]).inScope ["super"])
      exact (Mirrors.declare name).bind fun _ => .report_if .rfl parent.line parent.name _
        ((Mirrors.bindingOf parent.name).bind fun _ => hclass.bind fun _ =>
          .pure rfl fun hm _ _ => ⟨rfl, .one hm trivial rfl⟩)

theorem FunDecl.commutes {decl : FunDecl} (h : (Node.body decl.body).Commutes way) :
    (Node.function decl).Commutes way := by
  obtain ⟨name, params, body, line⟩ := decl
  have hcode : Mirrors (FunDecl.exchange way)
      (fun decl' => (functionNames body).Nodup → decl'.name = name ∧ Tidy (.function decl'))
      (do return ⟨name, params, ← resolveBody body, line⟩)
      (do return ⟨name, params, ← resolveBody (exchangeInBody way body), line⟩) :=
    h.bind fun _ => .pure rfl fun hb hnodup => ⟨rfl, .one (hb.2 hnodup) trivial rfl⟩
  exact fun r r' hr => .inFunction hr (.hoisting params (functionName?_exchangeInBody way body)
    hcode hr.enterFunction (List.cons_ne_nil _ _))

/-- What comes of a body is tidy if its first statement and the others are. -/
theorem body_cons {decl decl' : FunDecl} {rest rest' : List Stmt}
    (hdecl : decl'.name = decl.name ∧ Tidy (.function decl'))
    (hrest : functionNames rest' = functionNames rest ∧
      ((functionNames rest).Nodup → Tidy (.body rest'))) :
    functionNames (.function decl' :: rest') = functionNames (.function decl :: rest) ∧
      ((functionNames (.function decl :: rest)).Nodup → Tidy (.body (.function decl' :: rest'))) := by
  have hnames : functionNames (.function decl' :: rest') = functionNames (.function decl :: rest) := by
    simp only [functionNames, hdecl.1, hrest.1]
  refine ⟨hnames, fun hnodup => ?_⟩
  have hlater : (functionNames rest).Nodup := (List.nodup_append.1 hnodup).2.1
  exact .two hdecl.2 (hrest.2 hlater) (hnames ▸ hnodup : (functionNames _).Nodup) rfl

theorem body_commutes {ss : List Stmt} (hway : way ≠ [0])
    (h : ∀ part ∈ (Node.body ss).parts, ∀ way, part.Commutes way) :
    (Node.body ss).Commutes way := by
  rcases ss with _ | ⟨s, rest⟩
  · exact Mirrors.pure rfl ⟨rfl, fun _ => .leaf List.nodup_nil rfl⟩
  change Mirrors _ _ (resolveBody (s :: rest)) (resolveBody (exchangeInBody way (s :: rest)))
  rw [exchangeInBody_cons hway]
  cases hs : s.isFunction with
  | true =>
    cases s with
    | function decl =>
      have hdecl := h _ (.head _) (way.into 0)
      have hrest := h _ (.tail _ (.head _)) way.next
      exact hdecl.bind fun _ => hrest.bind fun _ =>
        .pure (exchangeInBody_cons hway (.function _) _).symm fun hr hd => body_cons hd hr
    | _ => cases hs
  | false =>
    rw [Node.parts_body_cons hs] at h
    have hstmt := h _ (.head _) (way.into 0)
    have hrest := h _ (.tail _ (.head _)) way.next
    rw [resolveBody_cons hs, resolveBody_cons (by rw [s.isFunction_exchange, hs])]
    refine hstmt.bind fun s' => hrest.bind fun rest' =>
      .pure (exchangeInBody_cons hway _ _).symm fun hr hs' => ?_
    have hkind : s'.isFunction = false := hs'.1.trans hs
    rw [functionNames_cons hs, functionNames_cons hkind]
    refine ⟨hr.1, fun hnodup => .two hs'.2 (hr.2 hnodup) ?_ (Node.parts_body_cons hkind rest')⟩
    change (functionNames (s' :: rest')).Nodup
    rwa [functionNames_cons hkind, hr.1]

/-- The first two functions of a body are exchanged. -/
theorem body_commutes_first {f g : FunDecl} {rest : List Stmt}
    (hf : (Node.function f).Commutes []) (hg : (Node.function g).Commutes [])
    (hrest : (Node.body rest).Commutes []) :
    (Node.body (.function f :: .function g :: rest)).Commutes [0] := by
  have hsame : FunDecl.exchange [] = id := funext FunDecl.exchange_nil
  have hsameBody : exchangeInBody [] = id := funext exchangeInBody_nil
  rw [Node.Commutes, hsame] at hf hg
  rw [Node.Commutes, hsameBody] at hrest
  change Mirrors _ _
    (do let f' ← f.resolve; let g' ← g.resolve
        return .function f' :: .function g' :: (← resolveBody rest))
    (do let g' ← g.resolve; let f' ← f.resolve
        return .function g' :: .function f' :: (← resolveBody rest))
  refine Mirrors.exchange hf hg (Node.change (.function f)) (Node.change (.function g)) fun f' g' =>
    hrest.bind fun rest' => .pure rfl ?_
  intro hrest' hf' hg'
  have hlater := body_cons hg' hrest'
  exact body_cons hf' hlater

theorem map_isFunction_resolveBody (ss : List Stmt) (r : Scoping) :
    ((resolveBody ss).outcome r).map Stmt.isFunction = ss.map Stmt.isFunction := by
  induction ss generalizing r with
  | nil => rfl
  | cons s rest ih =>
    cases hs : s.isFunction with
    | true =>
      cases s with
      | function decl => exact congrArg (true :: ·) (ih _)
      | _ => cases hs
    | false =>
      rw [resolveBody_cons hs]
      exact congrArg₂ List.cons (s.isFunction_resolve r) (ih _)

/-- A body that does not start with two functions is not changed. -/
theorem body_commutes_unchanged {ss : List Stmt}
    (hss : ¬ ∃ kinds, ss.map Stmt.isFunction = true :: true :: kinds)
    (h : ∀ part ∈ (Node.body ss).parts, ∀ way, part.Commutes way) :
    (Node.body ss).Commutes [0] := by
  intro r r' hr
  have hsame : (Node.body ss).Commutes [] := body_commutes (List.cons_ne_nil _ _).symm h
  obtain ⟨houtcome, hrest⟩ := hsame r r' hr
  have hss' : exchangeInBody [0] ((resolveBody ss).outcome r) = (resolveBody ss).outcome r := by
    apply exchangeInBody_first
    rwa [map_isFunction_resolveBody]
  rw [exchangeInBody_nil, exchangeInBody_nil] at houtcome
  rw [exchangeInBody_nil] at hrest
  rw [MirrorsAt, exchangeInBody_first hss, hss']
  exact ⟨houtcome, hrest⟩

theorem Node.commutes (node : Node) (way : Way) : node.Commutes way := by
  -- The exchange of two functions is about the parts of the rest of a body, too.
  suffices h : (∀ way, node.Commutes way) ∧ ∀ part ∈ node.parts, ∀ way, part.Commutes way from
    h.1 way
  induction node using parts_induction with
  | h node ih =>
    have hparts : ∀ part ∈ node.parts, ∀ way, part.Commutes way := fun part hpart =>
      (ih part hpart).1
    refine ⟨fun way => ?_, hparts⟩
    cases node with
    | expr e => exact Expr.commutes hparts
    | stmt s => exact Stmt.commutes hparts
    | arguments es =>
      cases es with
      | nil => exact Mirrors.pure rfl (.leaf trivial rfl)
      | cons e es =>
        have he := hparts _ (.head _) (way.into 0)
        have hes := hparts _ (.tail _ (.head _)) way.next
        exact he.bind fun _ => hes.bind fun _ => .pure rfl fun hes he => .two he hes trivial rfl
    | function decl => exact FunDecl.commutes (hparts _ (.head _) way)
    | methods decls =>
      cases decls with
      | nil => exact Mirrors.pure rfl (.leaf trivial rfl)
      | cons decl decls =>
        have hdecl := hparts _ (.head _) (way.into 0)
        have hdecls := hparts _ (.tail _ (.head _)) way.next
        exact hdecl.bind fun _ => hdecls.bind fun _ =>
          .pure rfl fun hds hd => .two hd.2 hds trivial rfl
    | top ss =>
      cases ss with
      | nil => exact Mirrors.pure rfl (.leaf trivial rfl)
      | cons s rest =>
        have hs := hparts _ (.head _) (way.into 0)
        have hrest := hparts _ (.tail _ (.head _)) way.next
        exact hs.bind fun _ => hrest.bind fun _ => .pure rfl fun hr hs => .two hs.2 hr trivial rfl
    | body ss =>
      by_cases hway : way = [0]
      · subst hway
        by_cases hfirst : ∃ kinds, ss.map Stmt.isFunction = true :: true :: kinds
        · obtain ⟨f, g, rest, rfl⟩ := exists_functions hfirst
          have hlater := (ih _ (.tail _ (.head _))).2
          exact body_commutes_first (hparts _ (.head _) []) (hlater _ (.head _) [])
            (hlater _ (.tail _ (.head _)) [])
        · exact body_commutes_unchanged hfirst hparts
      · exact body_commutes hway hparts

/-- The resolver accepts a program with two functions exchanged, and fills the same slots. No two
functions of a body in it have one name. -/
theorem Program.resolved_exchange {p q : Program} (h : p.resolved = .ok q) (way : Way) :
    (p.exchange way).resolved = .ok (q.exchange way) ∧ Tidy (.top q) := by
  obtain ⟨hquiet, rfl⟩ := resolved_eq_ok h
  obtain ⟨houtcome, -, n, hn, hn', htidy⟩ := Node.commutes (.top p) way .fresh .fresh (.refl _)
  have hnone : n = 0 := by
    rw [hquiet] at hn
    exact (Nat.zero_add n).symm.trans hn.symm
  refine ⟨?_, htidy hnone⟩
  rw [← houtcome]
  apply resolved_of_quiet
  exact List.eq_nil_of_length_eq_zero (hn'.trans (by rw [hnone]; rfl))

end Walk

end Lox
