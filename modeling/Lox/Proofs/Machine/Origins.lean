import Lox.Proofs.Machine.Preservation
import Lox.Proofs.Machine.Tracing

/-!
# What the scopes in force were made for

A machine that agrees with the resolver gives values to plain names only, because a program that
was parsed has no others, so that it is traced by the causes of its scopes. Each cause is what the
resolver made of a node that opens a scope, inside the scopes that are open around that node.
Hence the scopes in force can be read off the run: one by one, they were made for those that are
open where the machine is at work, and so were the scopes that its frames go back to.
-/

set_option autoImplicit false

namespace Lox

open Scoping ResolveM Machine

/-! ## Names of resolved bodies -/

theorem functionNames_resolveBody (body : List Stmt) (r : Scoping) :
    functionNames ((resolveBody body).outcome r) = functionNames body := by
  induction body generalizing r with
  | nil => rfl
  | cons s rest ih =>
    by_cases hs : s.isFunction = true
    · cases s with
      | function decl =>
        change (decl.resolve.outcome r).name.toList.map Ident.name ++
          functionNames ((resolveBody rest).outcome (decl.resolve.after r)) = _
        rw [FunDecl.name_resolve, ih]
        rfl
      | _ => cases hs
    · replace hs : s.isFunction = false := eq_false_of_ne_true hs
      rw [resolveBody_cons hs, functionNames_cons hs]
      change functionNames (s.resolve.outcome r ::
        (resolveBody rest).outcome (s.resolve.after r)) = _
      rw [functionNames_cons (by rw [Stmt.isFunction_resolve, hs]), ih]

theorem Regular.plain_own {s : Stmt} (h : Regular (.stmt s)) : ∀ x ∈ s.own, Plain x := by
  intro x hx
  cases h with
  | var hname | varWith hname | classDecl hname | subclassDecl _ hname =>
    obtain rfl := List.mem_singleton.1 hx
    exact hname
  | functionDecl hname =>
    obtain ⟨name, hmem, rfl⟩ := List.mem_map.1 hx
    exact hname name (Option.mem_toList.1 hmem)
  | _ => cases hx

/-- A function that was parsed binds plain names only. -/
theorem KnownIn.plain_call {C : Corpus} {os : List ScopeOrigin} {r : Scoping} {decl : FunDecl}
    (h : KnownIn C ⟨os, r, .function decl⟩) {closure : Closure}
    (hdecl : closure.decl = decl.resolve.outcome r) :
    ∀ x ∈ (Cause.call closure).names, Plain x := by
  obtain ⟨name, params, body, line⟩ := decl
  obtain ⟨hparams, hbody⟩ : (∀ param ∈ params, Plain param.name) ∧ Regular (.body body) := by
    cases h.proper.regular with
    | code _ _ hparams hbody => exact ⟨hparams, hbody⟩
  obtain ⟨-, -, houtcome⟩ := function_quiet hbody h.proper.quiet
  rw [houtcome] at hdecl
  intro x hx
  rw [Cause.names, hdecl, functionNames_resolveBody] at hx
  rcases List.mem_append.1 hx with hx | hx
  · obtain ⟨param, hparam, rfl⟩ := List.mem_map.1 hx
    exact hparams param hparam
  · exact (Site.Proper.plain_names hbody).1 x hx

namespace Machine

variable {C : Corpus} {shapes : Shapes} {w : World}

theorem plain_madeByCall {callee : Value} {arguments : List Value}
    (hcallee : ValueFits C shapes callee) :
    ∀ cause ∈ madeByCall callee arguments w, ∀ x ∈ cause.names, Plain x := by
  intro cause hcause
  unfold madeByCall at hcause
  split at hcause
  · cases callee with
    | function id closure | method id closure =>
      obtain rfl := List.mem_singleton.1 hcause
      obtain ⟨os, r, decl, hknown, hdecl, -⟩ := hcallee
      exact hknown.plain_call hdecl
    | classRef cls =>
      dsimp only at hcause
      split at hcause
      · cases hcause
      · rename_i initializer hinitializer
        obtain ⟨os, r, decl, hknown, hdecl, -⟩ := hcallee _ _ hinitializer
        rcases List.mem_cons.1 hcause with rfl | hcause
        · intro x hx
          cases hx
        · obtain rfl := List.mem_singleton.1 hcause
          exact hknown.plain_call hdecl
    | _ => cases hcause
  · cases hcause

/-- Reading a property makes no scope but that of a receiver. -/
theorem eq_bind_of_mem_madeByGet {id : ObjectId} {cls : Class} {name : Ident} {cause : Cause}
    (h : cause ∈ madeByGet id cls name w) : ∃ method, cause = .bind method (.object id cls) := by
  unfold madeByGet at h
  split at h
  · cases h
  · obtain ⟨method, -, rfl⟩ := List.mem_map.1 h
    exact ⟨method, rfl⟩

theorem eq_bind_of_mem_madeBySuper {line : Nat} {method : Ident} {slot : Slot} {cause : Cause}
    (h : cause ∈ madeBySuper line method slot w) :
    ∃ cls found receiver, superParts line slot w = .ok (cls, receiver) ∧
      cause = .bind found receiver := by
  unfold madeBySuper at h
  split at h
  · cases h
  · rename_i cls receiver hparts
    obtain ⟨found, -, rfl⟩ := List.mem_map.1 h
    exact ⟨cls, found, receiver, hparts, rfl⟩

end Machine

namespace Agrees

variable {C : Corpus} {shapes : Shapes} {m : Machine}

theorem plain_assigned (h : Agrees C shapes m) : ∀ x ∈ m.assigned, Plain x := by
  intro x hx
  cases h with
  | @execute os r s frames w b c hat hknown hallows hwaits =>
    have hown : x ∈ (s.resolve.outcome r).own := hx
    rw [Stmt.own_resolve] at hown
    exact hknown.proper.regular.plain_own x hown
  | value hat hv hwaits =>
    cases hwaits with
    | assign hknown =>
      obtain rfl := List.mem_singleton.1 hx
      cases hknown.proper.regular with
      | assign _ hname _ => exact hname
    | define hknown | inherit _ hknown =>
      exact hknown.proper.regular.plain_own x hx
    | _ => cases hx
  | evaluate | completed | failed => cases hx

theorem plain_made (h : Agrees C shapes m) : ∀ cause ∈ m.made, ∀ x ∈ cause.names, Plain x := by
  intro cause hcause x hx
  unfold made at hcause
  split at hcause
  · obtain ⟨_, _, _, -, rfl⟩ := eq_bind_of_mem_madeBySuper hcause
    cases hx
  · rename_i body frames w
    obtain rfl := List.mem_singleton.1 hcause
    generalize hs : Stmt.block body = s' at h
    cases h with
    | @execute os r s _ _ _ _ _ hknown =>
      obtain ⟨body₀, rfl⟩ := Stmt.resolve_eq_block hs.symm
      have hbody : Regular (.body body₀) := by
        cases hknown.proper.regular with
        | block hbody => exact hbody
      rw [Stmt.block.inj hs, Cause.names] at hx
      exact (Site.Proper.plain_names hbody).1 x (functionNames_resolveBody body₀ _ ▸ hx)
  · cases h with
    | value _ hv _ => exact plain_madeByCall hv cause hcause x hx
  · cases h with
    | value _ _ hwaits =>
      generalize ([] : List Expr) = after at hwaits
      cases hwaits with
      | argument _ hcallee => exact plain_madeByCall hcallee cause hcause x hx
  · obtain ⟨_, rfl⟩ := eq_bind_of_mem_madeByGet hcause
    cases hx
  · obtain rfl := List.mem_singleton.1 hcause
    cases hx
  · cases hcause

/-- What the resolver expects of a machine makes its next step an orderly one. -/
theorem orderly (h : Agrees C shapes m) : m.Orderly := by
  refine ⟨h.plain_assigned, h.plain_made, ?_⟩
  intro v env frames hfocus hframes
  cases h with
  | value hat hv hwaits =>
    subst hframes
    cases hwaits
  | _ => cases hfocus

end Agrees

/-! ## The scopes that a step makes -/

/-- If the store has no more scopes than before, none has been made. -/
theorem Advances.quiet {C : Corpus} {shapes : Shapes} {σ : Store} {m : Machine}
    (h : Advances C shapes σ m) (hsize : m.world.store.scopes.size = shapes.length + 1) :
    AdvancesBy C shapes σ [] m := by
  obtain ⟨shapes', hextends, hagrees⟩ := h
  have hlength : shapes.length = shapes'.length := by
    rw [hagrees.ready.typed.size] at hsize
    exact (Nat.succ.inj hsize).symm
  obtain rfl := hextends.shapes.eq_of_length hlength
  exact .quiet hextends hagrees

/-- Each scope that a step makes is made for an origin, inside scopes that were made for those
around it. -/
theorem Agrees.advancesBy_made {C : Corpus} {shapes : Shapes} {causes : Causes} {m : Machine}
    (h : Agrees C shapes m) (htraced : Traced causes m) :
    AdvancesBy C shapes m.world.store m.made m.step := by
  by_cases hmade : m.made = []
  · have hsize := (htraced.step h.orderly).follows.size
    rw [hmade, List.append_nil, ← htraced.follows.size, h.ready.typed.size] at hsize
    rw [hmade]
    exact (advances_step h).quiet hsize
  · unfold made at hmade
    split at hmade
    · rename_i line method slot frames w
      generalize hfocus : Focus.evaluate (.super line method slot) = focus at h
      cases h with
      | evaluate hat hknown hwaits =>
        have houtcome := (Focus.evaluate.inj hfocus).symm
        obtain ⟨d, rfl, hsuper, hthis⟩ := hknown.of_super houtcome
        rw [houtcome]
        exact advances_evaluateSuper line method hat hsuper hthis hwaits
      | _ => cases hfocus
    · rename_i body frames w
      generalize hfocus : Focus.execute (.block body) = focus at h
      cases h with
      | execute hat hknown hallows hwaits =>
        have houtcome := (Focus.execute.inj hfocus).symm
        obtain ⟨body₀, rfl⟩ := Stmt.resolve_eq_block houtcome
        obtain ⟨body', houtcome', hadvances⟩ := advances_block hat hknown hallows hwaits
        rw [houtcome']
        exact hadvances
      | _ => cases hfocus
    · cases h with
      | value hat hv hwaits =>
        generalize hnone : ([] : List Expr) = arguments at hwaits
        cases hwaits with
        | callee line hknown hwaits =>
          rw [← hnone]
          refine advances_call hat hv ?_ hwaits
          intro u hu
          cases hu
    · cases h with
      | value hat hv hwaits =>
        generalize hnone : ([] : List Expr) = after at hwaits
        cases hwaits with
        | argument line hcallee hbefore hknown hwaits =>
          rw [← hnone]
          refine advances_call hat hcallee ?_ hwaits
          intro u hu
          exact List.forall_mem_cons.2 ⟨hv, hbefore⟩ u (List.mem_reverse.1 hu)
    · cases h with
      | value hat hv hwaits =>
        cases hwaits with
        | get name hwaits => exact advances_getProperty hat hv hwaits
    · cases h with
      | value hat hv hwaits =>
        cases hwaits with
        | inherit line hknown hwaits => exact advances_inherit hat hv hknown hwaits
    · exact absurd rfl hmade

/-! ## Scopes and what they were made for -/

/-- Each scope was made inside those that follow it. -/
inductive Chained (causes : Causes) : Env → Prop where
  | top : Chained causes World.topEnv
  | scope {id : ScopeId} {cause : Cause} :
      causes.cause? id = some cause → Chained causes cause.outer → Chained causes (id :: cause.outer)

/-- The scopes that code runs in are nested as they were made. -/
theorem Within.chained {causes : Causes} {σ : Store} {a : Option Activation} {env : Env}
    (hstore : σ.Follows causes) (h : Within causes a env) : Chained causes env := by
  -- A method leads to the scopes of its class, which are not part of the derivation.
  induction hlength : env.length using Nat.strong_induction_on generalizing a env with
  | _ n ih =>
    subst hlength
    cases h with
    | top => exact .top
    | block houter hid => exact .scope hid (ih _ (Nat.lt_succ_self _) houter rfl)
    | function hclosure hid => exact .scope hid (ih _ (Nat.lt_succ_self _) hclosure rfl)
    | @method method receiver id scope hbind hid =>
      have hmethod : Chained causes method.env := by
        have hscopes := (hstore.method hbind).scopes
        have hshorter : ∀ env a, env.length ≤ method.env.length → Within causes a env →
            Chained causes env :=
          fun env a hle hwithin => ih _ (by simp only [List.length_cons]; omega) hwithin rfl
        generalize method.env = env at hscopes hshorter
        cases hscopes with
        | plain hwithin => exact hshorter _ _ (Nat.le_refl _) hwithin
        | derived hscope _ houter => exact .scope hscope (hshorter _ _ (Nat.le_succ _) houter)
      exact .scope hid (.scope hbind hmethod)

/-- The scopes of the environment were made, one inside the other, for these origins. -/
inductive Opened (C : Corpus) (causes : Causes) : Env → List ScopeOrigin → Prop where
  | top : Opened C causes World.topEnv []
  | scope {id : ScopeId} {cause : Cause} {o : ScopeOrigin} {os : List ScopeOrigin} :
      causes.cause? id = some cause → cause.Opens C o os → Opened C causes cause.outer os →
      Opened C causes (id :: cause.outer) (o :: os)

section Origins
variable {C : Corpus} {shapes : Shapes} {causes : Causes}

theorem serves_of_cause? (h : List.Forall₂ (Cause.Serves C shapes) causes shapes) {id : ScopeId}
    {cause : Cause} {o : ScopeOrigin} (hcause : causes.cause? id = some cause)
    (horigin : shapes.origin? id = some o) : cause.Serves C shapes o := by
  cases id with
  | zero => cases hcause
  | succ id =>
    obtain ⟨hlt, rfl⟩ := List.getElem?_eq_some_iff.1 hcause
    obtain ⟨hlt', rfl⟩ := List.getElem?_eq_some_iff.1 horigin
    exact h.get hlt hlt'

theorem Fits.opened {env : Env} {os : List ScopeOrigin} (h : Fits shapes env os)
    (hchained : Chained causes env)
    (hserves : List.Forall₂ (Cause.Serves C shapes) causes shapes) : Opened C causes env os := by
  induction hchained generalizing os with
  | top =>
    rw [h.unique .top]
    exact .top
  | @scope id cause hcause houter ih =>
    generalize henv : id :: cause.outer = env at h
    cases h with
    | top =>
      obtain ⟨rfl, -⟩ := List.cons.inj henv
      cases hcause
    | scope horigin hfits =>
      obtain ⟨rfl, rfl⟩ := List.cons.inj henv
      obtain ⟨os', hopens, hfits'⟩ := serves_of_cause? hserves hcause horigin
      rw [hfits'.unique hfits] at hopens
      exact .scope hcause hopens (ih hfits)

end Origins

namespace Opened

variable {C : Corpus} {causes : Causes} {env : Env} {os : List ScopeOrigin}

theorem get? {d : Nat} {id : ScopeId} {o : ScopeOrigin} (h : Opened C causes env os)
    (hid : env[d]? = some id) (ho : os[d]? = some o) :
    ∃ cause, causes.cause? id = some cause ∧ cause.Opens C o (os.drop (d + 1)) ∧
      cause.outer = env.drop (d + 1) := by
  induction h generalizing d with
  | top => cases ho
  | @scope _ cause _ _ hcause hopens _ ih =>
    cases d with
    | zero =>
      cases hid
      cases ho
      exact ⟨cause, hcause, hopens, rfl⟩
    | succ d => exact ih hid ho

end Opened

/-! ## Frames -/

/-- The code that the frame goes on with is what the resolver made of sites in these scopes. -/
def Frame.StandsIn (C : Corpus) (os : List ScopeOrigin) (frame : Frame) : Prop :=
  ∀ node ∈ frame.code, ∃ r node₀, KnownIn C ⟨os, r, node₀⟩ ∧ node = node₀.outcome r

/-- The frames go on with code that stands in the scopes in force, up to one that goes back to other
scopes, and in the end to the top level. -/
def Continues (C : Corpus) (causes : Causes) : Env → List ScopeOrigin → List Frame → Prop
  | env, os, [] => env = World.topEnv ∧ os = []
  | _, _, .restore env :: frames => ∃ os, Opened C causes env os ∧ Continues C causes env os frames
  | env, os, frame :: frames => frame.StandsIn C os ∧ Continues C causes env os frames

section Code
variable {C : Corpus} {os : List ScopeOrigin} {r r' : Scoping} {frame : Frame} {node node' : Node}

theorem Frame.standsIn_nil (hcode : frame.code = []) : frame.StandsIn C os := by
  intro node hnode
  rw [hcode] at hnode
  cases hnode

theorem Frame.standsIn_one (hknown : KnownIn C ⟨os, r, node⟩)
    (hcode : frame.code = [node.outcome r]) : frame.StandsIn C os := by
  intro node' hnode'
  rw [hcode] at hnode'
  exact ⟨r, node, hknown, List.mem_singleton.1 hnode'⟩

theorem Frame.standsIn_two (hknown : KnownIn C ⟨os, r, node⟩)
    (hknown' : KnownIn C ⟨os, r', node'⟩)
    (hcode : frame.code = [node.outcome r, node'.outcome r']) : frame.StandsIn C os := by
  intro node'' hnode''
  rw [hcode] at hnode''
  rcases List.mem_cons.1 hnode'' with heq | hnode''
  · exact ⟨r, node, hknown, heq⟩
  · exact ⟨r', node', hknown', List.mem_singleton.1 hnode''⟩

end Code

/-- Frames that wait as the resolver expects go on where their code stands. -/
theorem Waits.continues {C : Corpus} {shapes : Shapes} {σ σ' : Store} {p : Place}
    {awaited : Awaited} {frames : List Frame} {causes : Causes} {a : Option Activation}
    (h : Waits C shapes σ p awaited frames) (hstore : σ'.Follows causes)
    (hserves : List.Forall₂ (Cause.Serves C shapes) causes shapes)
    (hcarried : Carried causes a frames) : Continues C causes p.env p.origins frames := by
  induction h generalizing a with
  | ended henv | done henv => exact ⟨henv, rfl⟩
  | top line henv hknown => exact ⟨Frame.standsIn_one hknown rfl, henv, rfl⟩
  | restore hhere _ ih =>
    obtain ⟨a', hwithin, hcarried⟩ := hcarried
    exact ⟨_, hhere.fits.opened (hwithin.chained hstore) hserves, ih hcarried⟩
  | unary _ _ _ ih | right _ _ _ _ ih | get _ _ ih | setField _ _ _ ih | assign _ _ ih | discard _ ih
  | print _ ih | define _ _ ih | ret _ ih | inherit _ _ _ ih | finish _ _ ih | created _ _ ih
  | leave _ ih => exact ⟨Frame.standsIn_nil rfl, ih hcarried.2⟩
  | left _ _ hknown _ ih | logical _ hknown _ ih | callee _ hknown _ ih
  | argument _ _ _ hknown _ ih | setTarget _ hknown _ ih =>
    exact ⟨Frame.standsIn_one hknown rfl, ih hcarried.2⟩
  | @sequence os r env rest frames b c hknown _ _ ih =>
    exact ⟨Frame.standsIn_one hknown rfl, ih r hcarried.2⟩
  | test hknown _ _ ih | again hknown _ _ ih =>
    obtain ⟨hcondition, hbody, -⟩ := hknown.loop
    exact ⟨Frame.standsIn_two hcondition hbody rfl, ih hcarried.2⟩
  | branch thenBranch elseBranch hbranches _ _ ih =>
    have hthen := (hbranches thenBranch (Or.inl rfl)).1
    cases elseBranch with
    | none => exact ⟨Frame.standsIn_one hthen rfl, ih hcarried.2⟩
    | some elseBranch =>
      have helse := (hbranches elseBranch (Or.inr rfl)).1
      exact ⟨Frame.standsIn_two hthen helse rfl, ih hcarried.2⟩

/-! ## Runs -/

/-- The scopes of the store were made by the causes, for origins of its own. -/
def World.Settled (C : Corpus) (causes : Causes) (w : World) : Prop :=
  ∃ shapes, w.Ready C shapes ∧ w.store.Follows causes ∧
    List.Forall₂ (Cause.Serves C shapes) causes shapes

/-- The machine agrees with the resolver, and its scopes were made by the causes for the origins that
the resolver knows. -/
def Machine.Placed (C : Corpus) (causes : Causes) (m : Machine) : Prop :=
  ∃ shapes, Agrees C shapes m ∧ Traced causes m ∧
    List.Forall₂ (Cause.Serves C shapes) causes shapes

namespace Machine.Placed

variable {C : Corpus} {causes : Causes} {m : Machine}

theorem settled (h : m.Placed C causes) : m.world.Settled C causes := by
  obtain ⟨shapes, hagrees, htraced, hserves⟩ := h
  exact ⟨shapes, hagrees.ready, htraced.follows, hserves⟩

theorem step (h : m.Placed C causes) : m.step.Placed C (causes ++ m.made) := by
  obtain ⟨shapes, hagrees, htraced, hserves⟩ := h
  obtain ⟨more, hextends, hagrees', hmore⟩ := hagrees.advancesBy_made htraced
  refine ⟨shapes ++ more, hagrees', htraced.step hagrees.orderly, ?_⟩
  exact List.rel_append (hserves.imp fun _ _ hcause => hcause.mono hextends.shapes) hmore

theorem after (h : m.Placed C causes) (n : Nat) :
    (m.after n).Placed C (causes ++ causesOf (m.moments n)) := by
  induction n with
  | zero =>
    rw [← List.append_nil causes] at h
    exact h
  | succ n ih =>
    rw [causesOf_moments_succ, ← List.append_assoc]
    exact ih.step

end Machine.Placed

end Lox
