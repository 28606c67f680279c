import Lox.Proofs.Machine.Calls

/-!
# Steps keep the agreement

One lemma for each kind of step: a machine that agrees with the resolver agrees with it after the
step, and no name that was bound has been lost. In particular it does not fail with an internal
error.
-/

set_option autoImplicit false

namespace Lox

open Scoping ResolveM

namespace Machine

variable {C : Corpus} {shapes : Shapes} {os : List ScopeOrigin} {r : Scoping}
  {frames : List Frame} {w : World}

/-- A statement does not change how those after it may complete. -/
theorem allows_after {s : Stmt} {b c : Bool} (h : KnownIn C ⟨os, r, .stmt s⟩)
    (hallows : Allows r b c) : Allows (s.resolve.after r) b c := by
  rw [h.proper.after_stmt]
  cases s.introduced? with
  | none => exact hallows
  | some x => simpa [Allows] using hallows

theorem valueFits_ofLiteral (literal : Literal) : ValueFits C shapes (.ofLiteral literal) := by
  cases literal <;> trivial

theorem advances_read {node : Node} {x : String} {line : Nat} (hat : w.At C shapes os r)
    (hknown : KnownIn C ⟨os, r, node⟩)
    (hwaits : Waits C shapes w.store ⟨os, r, w.env⟩ .value frames) :
    Advances C shapes w.store (ofResult (w.read x line (some (r.binding x))) frames w) := by
  rcases hat.read_cases hknown x line with ⟨id, v, hfind, hread⟩ | hread
  · rw [hread]
    exact .stay (.value hat (hat.typed.value hfind) hwaits)
  · rw [hread]
    exact .stay (.failed hat.toReady rfl)

theorem advances_evaluate {e : Expr} (hat : w.At C shapes os r)
    (hknown : KnownIn C ⟨os, r, .expr e⟩)
    (hwaits : Waits C shapes w.store ⟨os, r, w.env⟩ .value frames) :
    Advances C shapes w.store (evaluate (e.resolve.outcome r) frames w) := by
  cases e with
  | literal value line => exact .stay (.value hat (valueFits_ofLiteral value) hwaits)
  | group inner => exact .stay (.evaluate hat (hknown.child List.mem_cons_self) hwaits)
  | «variable» name slot => exact advances_read hat hknown hwaits
  | assign name value slot =>
    have hvalue : KnownIn C ⟨os, r, .expr value⟩ := hknown.child List.mem_cons_self
    show Advances _ _ _ ⟨.evaluate (value.resolve.outcome r),
      .assign name (some ((value.resolve.after r).binding name.name)) :: frames, w⟩
    rw [hvalue.expr_after]
    exact .stay (.evaluate hat hvalue (.assign hknown hwaits))
  | unary op operand line =>
    exact .stay (.evaluate hat (hknown.child List.mem_cons_self) (.unary op line hwaits))
  | binary op left right line =>
    obtain ⟨hleft, hright, hafter⟩ := hknown.pair rfl
    show Advances _ _ _ ⟨.evaluate (left.resolve.outcome r),
      .left op (right.resolve.outcome (left.resolve.after r)) line :: frames, w⟩
    rw [hafter]
    exact .stay (.evaluate hat hleft (.left op line hright hwaits))
  | logical op left right line =>
    obtain ⟨hleft, hright, hafter⟩ := hknown.pair rfl
    show Advances _ _ _ ⟨.evaluate (left.resolve.outcome r),
      .logical op (right.resolve.outcome (left.resolve.after r)) :: frames, w⟩
    rw [hafter]
    exact .stay (.evaluate hat hleft (.logical op hright hwaits))
  | call callee arguments line =>
    obtain ⟨hcallee, harguments, hafter⟩ := hknown.pair rfl
    show Advances _ _ _ ⟨.evaluate (callee.resolve.outcome r),
      .callee ((resolveArguments arguments).outcome (callee.resolve.after r)) line :: frames, w⟩
    rw [hafter]
    exact .stay (.evaluate hat hcallee (.callee line harguments hwaits))
  | get object name =>
    exact .stay (.evaluate hat (hknown.child List.mem_cons_self) (.get name hwaits))
  | set object name value =>
    obtain ⟨hvalue, hobject, hafter⟩ := hknown.pair rfl
    show Advances _ _ _ ⟨.evaluate (object.resolve.outcome (value.resolve.after r)),
      .setTarget name (value.resolve.outcome r) :: frames, w⟩
    rw [hafter]
    exact .stay (.evaluate hat hobject (.setTarget name hvalue hwaits))
  | this line slot =>
    obtain ⟨d, houtcome, hd, -⟩ := hknown.this
    rw [houtcome, ← binding_of_visible? hd]
    exact advances_read hat hknown hwaits
  | super line method slot =>
    obtain ⟨d, houtcome, -, hsuper, hthis⟩ := hknown.super
    rw [houtcome]
    exact (advances_evaluateSuper line method hat hsuper hthis hwaits).advances
  | lambda decl =>
    have hdecl : KnownIn C ⟨os, r, .function decl⟩ := hknown.child List.mem_cons_self
    obtain ⟨hextends, hat'⟩ := hat.newId
    have hclosure :
        ValueFits C shapes (.function w.newId.1 ⟨decl.resolve.outcome r, w.env, false⟩) :=
      hat.functionFits hdecl
    exact ⟨shapes, hextends, .value hat' hclosure (hwaits.mono hextends)⟩

/-- A block is entered in a scope for its body. -/
theorem advances_block {body : List Stmt} {b c : Bool} (hat : w.At C shapes os r)
    (hknown : KnownIn C ⟨os, r, .stmt (.block body)⟩) (hallows : Allows r b c)
    (hwaits : Waits C shapes w.store ⟨os, (Stmt.block body).resolve.after r, w.env⟩
      (.completion b c) frames) :
    ∃ body', (Stmt.block body).resolve.outcome r = .block body' ∧
      AdvancesBy C shapes w.store [.block w.env body'] (execute (.block body') frames w) := by
  have hbody : Regular (.body body) := by
    cases hknown.proper.regular with
    | block hbody => exact hbody
  obtain ⟨hstate, -, houtcome⟩ := block_quiet hbody hknown.proper.quiet
  have hbodyKnown : KnownIn C ⟨.block body :: os, blockState body r, .body body⟩ := by
    rw [← hstate]
    exact hknown.child List.mem_cons_self
  have hpending : r.pending = none := hknown.proper.settled rfl
  have hcause : (Cause.block w.env ((resolveBody body).outcome (blockState body r))).Opens C
      (.block body) os := .block hknown houtcome
  rw [hknown.stmt_after rfl] at hwaits
  refine ⟨_, houtcome, ?_⟩
  apply advances_enterScope hat hbodyKnown hcause hat.here.fits
  · intro x v hv
    cases hv
  · exact List.subset_append_left _ _
  · exact fun x hx => Or.inr hx
  · intro shapes' σ' hextends hdefinite horigin
    exact (hextends.here hat.here).block hpending horigin hdefinite
  · exact hallows
  · exact hwaits

theorem advances_execute {s : Stmt} {b c : Bool} (hat : w.At C shapes os r)
    (hknown : KnownIn C ⟨os, r, .stmt s⟩) (hallows : Allows r b c)
    (hwaits : Waits C shapes w.store ⟨os, s.resolve.after r, w.env⟩ (.completion b c) frames) :
    Advances C shapes w.store (execute (s.resolve.outcome r) frames w) := by
  cases s with
  | expression value =>
    rw [hknown.stmt_after rfl] at hwaits
    exact .stay (.evaluate hat (hknown.child List.mem_cons_self) (.discard hwaits))
  | print value =>
    rw [hknown.stmt_after rfl] at hwaits
    exact .stay (.evaluate hat (hknown.child List.mem_cons_self) (.print hwaits))
  | var name value =>
    obtain ⟨hname, hafter⟩ := hknown.declares rfl
    rw [hafter] at hwaits
    cases value with
    | none =>
      exact (advances_define (v := .nil) hat trivial hname Shows.of_declaring hwaits).advances
    | some value =>
      have hregular : Regular (.expr value) := by
        cases hknown.proper.regular with
        | varWith _ hvalue => exact hvalue
      obtain ⟨hdeclare, -, -, houtcome⟩ := var_quiet hregular hknown.proper.quiet
      have hvalue : KnownIn C ⟨os, ((declare name).after r).awaiting name.name, .expr value⟩ :=
        hknown.child List.mem_cons_self
      have hpending : r.pending = none := hknown.proper.settled rfl
      rw [hdeclare] at hvalue
      rw [houtcome]
      refine .stay (.evaluate ⟨hat.toReady, hat.here.narrow ?_⟩ hvalue (.define hknown hwaits))
      exact fun hshows => hshows.of_awaiting hpending
  | block body =>
    obtain ⟨body', houtcome, hadvances⟩ := advances_block hat hknown hallows hwaits
    rw [houtcome]
    exact hadvances.advances
  | cond condition thenBranch elseBranch =>
    rw [hknown.stmt_after rfl] at hwaits
    cases elseBranch with
    | none =>
      obtain ⟨hcondition, hthen, hafter⟩ := hknown.pair rfl
      have hdeclares : thenBranch.isDeclaration = false := by
        cases hknown.proper.regular with
        | cond _ _ hdeclares => exact hdeclares
      show Advances _ _ _ ⟨.evaluate (condition.resolve.outcome r),
        .branch (thenBranch.resolve.outcome (condition.resolve.after r)) none :: frames, w⟩
      rw [hafter]
      refine .stay (.evaluate hat hcondition (.branch thenBranch none ?_ hallows hwaits))
      intro s hs
      obtain rfl := hs.resolve_right (by simp)
      exact ⟨hthen, hdeclares⟩
    | some elseBranch =>
      obtain ⟨hcondition, hthen, helse, hdeclares, houtcome⟩ := hknown.condElse
      rw [houtcome]
      refine .stay (.evaluate hat hcondition
        (.branch thenBranch (some elseBranch) ?_ hallows hwaits))
      intro s hs
      rcases hs with rfl | hs
      · exact ⟨hthen, hdeclares.1⟩
      · obtain rfl := Option.some.inj hs
        exact ⟨helse, hdeclares.2⟩
  | loop condition body =>
    obtain ⟨hcondition, -, -, houtcome⟩ := hknown.loop
    rw [hknown.stmt_after rfl] at hwaits
    rw [houtcome]
    exact .stay (.evaluate hat hcondition (.test hknown hallows hwaits))
  | function decl =>
    -- A function statement is only executed at top level; in a body it has been defined before.
    obtain rfl : os = [] := hknown.proper.fits.1 rfl
    have hscopes := hknown.proper.describes.nil rfl
    have hdeclare := declareAll_top r decl.name.toList hscopes
    have hplain : ∀ name ∈ decl.name, Plain name.name := by
      cases hknown.proper.regular with
      | functionDecl hplain _ => exact hplain
    have hdecl : KnownIn C ⟨[], (declareAll decl.name.toList).after r, .function decl⟩ :=
      hknown.child List.mem_cons_self
    rw [hdeclare] at hdecl
    rw [hknown.stmt_after rfl] at hwaits
    show Advances _ _ _ ⟨.completed .normal, frames, w.defineFunction
      (decl.resolve.outcome ((declareAll decl.name.toList).after r))⟩
    rw [hdeclare]
    obtain ⟨htyped, hgrows, -⟩ := World.defineFunction_fits hat.typed hat.here.fits hdecl
      fun name hname => ⟨hplain name hname, by simp, hknown.own
        (List.mem_map_of_mem (Option.mem_toList.2 hname))⟩
    have hextends : Extends shapes w.store shapes _ := .of_grows hgrows
    have henv := World.env_defineFunction w (decl.resolve.outcome r)
    have hat' := hat.extend ⟨htyped, hat.definite.mono hgrows⟩ hextends henv
    have hwaits' := hwaits.mono hextends
    rw [← henv] at hwaits'
    exact ⟨shapes, hextends, .completed hat' trivial hwaits'⟩
  | ret line value =>
    rw [hknown.stmt_after rfl] at hwaits
    cases value with
    | none =>
      obtain ⟨hfunction, houtcome⟩ := hknown.ret
      rw [houtcome]
      exact .stay (.completed hat ⟨hallows.2 hfunction, trivial⟩ hwaits)
    | some value =>
      obtain ⟨hfunction, houtcome⟩ := hknown.retWith
      rw [houtcome]
      rw [hallows.2 hfunction] at hwaits
      exact .stay (.evaluate hat (hknown.child List.mem_cons_self) (.ret hwaits))
  | brk line =>
    obtain ⟨hdepth, houtcome⟩ := hknown.brk
    rw [hknown.stmt_after rfl] at hwaits
    rw [houtcome]
    exact .stay (.completed hat (hallows.1 hdepth) hwaits)
  | classDecl name superclass decls =>
    obtain ⟨hname, hafter⟩ := hknown.declares rfl
    rw [hafter] at hwaits
    cases superclass with
    | none =>
      obtain ⟨hmethods, houtcome⟩ := hknown.classDecl
      rw [houtcome]
      exact (advances_class hat hname hmethods hwaits).advances
    | some parent =>
      obtain ⟨parent, slot⟩ := parent
      obtain ⟨hparent, -, houtcome⟩ := hknown.subclassDecl
      rw [houtcome]
      exact .stay (.evaluate hat hparent (.inherit parent.line hknown hwaits))

/-- Assigning to an occurrence overwrites a name that is bound, or finds none. -/
theorem assign_cases {name : Ident} {value : Expr} {slot : Slot} (hat : w.At C shapes os r)
    (hknown : KnownIn C ⟨os, r, .expr (.assign name value slot)⟩) (v : Value) :
    (∃ id, (∀ o, shapes.origin? id = some o → name.name ∈ o.names) ∧
        (id = 0 → C.Names name.name) ∧
        w.assign name v (some (r.binding name.name)) =
          (.ok (), { w with store := w.store.put id name.name v })) ∨
      w.assign name v (some (r.binding name.name)) =
        (.error (Store.undefined name.name name.line), w) := by
  cases hbinding : r.binding name.name with
  | atTop =>
    simp only [World.assign, World.topEnv, Store.assign]
    cases hfind : w.store.find? 0 name.name with
    | none => exact Or.inr rfl
    | some u =>
      refine Or.inl ⟨0, ?_, fun _ => hat.typed.top hfind, rfl⟩
      intro o ho
      cases ho
  | atDistance d =>
    obtain ⟨id, o, hid, horigin, -, hmem⟩ := hat.scope_of_binding hknown hbinding
    simp only [World.assign, Store.assignAt, hid]
    cases hfind : w.store.find? id name.name with
    | none => exact Or.inr rfl
    | some u =>
      refine Or.inl ⟨id, ?_, ?_, rfl⟩
      · intro o' ho'
        obtain rfl := Option.some.inj (horigin.symm.trans ho')
        exact hmem
      · rintro rfl
        cases horigin

theorem advances_assign {name : Ident} {value : Expr} {slot : Slot} {v : Value}
    (hat : w.At C shapes os r) (hv : ValueFits C shapes v)
    (hknown : KnownIn C ⟨os, r, .expr (.assign name value slot)⟩)
    (hwaits : Waits C shapes w.store ⟨os, r, w.env⟩ .value frames) :
    Advances C shapes w.store
      (passValue v (.assign name (some (r.binding name.name))) frames w) := by
  have hplain : Plain name.name := by
    cases hknown.proper.regular with
    | assign _ hplain _ => exact hplain
  rcases assign_cases hat hknown v with ⟨id, hmem, htop, hassign⟩ | hassign
  · simp only [passValue, hassign]
    have hgrows := Store.grows_put w.store id name.name v
    have htyped := hat.typed.put hv (fun o ho => ⟨hmem o ho, hplain⟩) htop
    have hextends : Extends shapes w.store shapes _ := .of_grows hgrows
    have hat' : World.At C shapes os r { w with store := w.store.put id name.name v } :=
      hat.extend ⟨htyped, hat.definite.mono hgrows⟩ hextends rfl
    exact ⟨shapes, hextends, .value hat' hv (hwaits.mono hextends)⟩
  · simp only [passValue, hassign]
    exact .stay (.failed hat.toReady rfl)

theorem unary_fits (op : UnaryOp) (v : Value) (line : Nat) :
    ResultFits C shapes (op.apply v line) := by
  unfold UnaryOp.apply
  split <;> trivial

theorem binary_fits (op : BinaryOp) (left right : Value) (line : Nat) :
    ResultFits C shapes (op.apply left right line) := by
  have hnumbers (op : BinaryOp) (a b : Float) : ResultFits C shapes (op.applyNumbers a b line) := by
    cases op with
    | divide =>
      rw [BinaryOp.applyNumbers]
      split <;> trivial
    | _ => trivial
  unfold BinaryOp.apply
  split
  · trivial
  · trivial
  · trivial
  · exact hnumbers _ _ _
  · trivial
  · trivial

/-- The methods of a class with a superclass see the scope that holds the superclass. -/
theorem advances_inherit {name superclass : Ident} {slot : Slot} {decls : List FunDecl}
    {parent : Class} {b c : Bool} (hat : w.At C shapes os r) (hparent : ClassFits C shapes parent)
    (hknown : KnownIn C ⟨os, r, .stmt (.classDecl name (some (superclass, slot)) decls)⟩)
    (hwaits : Waits C shapes w.store ⟨os, r.declaring name.name, w.env⟩ (.completion b c) frames) :
    let methods := (resolveMethods decls).outcome
      ((((r.declaring name.name).within .derived).enter ["super"]).enter ["this"])
    AdvancesBy C shapes w.store [.inherit w.env parent methods]
      (makeClass name (some parent) methods frames w) := by
  obtain ⟨hname, -⟩ := hknown.declares rfl
  obtain ⟨-, hmethods, houtcome⟩ := hknown.subclassDecl
  exact advances_subclass hat hname hparent (.inherit hknown houtcome) hmethods hwaits

theorem advances_passValue {v : Value} {frame : Frame} (hat : w.At C shapes os r)
    (hv : ValueFits C shapes v)
    (hwaits : Waits C shapes w.store ⟨os, r, w.env⟩ .value (frame :: frames)) :
    Advances C shapes w.store (passValue v frame frames w) := by
  cases hwaits with
  | assign hknown hwaits => exact advances_assign hat hv hknown hwaits
  | unary op line hwaits => exact advances_ofResult hat (unary_fits op v line) hwaits
  | left op line hknown hwaits => exact .stay (.evaluate hat hknown (.right op v line hwaits))
  | right op left line hwaits => exact advances_ofResult hat (binary_fits op left v line) hwaits
  | logical op hknown hwaits =>
    show Advances _ _ _ (if op.decides v then ⟨.value v, frames, w⟩ else ⟨.evaluate _, frames, w⟩)
    split
    · exact .stay (.value hat hv hwaits)
    · exact .stay (.evaluate hat hknown hwaits)
  | @callee _ _ _ arguments _ line hknown hwaits =>
    cases arguments with
    | nil => exact (advances_call hat hv (by simp) hwaits).advances
    | cons first rest =>
      obtain ⟨hfirst, hrest, hafter⟩ := hknown.pair rfl
      show Advances _ _ _ ⟨.evaluate (first.resolve.outcome r),
        .argument v [] ((resolveArguments rest).outcome (first.resolve.after r)) line :: frames, w⟩
      rw [hafter]
      exact .stay (.evaluate hat hfirst (.argument line hv (by simp) hrest hwaits))
  | @argument _ _ _ callee before arguments _ line hcallee hbefore hknown hwaits =>
    have hvalues : ∀ u ∈ v :: before, ValueFits C shapes u := List.forall_mem_cons.2 ⟨hv, hbefore⟩
    cases arguments with
    | nil =>
      exact (advances_call hat hcallee (fun u hu => hvalues u (List.mem_reverse.1 hu)) hwaits).advances
    | cons next rest =>
      obtain ⟨hnext, hrest, hafter⟩ := hknown.pair rfl
      show Advances _ _ _ ⟨.evaluate (next.resolve.outcome r), .argument callee (v :: before)
        ((resolveArguments rest).outcome (next.resolve.after r)) line :: frames, w⟩
      rw [hafter]
      exact .stay (.evaluate hat hnext (.argument line hcallee hvalues hrest hwaits))
  | get name hwaits =>
    cases v with
    | object id cls => exact (advances_getProperty hat hv hwaits).advances
    | _ => exact .stay (.failed hat.toReady rfl)
  | setTarget name hknown hwaits =>
    cases v with
    | object id cls => exact .stay (.evaluate hat hknown (.setField id name hwaits))
    | _ => exact .stay (.failed hat.toReady rfl)
  | setField object name hwaits =>
    have hextends : Extends shapes w.store shapes (w.setField object name.name v).store :=
      .of_grows fun _ _ h => h
    have hat' : (w.setField object name.name v).At C shapes os r :=
      hat.extend ⟨hat.typed.setField hv, hat.definite⟩ hextends rfl
    exact ⟨shapes, hextends, .value hat' hv (hwaits.mono hextends)⟩
  | discard hwaits => exact .stay (.completed hat trivial hwaits)
  | print hwaits =>
    have hat' : (w.print v.display).2.At C shapes os r := ⟨⟨hat.typed, hat.definite⟩, hat.here⟩
    show Advances _ _ _ (if (w.print v.display).1 then _ else _)
    split
    · exact ⟨shapes, .refl _ _, .completed hat' trivial hwaits⟩
    · exact ⟨shapes, .refl _ _, .failed hat'.toReady rfl⟩
  | define hknown hwaits =>
    obtain ⟨hname, -⟩ := hknown.declares rfl
    exact (advances_define hat hv hname Shows.awaiting_of_declaring hwaits).advances
  | branch thenBranch elseBranch hbranches hallows hwaits =>
    have hbranch (s : Stmt) (hs : s = thenBranch ∨ s ∈ elseBranch) :
        Advances C shapes w.store ⟨.execute (s.resolve.outcome r), frames, w⟩ := by
      obtain ⟨hknown, hdeclares⟩ := hbranches s hs
      refine .stay (.execute hat hknown hallows ?_)
      rw [hknown.stmt_after (Stmt.of_not_declaration hdeclares).2]
      exact hwaits
    show Advances _ _ _ (if v.isTruthy then _ else _)
    split
    · exact hbranch thenBranch (Or.inl rfl)
    · cases elseBranch with
      | none => exact .stay (.completed hat trivial hwaits)
      | some s => exact hbranch s (Or.inr rfl)
  | @test _ _ _ condition body _ _ _ hknown hallows hwaits =>
    obtain ⟨-, hbody, hdeclares, -⟩ := hknown.loop
    show Advances _ _ _ (if v.isTruthy then _ else _)
    split
    · have hallows' : Allows r.enterLoop true _ := ⟨fun _ => rfl, hallows.2⟩
      refine .stay (.execute ⟨hat.toReady, hat.here.narrow fun h => h⟩ hbody hallows' ?_)
      rw [hbody.stmt_after (Stmt.of_not_declaration hdeclares).2]
      exact .again hknown hallows hwaits
    · exact .stay (.completed hat trivial hwaits)
  | ret hwaits => exact .stay (.completed hat ⟨rfl, hv⟩ hwaits)
  | inherit line hknown hwaits =>
    cases v with
    | classRef cls => exact (advances_inherit hat hv hknown hwaits).advances
    | _ => exact .stay (.failed hat.toReady rfl)
  | created hobject hwaits => exact .stay (.value hat hobject hwaits)
  | leave hwaits =>
    exact ⟨shapes, .refl _ _, .value ⟨⟨hat.typed, hat.definite⟩, hat.here⟩ hv hwaits⟩

theorem functionResult_fits {closure : Closure} {k : Completion} (hready : w.Ready C shapes)
    (hclosure : FunctionFits C shapes closure) (hk : k.Permitted C shapes false true) :
    ResultFits C shapes (functionResult closure k w) := by
  unfold functionResult
  split
  · rename_i hinitializer
    obtain ⟨os, r, decl, -, -, hfits, hreceiver⟩ := hclosure
    have horigin : os[0]? = some .receiver := by
      rw [← List.head?_eq_getElem?]
      exact hreceiver hinitializer
    obtain ⟨id, hid, horigin⟩ := hfits.get? horigin
    obtain ⟨v, hv⟩ := Option.isSome_iff_exists.1
      (hready.definite id _ "this" horigin List.mem_cons_self)
    simp only [Store.getAt, hid, hv]
    exact hready.typed.value hv
  · cases k with
    | normal => trivial
    | broken => cases hk
    | returned v => exact hk.2

theorem advances_sequence {rest : List Stmt} {b c : Bool} (hat : w.At C shapes os r)
    (hknown : KnownIn C ⟨os, r, .body rest⟩) (hallows : Allows r b c)
    (hwaits : ∀ r', Waits C shapes w.store ⟨os, r', w.env⟩ (.completion b c) frames) :
    Advances C shapes w.store
      (passCompletion .normal (.sequence ((resolveBody rest).outcome r)) frames w) := by
  cases rest with
  | nil => exact .stay (.completed hat trivial (hwaits r))
  | cons s rest =>
    cases hknown.proper.regular with
    | @bodyFunction decl _ _ _ _ =>
      obtain ⟨-, hrest, houtcome⟩ := hknown.body_function
      rw [houtcome]
      exact .stay (.completed hat trivial (.sequence hrest hallows hwaits))
    | bodyStmt hs _ _ =>
      obtain ⟨hstmt, hrest, houtcome⟩ := hknown.body_stmt hs
      rw [houtcome, passCompletion_sequence (by rw [Stmt.isFunction_resolve, hs])]
      exact .stay (.execute hat hstmt hallows
        (.sequence hrest (allows_after hstmt hallows) hwaits))

theorem advances_passCompletion {k : Completion} {frame : Frame} {b c : Bool}
    (hat : w.At C shapes os r) (hk : k.Permitted C shapes b c)
    (hwaits : Waits C shapes w.store ⟨os, r, w.env⟩ (.completion b c) (frame :: frames)) :
    Advances C shapes w.store (passCompletion k frame frames w) := by
  cases hwaits with
  | @again _ r' _ _ _ _ _ _ hknown hallows hwaits =>
    have hat' : w.At C shapes os r' := ⟨hat.toReady, hat.here.narrow fun h => h⟩
    obtain ⟨hcondition, -⟩ := hknown.loop
    cases k with
    | normal => exact .stay (.evaluate hat' hcondition (.test hknown hallows hwaits))
    | broken => exact .stay (.completed hat' trivial hwaits)
    | returned v => exact .stay (.completed hat' ⟨hk.1, hk.2⟩ hwaits)
  | sequence hknown hallows hwaits =>
    cases k with
    | normal => exact advances_sequence hat hknown hallows hwaits
    | broken | returned =>
      rw [passCompletion_sequence_of_ne (by simp)]
      exact .stay (.completed hat hk (hwaits r))
  | @restore _ q _ _ _ hhere hwaits =>
    obtain ⟨os', r', env'⟩ := q
    have hat' : World.At C shapes os' r' { w with env := env' } :=
      ⟨⟨hat.typed, hat.definite⟩, hhere⟩
    exact ⟨shapes, .refl _ _, .completed hat' hk hwaits⟩
  | finish hclosure hwaits =>
    exact advances_ofResult hat (functionResult_fits hat.toReady hclosure hk) hwaits
  | @top _ _ rest line henv hknown hallows =>
    cases k with
    | broken => cases hk
    | returned v => cases hk.1
    | normal =>
      cases rest with
      | nil => exact .stay (.completed hat trivial (.done henv))
      | cons s rest =>
        have hstmt : KnownIn C ⟨[], r, .stmt s⟩ := hknown.child List.mem_cons_self
        have hrest : KnownIn C ⟨[], s.resolve.after r, .top rest⟩ :=
          hknown.child (List.mem_cons_of_mem _ List.mem_cons_self)
        exact .stay (.execute hat hstmt hallows (.top _ henv hrest (allows_after hstmt hallows)))

theorem advances_passError {e : Error} {frame : Frame} (hready : w.Ready C shapes)
    (he : e.isInternal = false) : Advances C shapes w.store (passError e frame frames w) := by
  have hworld (w' : World) (hstore : w'.store = w.store) :
      Advances C shapes w.store ⟨.failed e, frames, w'⟩ := by
    rw [← hstore]
    refine .stay (.failed ⟨?_, ?_⟩ he)
    · rw [hstore]
      exact hready.typed
    · rw [hstore]
      exact hready.definite
  unfold passError
  split <;> exact hworld _ rfl

/-- A step of a machine that agrees with the resolver leads to one that does. -/
theorem advances_step {m : Machine} (h : Agrees C shapes m) :
    Advances C shapes m.world.store m.step := by
  cases h with
  | evaluate hat hknown hwaits => exact advances_evaluate hat hknown hwaits
  | execute hat hknown hallows hwaits => exact advances_execute hat hknown hallows hwaits
  | @value _ _ v frames w hat hv hwaits =>
    cases frames with
    | nil => exact .stay (.value hat hv hwaits)
    | cons frame frames => exact advances_passValue hat hv hwaits
  | @completed _ _ k frames w _ _ hat hk hwaits =>
    cases frames with
    | nil => exact .stay (.completed hat hk hwaits)
    | cons frame frames => exact advances_passCompletion hat hk hwaits
  | @failed e frames w hready he =>
    cases frames with
    | nil => exact .stay (.failed hready he)
    | cons frame frames => exact advances_passError hready he

theorem advances_after {m : Machine} (h : Agrees C shapes m) (n : Nat) :
    Advances C shapes m.world.store (m.after n) := by
  induction n with
  | zero => exact ⟨shapes, .refl _ _, h⟩
  | succ n ih =>
    obtain ⟨shapes', hextends, hagrees⟩ := ih
    exact .after hextends (advances_step hagrees)

end Machine

end Lox
