import Lox.Proofs.Lockstep.World
import Lox.Proofs.Machine.Restoration

/-!
# Machines in lockstep

Two machines do the same if what they work on is the same, and so are their worlds and the frames
that wait. The second one may have further frames below. Each step of one machine is a step of the
other, until the first one has nothing left to do. Then the other hands the same result to the
frames below.
-/

set_option autoImplicit false

namespace Lox

namespace Lockstep

/-- What the second machine works on top of: its further frames, what they wait for, and the gap of
the environment that they find. -/
structure Basis where
  frames : List Frame
  wanted : Handed
  gap : Gap

section Machines
variable (L : Lockstep) (a : L.Stage)

/-- The frames wait for the same and go on in the same way. The gaps are those of the environments
inside and outside the frame. -/
inductive SameFrame : Gap → Gap → Frame → Frame → Prop where
  | assign {g : Gap} (name : Ident) (slot : Slot) :
      SameFrame g g (.assign name slot) (.assign name (g.slot slot))
  | unary {g : Gap} (op : UnaryOp) (line : Nat) : SameFrame g g (.unary op line) (.unary op line)
  | left {g : Gap} {operand operand' : Expr} (op : BinaryOp) (line : Nat) :
      L.SameTree g (.expr operand) (.expr operand') →
      SameFrame g g (.left op operand line) (.left op operand' line)
  | right {g : Gap} {operand operand' : Value} (op : BinaryOp) (line : Nat) :
      L.SameValue a operand operand' →
      SameFrame g g (.right op operand line) (.right op operand' line)
  | logical {g : Gap} {operand operand' : Expr} (op : LogicalOp) :
      L.SameTree g (.expr operand) (.expr operand') →
      SameFrame g g (.logical op operand) (.logical op operand')
  | callee {g : Gap} {arguments arguments' : List Expr} (line : Nat) :
      L.SameTree g (.arguments arguments) (.arguments arguments') →
      SameFrame g g (.callee arguments line) (.callee arguments' line)
  | argument {g : Gap} {called called' : Value} {before before' : List Value}
      {rest rest' : List Expr} (line : Nat) :
      L.SameValue a called called' → List.Forall₂ (L.SameValue a) before before' →
      L.SameTree g (.arguments rest) (.arguments rest') →
      SameFrame g g (.argument called before rest line) (.argument called' before' rest' line)
  | get {g : Gap} (name : Ident) : SameFrame g g (.get name) (.get name)
  | setTarget {g : Gap} {value value' : Expr} (name : Ident) :
      L.SameTree g (.expr value) (.expr value') →
      SameFrame g g (.setTarget name value) (.setTarget name value')
  | setField {g : Gap} (object : ObjectId) (name : Ident) :
      SameFrame g g (.setField object name) (.setField object name)
  | discard {g : Gap} : SameFrame g g .discard .discard
  | print {g : Gap} : SameFrame g g .print .print
  | define {g : Gap} (name : Ident) (hg : g ≠ some 0) : SameFrame g g (.define name) (.define name)
  | branch {g : Gap} {thenBranch thenBranch' : Stmt} :
      L.SameTree g (.stmt thenBranch) (.stmt thenBranch') →
      SameFrame g g (.branch thenBranch none) (.branch thenBranch' none)
  | branchElse {g : Gap} {thenBranch thenBranch' elseBranch elseBranch' : Stmt} :
      L.SameTree g (.stmt thenBranch) (.stmt thenBranch') →
      L.SameTree g (.stmt elseBranch) (.stmt elseBranch') →
      SameFrame g g (.branch thenBranch (some elseBranch)) (.branch thenBranch' (some elseBranch'))
  | test {g : Gap} {condition condition' : Expr} {body body' : Stmt} :
      L.SameTree g (.expr condition) (.expr condition') → L.SameTree g (.stmt body) (.stmt body') →
      SameFrame g g (.test condition body) (.test condition' body')
  | again {g : Gap} {condition condition' : Expr} {body body' : Stmt} :
      L.SameTree g (.expr condition) (.expr condition') → L.SameTree g (.stmt body) (.stmt body') →
      SameFrame g g (.again condition body) (.again condition' body')
  | ret {g : Gap} : SameFrame g g .ret .ret
  | inherit {g : Gap} {decls decls' : List FunDecl} (name : Ident) (line : Nat) (hg : g ≠ some 0) :
      L.SameTree g.inner.inner (.methods decls) (.methods decls') →
      SameFrame g g (.inherit name line decls) (.inherit name line decls')
  | sequence {g : Gap} {rest rest' : List Stmt} :
      List.Forall₂ (SameTurn L.SameTree g) rest rest' →
      SameFrame g g (.sequence rest) (.sequence rest')
  | restore {g g' : Gap} {env env' : Env} :
      L.SameEnv a g' env env' → SameFrame g g' (.restore env) (.restore env')
  | finish {g : Gap} {c c' : Closure} :
      L.SameFunction a c c' → SameFrame g g (.finish c) (.finish c')
  | created {g : Gap} {object object' : Value} :
      L.SameValue a object object' → SameFrame g g (.created object) (.created object')
  | leave {g : Gap} : SameFrame g g .leave .leave
  /-- A signal at top level is an internal error, and may be reported on another line. -/
  | top {rest rest' : List Stmt} (line line' : Nat) :
      (∀ fault fault', L.SameError (.internal fault) (.internal fault')) →
      List.Forall₂ (fun s s' => L.SameTree none (.stmt s) (.stmt s')) rest rest' →
      SameFrame none none (.top line rest) (.top line' rest')

/-- The first frames are the same, and those of the basis follow in the second list. -/
inductive SameFrames (b : Basis) : Handed → Gap → List Frame → List Frame → Prop where
  | basis {given : Handed} {g : Gap} :
      given = b.wanted → g = b.gap → SameFrames b given g [] b.frames
  | frame {given : Handed} {g g' : Gap} {f f' : Frame} {fs fs' : List Frame} :
      L.SameFrame a g g' f f' → f.takes = given → SameFrames b f.gives g' fs fs' →
      SameFrames b given g (f :: fs) (f' :: fs')

/-- The machines do the same. -/
inductive SameMachine (b : Basis) : Machine → Machine → Prop where
  | evaluate {g : Gap} {e e' : Expr} {fs fs' : List Frame} {w w' : World} :
      L.SameWorld a g w w' → L.SameTree g (.expr e) (.expr e') → L.SameFrames a b .value g fs fs' →
      SameMachine b ⟨.evaluate e, fs, w⟩ ⟨.evaluate e', fs', w'⟩
  | execute {g : Gap} {s s' : Stmt} {fs fs' : List Frame} {w w' : World} :
      L.SameWorld a g w w' → L.SameTree g (.stmt s) (.stmt s') →
      L.SameFrames a b .completion g fs fs' →
      SameMachine b ⟨.execute s, fs, w⟩ ⟨.execute s', fs', w'⟩
  | value {g : Gap} {v v' : Value} {fs fs' : List Frame} {w w' : World} :
      L.SameWorld a g w w' → L.SameValue a v v' → L.SameFrames a b .value g fs fs' →
      SameMachine b ⟨.value v, fs, w⟩ ⟨.value v', fs', w'⟩
  | completed {g : Gap} {c c' : Completion} {fs fs' : List Frame} {w w' : World} :
      L.SameWorld a g w w' → L.SameCompletion a c c' → L.SameFrames a b .completion g fs fs' →
      SameMachine b ⟨.completed c, fs, w⟩ ⟨.completed c', fs', w'⟩
  | failed {given : Handed} {g : Gap} {e e' : Error} {fs fs' : List Frame} {w w' : World} :
      L.SameWorld a g w w' → L.SameError e e' → L.SameFrames a b given g fs fs' →
      SameMachine b ⟨.failed e, fs, w⟩ ⟨.failed e', fs', w'⟩

/-- The machines do the same, with scopes and identities made since. -/
def Follows (b : Basis) (m m' : Machine) : Prop :=
  ∃ a', L.Grows a a' ∧ L.SameMachine a' b m m'

end Machines

section Mono

open Sameness

variable {L : Lockstep} [L.toSameness.Lasting] {a a' : L.Stage} {b : Basis} {m m' : Machine}

theorem SameMachine.follows (h : L.SameMachine a b m m') : L.Follows a b m m' :=
  ⟨a, Lasting.grows_refl a, h⟩

theorem Follows.of_grows (ha : L.Grows a a') (h : L.Follows a' b m m') : L.Follows a b m m' := by
  obtain ⟨a'', ha', hsame⟩ := h
  exact ⟨a'', Lasting.grows_trans ha ha', hsame⟩

variable (ha : L.Grows a a')
include ha

theorem SameFrame.mono {g g' : Gap} {f f' : Frame} (h : L.SameFrame a g g' f f') :
    L.SameFrame a' g g' f f' := by
  cases h with
  | right op line hv => exact .right op line (hv.mono ha)
  | argument line hcalled hbefore hrest =>
    exact .argument line (hcalled.mono ha) (hbefore.imp fun _ _ hv => hv.mono ha) hrest
  | restore henv => exact .restore (henv.mono ha)
  | finish hc => exact .finish (hc.mono ha)
  | created hv => exact .created (hv.mono ha)
  | assign name slot => exact .assign name slot
  | unary op line => exact .unary op line
  | left op line he => exact .left op line he
  | logical op he => exact .logical op he
  | callee line hes => exact .callee line hes
  | get name => exact .get name
  | setTarget name he => exact .setTarget name he
  | setField object name => exact .setField object name
  | discard => exact .discard
  | print => exact .print
  | define name hg => exact .define name hg
  | branch hthen => exact .branch hthen
  | branchElse hthen helse => exact .branchElse hthen helse
  | test he hs => exact .test he hs
  | again he hs => exact .again he hs
  | ret => exact .ret
  | inherit name line hg hdecls => exact .inherit name line hg hdecls
  | sequence hrest => exact .sequence hrest
  | leave => exact .leave
  | top line line' herror hrest => exact .top line line' herror hrest

theorem SameFrames.mono {given : Handed} {g : Gap} {fs fs' : List Frame}
    (h : L.SameFrames a b given g fs fs') : L.SameFrames a' b given g fs fs' := by
  induction h with
  | basis hgiven hgap => exact .basis hgiven hgap
  | frame hframe htakes _ ih => exact .frame (hframe.mono ha) htakes ih

end Mono

end Lockstep

/-! ## Operators -/

section Operators
variable {S : Sameness} {a : S.Stage} {u u' v v' : Value}

theorem UnaryOp.apply_same (op : UnaryOp) (hv : S.SameValue a v v') (line : Nat) :
    SameResult (S.SameValue a) (op.apply v line) (op.apply v' line) := by
  cases op with
  | not =>
    have htruthy := hv.isTruthy_eq
    rw [UnaryOp.apply, UnaryOp.apply, htruthy]
    exact .ok (.bool _)
  | negate =>
    cases hv with
    | number x => exact .ok (.number _)
    | _ => exact .error _

theorem BinaryOp.applyNumbers_same (op : BinaryOp) (x y : Float) (line : Nat) :
    SameResult (S.SameValue a) (op.applyNumbers x y line) (op.applyNumbers x y line) := by
  cases op with
  | add | subtract | multiply => exact .ok (.number _)
  | divide =>
    unfold BinaryOp.applyNumbers
    dsimp only
    split
    · exact .error _
    · exact .ok (.number _)
  | _ => exact .ok (.bool _)

theorem BinaryOp.apply_same (op : BinaryOp) (hequals : v'.equals u' = v.equals u)
    (hv : S.SameValue a v v') (hu : S.SameValue a u u') (line : Nat) :
    SameResult (S.SameValue a) (op.apply v u line) (op.apply v' u' line) := by
  have hnumbers (x y : Float) := BinaryOp.applyNumbers_same (S := S) (a := a) op x y line
  cases op with
  | equal =>
    rw [BinaryOp.apply, BinaryOp.apply, hequals]
    exact .ok (.bool _)
  | notEqual =>
    rw [BinaryOp.apply, BinaryOp.apply, hequals]
    exact .ok (.bool _)
  | add =>
    cases hv with
    | number x =>
      cases hu with
      | number y => exact hnumbers x y
      | _ => exact .error _
    | string x =>
      cases hu with
      | string y => exact .ok (.string _)
      | _ => exact .error _
    | _ => cases hu <;> exact .error _
  | _ =>
    cases hv with
    | number x =>
      cases hu with
      | number y => exact hnumbers x y
      | _ => exact .error _
    | _ => cases hu <;> exact .error _

theorem LogicalOp.decides_same (op : LogicalOp) (hv : S.SameValue a v v') :
    op.decides v' = op.decides v := by
  cases op <;> simp [LogicalOp.decides, hv.isTruthy_eq]

end Operators

namespace Machine

open Lockstep Sameness

variable {L : Lockstep} [L.Lawful] {a : L.Stage} {b : Basis} {g : Gap} {fs fs' : List Frame}
  {w w' : World}

/-! ## Bodies and calls -/

theorem failing_same {given : Handed} (e : Error) (hw : L.SameWorld a g w w')
    (hfs : L.SameFrames a b given g fs fs') :
    L.SameMachine a b (failing e fs w) (failing e fs' w') :=
  .failed hw (Coherent.error_refl e) hfs

theorem ofResult_same {result result' : Except Error Value} (hw : L.SameWorld a g w w')
    (hresult : SameResult (L.SameValue a) result result') (hfs : L.SameFrames a b .value g fs fs') :
    L.SameMachine a b (ofResult result fs w) (ofResult result' fs' w') := by
  cases hresult with
  | ok hv => exact .value hw hv hfs
  | error e => exact failing_same e hw hfs

theorem enterBody_follows {body body' : List Stmt} (hw : L.SameWorld a g w w') (hg : g ≠ some 0)
    (hbody : L.SameTree g (.body body) (.body body'))
    (hfs : L.SameFrames a b .completion g fs fs') :
    L.Follows a b (enterBody body fs w) (enterBody body' fs' w') := by
  obtain ⟨a', ha, hdefined⟩ := Lawful.defineFunctions hw hg hbody
  exact ⟨a', ha, .completed hdefined .normal
    (.frame (.sequence (Coherent.turns hbody)) rfl (hfs.mono ha))⟩

theorem enterScope_follows {bindings bindings' : Bindings Value} {g' : Gap} {outer outer' : Env}
    {body body' : List Stmt} (hw : L.SameWorld a g w w')
    (hbindings : Bindings.Same (L.SameValue a) bindings bindings')
    (houter : L.SameEnv a g' outer outer') (hbody : L.SameTree g'.inner (.body body) (.body body'))
    (hfs : L.SameFrames a b .completion g fs fs') :
    L.Follows a b (enterScope bindings outer body fs w)
      (enterScope bindings' outer' body' fs' w') := by
  obtain ⟨a', ha, hscope, henv⟩ := hw.newScope hbindings
  have hrestore := SameFrames.frame (.restore (g := g'.inner) (hw.env.mono ha)) rfl
    (hfs.mono ha)
  exact .of_grows ha (enterBody_follows (hscope.withEnv (henv houter)) g'.inner_ne_zero hbody
    hrestore)

theorem enterFunction_follows {c c' : Closure} {arguments arguments' : List Value}
    (hw : L.SameWorld a g w w') (hc : L.SameFunction a c c')
    (harguments : List.Forall₂ (L.SameValue a) arguments arguments')
    (hfs : L.SameFrames a b .value g fs fs') :
    L.Follows a b (enterFunction c arguments fs w) (enterFunction c' arguments' fs' w') := by
  have hfinish := SameFrames.frame (.finish (g := g) hc) rfl hfs
  obtain ⟨g', henv, hdecl, -⟩ := hc
  have halike := Coherent.alike rfl hdecl
  unfold enterFunction
  rw [halike.params_eq]
  exact enterScope_follows hw ((Bindings.Same.empty _).putAll _ harguments) henv halike.body_of
    hfinish

theorem functionResult_same {c c' : Closure} {k k' : Completion} (hw : L.SameWorld a g w w')
    (hc : L.SameFunction a c c') (hk : L.SameCompletion a k k') :
    SameResult (L.SameValue a) (functionResult c k w) (functionResult c' k' w') := by
  have hdisplay := hc.display_eq
  obtain ⟨g', henv, hdecl, hinitializer, hg⟩ := hc
  unfold functionResult
  rw [hinitializer, (Coherent.alike rfl hdecl).line_eq]
  split
  · rename_i hinitializes
    have hthis := hw.store.getAt henv 0 "this" c.decl.line
    rwa [g'.distance_zero (hg hinitializes)] at hthis
  · cases hk with
    | normal => exact .ok .nil
    | returned hv => exact .ok hv
    | broken =>
      rw [hdisplay]
      exact .error _

theorem callNative_same {arguments arguments' : List Value} (native : Native) (line : Nat)
    (hw : L.SameWorld a g w w') (harguments : List.Forall₂ (L.SameValue a) arguments arguments')
    (hfs : L.SameFrames a b .value g fs fs') :
    L.SameMachine a b (callNative native arguments line fs w)
      (callNative native arguments' line fs' w') := by
  have hfails := failing_same (.runtime (.other "host function failed") line) hw hfs
  cases native with
  | clock =>
    obtain ⟨hreading, hworld⟩ := hw.readClock
    unfold callNative
    dsimp only
    rw [hreading]
    exact .value hworld (.number _) hfs
  | fails => exact hfails
  | typeOf =>
    rcases harguments with _ | ⟨hv, _ | _⟩
    · exact hfails
    · unfold callNative
      dsimp only
      rw [hv.type_eq]
      exact .value hw (.string _) hfs
    · exact hfails
  | str =>
    rcases harguments with _ | ⟨hv, _ | _⟩
    · exact hfails
    · unfold callNative
      dsimp only
      rw [hv.display_eq]
      exact .value hw (.string _) hfs
    · exact hfails
  | failWith =>
    rcases harguments with _ | ⟨hv, _ | _⟩
    · exact hfails
    · unfold callNative
      dsimp only
      rw [hv.display_eq]
      exact failing_same _ hw hfs
    · exact hfails
  | same =>
    rcases harguments with _ | ⟨hu, _ | ⟨hv, _ | _⟩⟩
    · exact hfails
    · exact hfails
    · unfold callNative
      dsimp only
      rw [hu.equals_eq hw.store hv]
      exact .value hw (.bool _) hfs
    · exact hfails

theorem instantiate_follows {c c' : Class} {arguments arguments' : List Value}
    (hw : L.SameWorld a g w w') (hc : L.SameClass a c c')
    (harguments : List.Forall₂ (L.SameValue a) arguments arguments')
    (hfs : L.SameFrames a b .value g fs fs') :
    L.Follows a b (instantiate c arguments fs w) (instantiate c' arguments' fs' w') := by
  obtain ⟨hid, hworld⟩ := hw.newObject
  have hobject : L.SameValue a (.object w.newObject.1 c) (.object w'.newObject.1 c') := by
    rw [hid]
    exact .object _ hc
  have hfound := hc.findMethod? Class.initializerName
  unfold instantiate
  dsimp only
  generalize c.findMethod? Class.initializerName = found,
    c'.findMethod? Class.initializerName = found' at hfound
  cases hfound with
  | none => exact (SameMachine.value hworld hobject hfs).follows
  | some hmethod =>
    obtain ⟨a', ha, hinitializer, hbound⟩ := hworld.bind hmethod hobject
    exact .of_grows ha (enterFunction_follows hbound hinitializer
      (harguments.imp fun _ _ hv => hv.mono ha)
      (.frame (.created (hobject.mono ha)) rfl (hfs.mono ha)))

theorem invoke_follows {callee callee' : Value} {arguments arguments' : List Value} (line : Nat)
    (hw : L.SameWorld a g w w') (hcallee : L.SameValue a callee callee')
    (harguments : List.Forall₂ (L.SameValue a) arguments arguments')
    (hfs : L.SameFrames a b .value g fs fs') :
    L.Follows a b (invoke callee arguments line fs w) (invoke callee' arguments' line fs' w') := by
  have hvalue := (SameMachine.value hw hcallee hfs).follows
  cases hcallee with
  | function hid hc | method hid hc => exact enterFunction_follows hw hc harguments hfs
  | native host hid => exact (callNative_same host line hw harguments hfs).follows
  | classRef hc => exact instantiate_follows hw hc harguments hfs
  | _ => exact hvalue

theorem call_follows {callee callee' : Value} {arguments arguments' : List Value} (line : Nat)
    (hw : L.SameWorld a g w w') (hcallee : L.SameValue a callee callee')
    (harguments : List.Forall₂ (L.SameValue a) arguments arguments')
    (hfs : L.SameFrames a b .value g fs fs') :
    L.Follows a b (call callee arguments line fs w) (call callee' arguments' line fs' w') := by
  have hfailing (e : Error) := (failing_same e hw hfs).follows
  unfold call
  rw [hcallee.arity?_eq, hcallee.type_eq, harguments.length_eq, hw.depth, hw.maxDepth]
  split
  · exact hfailing _
  split
  · exact hfailing _
  split
  · exact hfailing _
  · exact invoke_follows line { hw with depth := rfl, maxDepth := rfl } hcallee harguments
      (.frame .leave rfl hfs)

/-! ## Classes and instances -/

theorem methodTable_same {env env' : Env} {decls decls' : List FunDecl}
    (henv : L.SameEnv a g env env')
    (hdecls : L.SameTree g.inner (.methods decls) (.methods decls')) :
    Bindings.Same (L.SameMethod a) (methodTable env decls) (methodTable env' decls') := by
  have hall : List.Forall₂ (fun decl decl' => L.SameTree g.inner (.function decl) (.function decl'))
      decls decls' := by
    induction decls generalizing decls' with
    | nil =>
      cases Coherent.alike rfl hdecls
      exact .nil
    | cons decl decls ih =>
      cases Coherent.alike rfl hdecls with
      | method hdecl hdecls => exact .cons hdecl (ih hdecls)
  refine List.rel_foldl ?_ (Bindings.Same.empty _) hall
  intro table table' htable decl decl' hdecl
  dsimp only
  rw [(Coherent.alike rfl hdecl).name_eq]
  split
  · exact htable
  · rename_i name _
    exact htable.put name.name ⟨g, henv, hdecl, rfl⟩

theorem finishClass_follows {g' : Gap} {env env' : Env} {inherited inherited' : List Layer}
    {decls decls' : List FunDecl} (name : Ident) (hw : L.SameWorld a g w w')
    (henv : L.SameEnv a g' env env')
    (hdecls : L.SameTree g'.inner (.methods decls) (.methods decls'))
    (hinherited : L.SameLayers a inherited inherited')
    (hfs : L.SameFrames a b .completion g fs fs') :
    L.Follows a b (finishClass name env inherited decls fs w)
      (finishClass name env' inherited' decls' fs' w') := by
  obtain ⟨a', ha, hworld, hid⟩ := hw.newId
  have htable := methodTable_same (henv.mono ha) hdecls
  have hclass : L.SameValue a'
      (.classRef ⟨⟨w.newId.1, name.name, methodTable env decls⟩, inherited⟩)
      (.classRef ⟨⟨w'.newId.1, name.name, methodTable env' decls'⟩, inherited'⟩) :=
    .classRef (SameLayers.cons hid name.name htable (hinherited.mono ha))
  obtain ⟨hdone, hstore⟩ := hworld.store.assign hworld.env name.name hclass name.line
  refine ⟨a', ha, ?_⟩
  unfold finishClass
  dsimp only
  rw [hdone]
  split
  · exact .completed (hworld.withStore hstore hworld.env) .normal (hfs.mono ha)
  · exact failing_same _ (hworld.withStore hstore hworld.env) (hfs.mono ha)

theorem makeClass_follows {decls decls' : List FunDecl} (name : Ident) (hw : L.SameWorld a g w w')
    (hg : g ≠ some 0) (hdecls : L.SameTree g.inner (.methods decls) (.methods decls'))
    (hfs : L.SameFrames a b .completion g fs fs') :
    L.Follows a b (makeClass name none decls fs w) (makeClass name none decls' fs' w') := by
  rw [makeClass_none, makeClass_none]
  exact finishClass_follows name (hw.define hg name.name .nil) hw.env hdecls .nil hfs

theorem makeSubclass_follows {parent parent' : Class} {decls decls' : List FunDecl} (name : Ident)
    (hw : L.SameWorld a g w w') (hg : g ≠ some 0) (hparent : L.SameClass a parent parent')
    (hdecls : L.SameTree g.inner.inner (.methods decls) (.methods decls'))
    (hfs : L.SameFrames a b .completion g fs fs') :
    L.Follows a b (makeClass name (some parent) decls fs w)
      (makeClass name (some parent') decls' fs' w') := by
  obtain ⟨a', ha, hscope, henv⟩ :=
    (hw.define hg name.name .nil).newScope (.single "super" (.classRef hparent))
  rw [makeClass_some, makeClass_some]
  exact .of_grows ha (finishClass_follows name hscope (henv hw.env) hdecls
    (SameLayers.mono ha hparent) (hfs.mono ha))

theorem getProperty_follows {c c' : Class} (id : ObjectId) (name : Ident)
    (hw : L.SameWorld a g w w') (hc : L.SameClass a c c') (hfs : L.SameFrames a b .value g fs fs') :
    L.Follows a b (getProperty id c name fs w) (getProperty id c' name fs' w') := by
  have hfield := Coherent.field? hw.store id name.name
  have hfound := hc.findMethod? name.name
  unfold getProperty
  generalize w.store.field? id name.name = field, w'.store.field? id name.name = field' at hfield
  generalize c.findMethod? name.name = found, c'.findMethod? name.name = found' at hfound
  cases hfield with
  | some hv => exact (SameMachine.value hw hv hfs).follows
  | none =>
    cases hfound with
    | none => exact (failing_same _ hw hfs).follows
    | some hmethod =>
      obtain ⟨a', ha, hv, hworld⟩ := hw.boundMethod hmethod (.object id hc)
      exact ⟨a', ha, .value hworld hv (hfs.mono ha)⟩

/-- The receiver stays one scope inside the superclass. -/
theorem superParts_same (line : Nat) {slot : Slot} (hw : L.SameWorld a g w w')
    (hslot : ∀ d, slot = some (.atDistance d) → g ≠ some d) :
    SameResult (fun parts parts' => L.SameClass a parts.1 parts'.1 ∧ L.SameValue a parts.2 parts'.2)
      (superParts line slot w) (superParts line (g.slot slot) w') := by
  rcases slot with _ | d | _
  · exact .error _
  · have hsuper := hw.store.getAt hw.env d "super" line
    have hd := hslot d rfl
    unfold superParts Gap.slot
    dsimp only
    generalize w.store.getAt w.env d "super" line = found,
      w'.store.getAt w'.env (g.distance d) "super" line = found' at hsuper
    cases hsuper with
    | error e => exact .error e
    | ok hv =>
      cases hv with
      | classRef hc =>
        cases d with
        | zero =>
          rw [g.distance_zero hd]
          exact .error _
        | succ d =>
          have hthis := hw.store.getAt hw.env d "this" line
          rw [g.distance_succ d hd]
          change SameResult _ (w.store.getAt w.env d "this" line >>= _)
            (w'.store.getAt w'.env (g.distance d) "this" line >>= _)
          generalize w.store.getAt w.env d "this" line = receiver,
            w'.store.getAt w'.env (g.distance d) "this" line = receiver' at hthis
          cases hthis with
          | error e => exact .error e
          | ok hv =>
            cases hv with
            | object id hown => exact .ok ⟨hc, .object id hown⟩
            | _ => exact .error _
      | _ => exact .error _
  · exact .error _

theorem evaluateSuper_follows (line : Nat) (method : Ident) {slot : Slot}
    (hw : L.SameWorld a g w w') (hslot : ∀ d, slot = some (.atDistance d) → g ≠ some d)
    (hfs : L.SameFrames a b .value g fs fs') :
    L.Follows a b (evaluateSuper line method slot fs w)
      (evaluateSuper line method (g.slot slot) fs' w') := by
  have hparts := superParts_same line hw hslot
  unfold evaluateSuper
  generalize superParts line slot w = parts, superParts line (g.slot slot) w' = parts' at hparts
  cases hparts with
  | error e => exact (failing_same e hw hfs).follows
  | @ok parts parts' hsame =>
    obtain ⟨c, receiver⟩ := parts
    obtain ⟨c', receiver'⟩ := parts'
    obtain ⟨hc, hreceiver⟩ := hsame
    have hfound := SameClass.findMethod? hc method.name
    dsimp only at hfound ⊢
    generalize c.findMethod? method.name = found, c'.findMethod? method.name = found' at hfound
    cases hfound with
    | none => exact (failing_same _ hw hfs).follows
    | some hmethod =>
      obtain ⟨a', ha, hv, hworld⟩ := hw.boundMethod hmethod hreceiver
      exact ⟨a', ha, .value hworld hv (hfs.mono ha)⟩

/-! ## The kinds of steps -/

theorem evaluate_follows {e e' : Expr} (hw : L.SameWorld a g w w')
    (he : L.SameTree g (.expr e) (.expr e')) (hfs : L.SameFrames a b .value g fs fs') :
    L.Follows a b (evaluate e fs w) (evaluate e' fs' w') := by
  cases Coherent.alike rfl he with
  | literal value line => exact (SameMachine.value hw (.ofLiteral a value) hfs).follows
  | group hinner => exact (SameMachine.evaluate hw hinner hfs).follows
  | «variable» name slot => exact (ofResult_same hw (hw.read name.name name.line slot) hfs).follows
  | assign name slot hvalue =>
    exact (SameMachine.evaluate hw hvalue (.frame (.assign name slot) rfl hfs)).follows
  | unary op line hoperand =>
    exact (SameMachine.evaluate hw hoperand (.frame (.unary op line) rfl hfs)).follows
  | binary op line hleft hright =>
    exact (SameMachine.evaluate hw hleft (.frame (.left op line hright) rfl hfs)).follows
  | logical op line hleft hright =>
    exact (SameMachine.evaluate hw hleft (.frame (.logical op hright) rfl hfs)).follows
  | call line hcallee harguments =>
    exact (SameMachine.evaluate hw hcallee (.frame (.callee line harguments) rfl hfs)).follows
  | get name hobject =>
    exact (SameMachine.evaluate hw hobject (.frame (.get name) rfl hfs)).follows
  | set name hobject hvalue =>
    exact (SameMachine.evaluate hw hobject (.frame (.setTarget name hvalue) rfl hfs)).follows
  | this line slot => exact (ofResult_same hw (hw.read "this" line slot) hfs).follows
  | super line method hslot => exact evaluateSuper_follows line method hw hslot hfs
  | lambda hdecl =>
    obtain ⟨a', ha, hf, hworld⟩ := hw.makeFunction hdecl
    exact ⟨a', ha, .value hworld hf (hfs.mono ha)⟩

theorem execute_follows {s s' : Stmt} (hw : L.SameWorld a g w w')
    (hs : L.SameTree g (.stmt s) (.stmt s')) (hfs : L.SameFrames a b .completion g fs fs') :
    L.Follows a b (execute s fs w) (execute s' fs' w') := by
  cases Coherent.alike rfl hs with
  | expression hvalue =>
    exact (SameMachine.evaluate hw hvalue (.frame .discard rfl hfs)).follows
  | print hvalue => exact (SameMachine.evaluate hw hvalue (.frame .print rfl hfs)).follows
  | var name hg =>
    exact (SameMachine.completed (hw.define hg name.name .nil) .normal hfs).follows
  | varWith name hg hvalue =>
    exact (SameMachine.evaluate hw hvalue (.frame (.define name hg) rfl hfs)).follows
  | block hbody => exact enterScope_follows hw (.empty _) hw.env hbody hfs
  | cond hcondition hthen =>
    exact (SameMachine.evaluate hw hcondition (.frame (.branch hthen) rfl hfs)).follows
  | condElse hcondition hthen helse =>
    exact (SameMachine.evaluate hw hcondition (.frame (.branchElse hthen helse) rfl hfs)).follows
  | loop hcondition hbody =>
    exact (SameMachine.evaluate hw hcondition (.frame (.test hcondition hbody) rfl hfs)).follows
  | functionDecl hg hdecl =>
    obtain ⟨a', ha, hworld⟩ := hw.defineFunction hg hdecl
    exact ⟨a', ha, .completed hworld .normal (hfs.mono ha)⟩
  | ret line => exact (SameMachine.completed hw (.returned .nil) hfs).follows
  | retWith line hvalue => exact (SameMachine.evaluate hw hvalue (.frame .ret rfl hfs)).follows
  | brk line => exact (SameMachine.completed hw .broken hfs).follows
  | classDecl name hg hdecls => exact makeClass_follows name hw hg hdecls hfs
  | subclassDecl name parent slot hg hparent hdecls =>
    exact (SameMachine.evaluate hw hparent
      (.frame (.inherit name parent.line hg hdecls) rfl hfs)).follows

theorem passValue_follows {g' : Gap} {f f' : Frame} {v v' : Value} (hw : L.SameWorld a g w w')
    (hv : L.SameValue a v v') (hframe : L.SameFrame a g g' f f') (htakes : f.takes = .value)
    (hfs : L.SameFrames a b f.gives g' fs fs') :
    L.Follows a b (passValue v f fs w) (passValue v' f' fs' w') := by
  cases hframe with
  | assign name slot =>
    obtain ⟨hdone, hworld⟩ := hw.assign name hv slot
    unfold passValue
    dsimp only
    rw [hdone]
    split
    · exact (SameMachine.value hworld hv hfs).follows
    · exact (failing_same _ hworld hfs).follows
  | unary op line => exact (ofResult_same hw (op.apply_same hv line) hfs).follows
  | left op line hright =>
    exact (SameMachine.evaluate hw hright (.frame (.right op line hv) rfl hfs)).follows
  | right op line hleft =>
    have hequals := hleft.equals_eq hw.store hv
    exact (ofResult_same hw (op.apply_same hequals hleft hv line) hfs).follows
  | logical op hright =>
    unfold passValue
    dsimp only
    rw [op.decides_same hv]
    split
    · exact (SameMachine.value hw hv hfs).follows
    · exact (SameMachine.evaluate hw hright hfs).follows
  | callee line harguments =>
    cases Coherent.alike rfl harguments with
    | noArgument => exact call_follows line hw hv .nil hfs
    | argument hfirst hrest =>
      exact (SameMachine.evaluate hw hfirst (.frame (.argument line hv .nil hrest) rfl hfs)).follows
  | argument line hcalled hbefore hrest =>
    have hall := List.Forall₂.cons hv hbefore
    cases Coherent.alike rfl hrest with
    | noArgument => exact call_follows line hw hcalled (List.rel_reverse hall) hfs
    | argument hnext hrest =>
      exact (SameMachine.evaluate hw hnext
        (.frame (.argument line hcalled hall hrest) rfl hfs)).follows
  | get name =>
    cases hv with
    | object id hc => exact getProperty_follows id name hw hc hfs
    | _ => exact (failing_same _ hw hfs).follows
  | setTarget name hvalue =>
    cases hv with
    | object id hc =>
      exact (SameMachine.evaluate hw hvalue (.frame (.setField id name) rfl hfs)).follows
    | _ => exact (failing_same _ hw hfs).follows
  | setField object name =>
    exact (SameMachine.value (hw.setField object name.name hv) hv hfs).follows
  | discard => exact (SameMachine.completed hw .normal hfs).follows
  | print =>
    obtain ⟨hdone, hworld⟩ := hw.print v.display
    unfold passValue
    dsimp only
    rw [hv.display_eq, hdone]
    split
    · exact (SameMachine.completed hworld .normal hfs).follows
    · exact (failing_same _ hworld hfs).follows
  | define name hg => exact (SameMachine.completed (hw.define hg name.name hv) .normal hfs).follows
  | branch hthen =>
    unfold passValue
    dsimp only
    rw [hv.isTruthy_eq]
    split
    · exact (SameMachine.execute hw hthen hfs).follows
    · exact (SameMachine.completed hw .normal hfs).follows
  | branchElse hthen helse =>
    unfold passValue
    dsimp only
    rw [hv.isTruthy_eq]
    split
    · exact (SameMachine.execute hw hthen hfs).follows
    · exact (SameMachine.execute hw helse hfs).follows
  | test hcondition hbody =>
    unfold passValue
    dsimp only
    rw [hv.isTruthy_eq]
    split
    · exact (SameMachine.execute hw hbody (.frame (.again hcondition hbody) rfl hfs)).follows
    · exact (SameMachine.completed hw .normal hfs).follows
  | ret => exact (SameMachine.completed hw (.returned hv) hfs).follows
  | inherit name line hg hdecls =>
    cases hv with
    | classRef hc => exact makeSubclass_follows name hw hg hc hdecls hfs
    | _ => exact (failing_same _ hw hfs).follows
  | created hobject => exact (SameMachine.value hw hobject hfs).follows
  | leave => exact (SameMachine.value hw.leave hv hfs).follows
  | again | sequence | restore | finish | top => cases htakes

/-- The next statement of a body. A function has been made already, and is passed over. -/
theorem passSequence_same {rest rest' : List Stmt} (hw : L.SameWorld a g w w')
    (hrest : List.Forall₂ (SameTurn L.SameTree g) rest rest')
    (hfs : L.SameFrames a b .completion g fs fs') :
    L.SameMachine a b (passCompletion .normal (.sequence rest) fs w)
      (passCompletion .normal (.sequence rest') fs' w') := by
  cases hrest with
  | nil => exact .completed hw .normal hfs
  | @cons s s' rest rest' hs hrest =>
    have hframes := SameFrames.frame (SameFrame.sequence hrest) rfl hfs
    have hkind : s'.isFunction = s.isFunction := by
      rcases hs with ⟨hs, hs'⟩ | hs
      · rw [hs, hs']
      · exact (Coherent.alike rfl hs).isFunction_eq
    cases hfunction : s.isFunction with
    | true =>
      rw [hfunction] at hkind
      cases s with
      | function f =>
        cases s' with
        | function f' => exact .completed hw .normal hframes
        | _ => cases hkind
      | _ => cases hfunction
    | false =>
      rw [hfunction] at hkind
      rw [passCompletion_sequence hfunction, passCompletion_sequence hkind]
      rcases hs with ⟨hs, -⟩ | hs
      · rw [hfunction] at hs
        cases hs
      · exact .execute hw hs hframes

theorem passCompletion_same {g' : Gap} {f f' : Frame} {k k' : Completion}
    (hw : L.SameWorld a g w w') (hk : L.SameCompletion a k k') (hframe : L.SameFrame a g g' f f')
    (htakes : f.takes = .completion) (hfs : L.SameFrames a b f.gives g' fs fs') :
    L.SameMachine a b (passCompletion k f fs w) (passCompletion k' f' fs' w') := by
  cases hframe with
  | sequence hrest =>
    cases hk with
    | normal => exact passSequence_same hw hrest hfs
    | returned hv =>
      rw [passCompletion_sequence_of_ne (by simp), passCompletion_sequence_of_ne (by simp)]
      exact .completed hw (.returned hv) hfs
    | broken =>
      rw [passCompletion_sequence_of_ne (by simp), passCompletion_sequence_of_ne (by simp)]
      exact .completed hw .broken hfs
  | again hcondition hbody =>
    cases hk with
    | normal => exact .evaluate hw hcondition (.frame (.test hcondition hbody) rfl hfs)
    | returned hv => exact .completed hw (.returned hv) hfs
    | broken => exact .completed hw .normal hfs
  | restore henv =>
    have hrestored {k : Completion} {fs : List Frame} {w : World} {env : Env} :
        passCompletion k (.restore env) fs w = ⟨.completed k, fs, { w with env := env }⟩ := by
      cases k <;> rfl
    rw [hrestored, hrestored]
    exact .completed (hw.withEnv henv) hk hfs
  | finish hc =>
    have hfinished {k : Completion} {fs : List Frame} {w : World} {c : Closure} :
        passCompletion k (.finish c) fs w = ofResult (functionResult c k w) fs w := by
      cases k <;> rfl
    rw [hfinished, hfinished]
    exact ofResult_same hw (functionResult_same hw hc hk) hfs
  | @top rest rest' line line' herror hrest =>
    have hsignal {k k' : Completion} (hk : k ≠ .normal) (hk' : k' ≠ .normal) :
        L.SameMachine a b (passCompletion k (.top line rest) fs w)
          (passCompletion k' (.top line' rest') fs' w') := by
      rw [passCompletion_top_of_ne hk, passCompletion_top_of_ne hk']
      exact .failed hw (herror _ _) hfs
    cases hk with
    | normal =>
      cases hrest with
      | nil => exact .completed hw .normal hfs
      | cons hs hrest => exact .execute hw hs (.frame (.top _ _ herror hrest) rfl hfs)
    | returned hv => exact hsignal (by simp) (by simp)
    | broken => exact hsignal (by simp) (by simp)
  | _ => cases htakes

theorem passError_same {g' : Gap} {f f' : Frame} {e e' : Error} (hw : L.SameWorld a g w w')
    (he : L.SameError e e') (hframe : L.SameFrame a g g' f f')
    (hfs : L.SameFrames a b f.gives g' fs fs') :
    L.SameMachine a b (passError e f fs w) (passError e' f' fs' w') := by
  cases hframe with
  | restore henv => exact .failed (hw.withEnv henv) he hfs
  | leave => exact .failed hw.leave he hfs
  | top => exact .failed { hw with env := hw.store.topEnv, depth := rfl } he hfs
  | _ => exact .failed hw he hfs

/-- The machines go on in lockstep until the first one has nothing left to do. -/
theorem step_follows {m m' : Machine} (h : L.SameMachine a b m m') (hbusy : m.isFinal = false) :
    L.Follows a b m.step m'.step := by
  cases h with
  | evaluate hw he hfs => exact evaluate_follows hw he hfs
  | execute hw hs hfs => exact execute_follows hw hs hfs
  | value hw hv hfs =>
    cases hfs with
    | basis => cases hbusy
    | frame hframe htakes hfs => exact passValue_follows hw hv hframe htakes hfs
  | completed hw hk hfs =>
    cases hfs with
    | basis => cases hbusy
    | frame hframe htakes hfs => exact (passCompletion_same hw hk hframe htakes hfs).follows
  | failed hw he hfs =>
    cases hfs with
    | basis => cases hbusy
    | frame hframe _ hfs => exact (passError_same hw he hframe hfs).follows

end Machine

/-! ## The end of a run -/

namespace Lockstep

variable {L : Lockstep} {a : L.Stage} {b : Basis}

theorem SameFrames.length_eq {given : Handed} {g : Gap} {fs fs' : List Frame}
    (h : L.SameFrames a b given g fs fs') : fs'.length = fs.length + b.frames.length := by
  induction h with
  | basis => simp
  | frame _ _ _ ih =>
    rw [List.length_cons, List.length_cons, ih]
    omega

/-- What the first machine ends with is handed to the frames of the basis. -/
inductive SameEnd (L : Lockstep) (a : L.Stage) (b : Basis) : Machine → Machine → Prop where
  | value {v v' : Value} {w w' : World} : b.wanted = .value → L.SameWorld a b.gap w w' →
      L.SameValue a v v' → SameEnd L a b ⟨.value v, [], w⟩ ⟨.value v', b.frames, w'⟩
  | completed {c c' : Completion} {w w' : World} : b.wanted = .completion →
      L.SameWorld a b.gap w w' → L.SameCompletion a c c' →
      SameEnd L a b ⟨.completed c, [], w⟩ ⟨.completed c', b.frames, w'⟩
  | failed {e e' : Error} {w w' : World} : L.SameWorld a b.gap w w' → L.SameError e e' →
      SameEnd L a b ⟨.failed e, [], w⟩ ⟨.failed e', b.frames, w'⟩

namespace SameMachine
variable {m m' : Machine}

theorem atEnd (h : L.SameMachine a b m m') (hfinal : m.isFinal = true) : L.SameEnd a b m m' := by
  cases h with
  | evaluate | execute => simp [Machine.isFinal] at hfinal
  | value hw hv hfs =>
    cases hfs with
    | basis hgiven hgap =>
      subst hgap
      exact .value hgiven.symm hw hv
    | frame => cases hfinal
  | completed hw hc hfs =>
    cases hfs with
    | basis hgiven hgap =>
      subst hgap
      exact .completed hgiven.symm hw hc
    | frame => cases hfinal
  | failed hw he hfs =>
    cases hfs with
    | basis hgiven hgap =>
      subst hgap
      exact .failed hw he
    | frame => cases hfinal

theorem length_le (h : L.SameMachine a b m m') : b.frames.length ≤ m'.frames.length := by
  cases h with
  | evaluate _ _ hfs | execute _ _ hfs | value _ _ hfs | completed _ _ hfs | failed _ _ hfs =>
    rw [hfs.length_eq]
    exact Nat.le_add_left _ _

theorem world (h : L.SameMachine a b m m') : ∃ g, L.SameWorld a g m.world m'.world := by
  cases h with
  | evaluate hw | execute hw | value hw | completed hw | failed hw => exact ⟨_, hw⟩

/-- Both programs have written the same. -/
theorem sink_eq (h : L.SameMachine a b m m') : m'.world.sink = m.world.sink := by
  obtain ⟨g, hw⟩ := h.world
  exact hw.sink

/-- Without frames below, both machines end after the same number of steps. -/
theorem after_follows [L.Lawful] {wanted : Handed} {g : Gap}
    (h : L.SameMachine a ⟨[], wanted, g⟩ m m') (n : Nat) :
    L.Follows a ⟨[], wanted, g⟩ (m.after n) (m'.after n) := by
  induction n with
  | zero => exact h.follows
  | succ n ih =>
    obtain ⟨a', ha, hsame⟩ := ih
    rw [Machine.after, Machine.after]
    cases hfinal : (m.after n).isFinal with
    | false => exact (Machine.step_follows hsame hfinal).of_grows ha
    | true =>
      have hfinal' : (m'.after n).isFinal = true := by
        have hend := hsame.atEnd hfinal
        generalize m.after n = m₁, m'.after n = m₁' at hend
        cases hend <;> rfl
      rw [Machine.step_eq_self_of_isFinal hfinal, Machine.step_eq_self_of_isFinal hfinal']
      exact ⟨a', ha, hsame⟩

end SameMachine

end Lockstep

end Lox
