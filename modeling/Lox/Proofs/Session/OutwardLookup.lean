import Lox.Proofs.Machine.Environments
import Lox.Proofs.Scoping.Occurrences
import Lox.Proofs.Session.Scopes

/-!
# Slots and outward lookup

A name can also be looked up without its slot, in the nearest scope that binds it. In a program
that declares no name twice, at most one scope in force ever binds a name, so both ways lead to the
same scope. Then a machine that looks names up outward goes through the same states as one that
follows the slots.
-/

set_option autoImplicit false

namespace Lox

open Scoping ResolveM

/-! ## Machines that look names up outward -/

namespace Machine

/-- One step, in which variables are read and assigned in the nearest scope that binds them. -/
def outwardStep (m : Machine) : Machine :=
  match m with
  | ⟨.evaluate (.variable name _), frames, w⟩ =>
    ofResult (w.store.get w.env name.name name.line) frames w
  | ⟨.value v, .assign name _ :: frames, w⟩ =>
    let (done, store) := w.store.assign w.env name.name v name.line
    match done with
    | .ok () => ⟨.value v, frames, { w with store := store }⟩
    | .error e => failing e frames { w with store := store }
  | m => m.step

/-- Up to `fuel` steps with outward lookup, fewer if there is nothing left to do. -/
def outwardRun : Nat → Machine → Machine
  | 0, m => m
  | fuel + 1, m => if m.isFinal then m else outwardRun fuel m.outwardStep

end Machine

/-- Runs a source text as a program with outward lookup. -/
def Session.runOutward (fuel : Nat) (source : String) (s : Session) :
    Option (Except Error Unit × Session) :=
  match parseProgram source >>= resolveProgram with
  | .error e => some (.error e, s)
  | .ok p => ((Machine.running p s).outwardRun fuel).programResult?

/-! ## Lookup with one candidate -/

namespace Store

variable {σ : Store} {env : Env} {id : ScopeId} {x : String}

/-- If no other scope binds the name, only that scope matters. -/
theorem nearest?_of_only (hid : id ∈ env) (honly : ∀ id' ∈ env, σ.Binds id' x → id' = id) :
    σ.nearest? env x = σ.nearest? [id] x := by
  cases hnearest : σ.nearest? env x with
  | none =>
    have hnone : ¬ (σ.find? id x).isSome = true := List.find?_eq_none.1 hnearest id hid
    simp [nearest?, hnone]
  | some id' =>
    have hbinds : (σ.find? id' x).isSome = true :=
      List.find?_some (p := fun id => (σ.find? id x).isSome) hnearest
    obtain rfl := honly id' (List.mem_of_find?_eq_some hnearest) hbinds
    simp [nearest?, hbinds]

theorem get_eq_of_only (hid : id ∈ env) (honly : ∀ id' ∈ env, σ.Binds id' x → id' = id)
    (line : Nat) : σ.get env x line = σ.get [id] x line := by
  rw [get_nearest, nearest?_of_only hid honly, ← get_nearest]

theorem assign_eq_of_only (hid : id ∈ env) (honly : ∀ id' ∈ env, σ.Binds id' x → id' = id)
    (v : Value) (line : Nat) : σ.assign env x v line = σ.assign [id] x v line := by
  rw [assign_nearest, nearest?_of_only hid honly, ← assign_nearest]

end Store

/-! ## Names that are declared once -/

/-- A scope in force is the top level or was made for one of the origins. -/
theorem Fits.origin_of_mem {shapes : Shapes} {env : Env} {os : List ScopeOrigin} {id : ScopeId}
    (h : Fits shapes env os) (hid : id ∈ env) :
    id = 0 ∨ ∃ (d : Nat) (o : ScopeOrigin), env[d]? = some id ∧ os[d]? = some o ∧
      shapes.origin? id = some o := by
  induction h with
  | top => exact Or.inl (List.mem_singleton.1 hid)
  | @scope first env o os horigin _ ih =>
    rcases List.mem_cons.1 hid with rfl | hid
    · exact Or.inr ⟨0, o, rfl, rfl, horigin⟩
    · rcases ih hid with htop | ⟨d, o', hd, ho', horigin'⟩
      · exact Or.inl htop
      · exact Or.inr ⟨d + 1, o', hd, ho', horigin'⟩

theorem ScopeOrigin.mem_declared {o : ScopeOrigin} {x : String} (hx : x ∈ o.names)
    (hplain : Plain x) : x ∈ o.declared := by
  cases o with
  | block | function => exact hx
  | receiver => exact absurd (List.mem_singleton.1 hx) hplain.1
  | superclass => exact absurd (List.mem_singleton.1 hx) hplain.2

/-- A session that is given this program and no host function but the clock. -/
def Corpus.only (p : Program) : Corpus :=
  ⟨(· = p), (· = .clock)⟩

/-- No name is declared twice or is that of the clock, and no name that is looked up at top level is
declared in a scope. -/
structure Program.Unambiguous (p q : Program) : Prop where
  once : p.declared.Nodup
  clock : Native.clock.name ∉ p.declared
  global : ∀ occurrence ∈ q.occurrences, occurrence.2 = some .atTop → occurrence.1 ∉ p.locals

namespace World

variable {p : Program} {shapes : Shapes} {os : List ScopeOrigin} {r : Scoping} {w : World}
  {node : Node} {x : String}

theorem mem_locals (hknown : KnownIn (.only p) ⟨os, r, node⟩) {d : Nat} {o : ScopeOrigin}
    (ho : os[d]? = some o) (hx : x ∈ o.declared) : x ∈ p.locals := by
  obtain ⟨_, rfl, -, hvisited⟩ := hknown
  have hcount := hvisited.count_declared x
  rw [Site.count_declared] at hcount
  have hpos : 0 < (os.flatMap ScopeOrigin.declared).count x :=
    List.count_pos_iff.2 (List.mem_flatMap.2 ⟨o, List.mem_of_getElem? ho, hx⟩)
  exact List.count_pos_iff.1 (by omega)

/-- The top level does not bind a name that is declared in a scope. -/
theorem not_names_of_local (honce : p.declared.Nodup) (hclock : Native.clock.name ∉ p.declared)
    (hx : x ∈ p.locals) : ¬ (Corpus.only p).Names x := by
  have hcount := p.count_declared x
  have hlocal := List.count_pos_iff.2 hx
  have hle := List.nodup_iff_count.1 honce x
  rintro (⟨_, rfl, hglobal⟩ | ⟨_, rfl, rfl⟩)
  · have hglobal := List.count_pos_iff.2 hglobal
    omega
  · exact hclock (List.count_pos_iff.1 (by omega))

/-- Only the scope that the slot leads to can bind the name of an occurrence. -/
theorem At.only_scope (hat : w.At (.only p) shapes os r)
    (hknown : KnownIn (.only p) ⟨os, r, node⟩)
    (hp : p.Unambiguous ((resolveTop p).outcome .fresh)) (hplain : Plain x)
    (hx : (x, some (r.binding x)) ∈ Site.occurrences ⟨os, r, node⟩) :
    ∃ id ∈ w.env, (∀ id' ∈ w.env, w.store.Binds id' x → id' = id) ∧
      (r.binding x = .atTop ∧ id = 0 ∨ ∃ d, r.binding x = .atDistance d ∧ w.env[d]? = some id) := by
  have hbinder : ∀ id' ∈ w.env, w.store.Binds id' x → (id' = 0 ∧ (Corpus.only p).Names x) ∨
      ∃ (d : Nat) (o : ScopeOrigin), w.env[d]? = some id' ∧ os[d]? = some o ∧ x ∈ o.declared := by
    intro id' hid' hbinds
    obtain ⟨v, hv⟩ := Option.isSome_iff_exists.1 hbinds
    rcases hat.here.fits.origin_of_mem hid' with rfl | ⟨d, o, hd, ho, horigin⟩
    · exact Or.inl ⟨rfl, hat.typed.top hv⟩
    · exact Or.inr ⟨d, o, hd, ho, ScopeOrigin.mem_declared (hat.typed.name hv horigin) hplain⟩
  cases hbinding : r.binding x with
  | atTop =>
    rw [hbinding] at hx
    have hglobal : x ∉ p.locals := by
      obtain ⟨_, rfl, haccepted, hvisited⟩ := hknown
      exact hp.global _ (hvisited.occurrences_subset haccepted hx) rfl
    refine ⟨0, List.mem_of_getLast? hat.here.fits.getLast?_eq, ?_, Or.inl ⟨rfl, rfl⟩⟩
    intro id' hid' hbinds
    rcases hbinder id' hid' hbinds with ⟨htop, -⟩ | ⟨d, o, -, ho, hmem⟩
    · exact htop
    · exact absurd (mem_locals hknown ho hmem) hglobal
  | atDistance d =>
    obtain ⟨id, o, hid, -, ho, hmem⟩ := hat.scope_of_binding hknown hbinding
    have hdeclared := ScopeOrigin.mem_declared hmem hplain
    have hlocal := mem_locals hknown ho hdeclared
    refine ⟨id, List.mem_of_getElem? hid, ?_, Or.inr ⟨d, rfl, hid⟩⟩
    intro id' hid' hbinds
    rcases hbinder id' hid' hbinds with ⟨-, hnames⟩ | ⟨d', o', hd', ho', hmem'⟩
    · exact absurd hnames (not_names_of_local hp.once hp.clock hlocal)
    · have hcount : (os.flatMap ScopeOrigin.declared).count x ≤ 1 := by
        have hprogram := p.count_declared x
        have honce := List.nodup_iff_count.1 hp.once x
        obtain ⟨_, rfl, -, hvisited⟩ := hknown
        have hsite := hvisited.count_declared x
        rw [Site.count_declared] at hsite
        omega
      obtain rfl := eq_of_declared hcount ho ho' hdeclared hmem'
      exact Option.some.inj (hd'.symm.trans hid)

/-- Reading an occurrence through its slot is reading it outward. -/
theorem At.read_eq_get (hat : w.At (.only p) shapes os r)
    (hknown : KnownIn (.only p) ⟨os, r, node⟩)
    (hp : p.Unambiguous ((resolveTop p).outcome .fresh)) (hplain : Plain x)
    (hx : (x, some (r.binding x)) ∈ Site.occurrences ⟨os, r, node⟩) (line : Nat) :
    w.read x line (some (r.binding x)) = w.store.get w.env x line := by
  obtain ⟨id, hid, honly, hscope⟩ := hat.only_scope hknown hp hplain hx
  rw [Store.get_eq_of_only hid honly]
  rcases hscope with ⟨hbinding, rfl⟩ | ⟨d, hbinding, hd⟩
  · rw [hbinding]
    rfl
  · rw [hbinding, read, Store.getAt_eq hd]

theorem At.assign_eq_assign {name : Ident} (hat : w.At (.only p) shapes os r)
    (hknown : KnownIn (.only p) ⟨os, r, node⟩)
    (hp : p.Unambiguous ((resolveTop p).outcome .fresh)) (hplain : Plain name.name)
    (hx : (name.name, some (r.binding name.name)) ∈ Site.occurrences ⟨os, r, node⟩) (v : Value) :
    w.assign name v (some (r.binding name.name)) =
      ((w.store.assign w.env name.name v name.line).1,
        { w with store := (w.store.assign w.env name.name v name.line).2 }) := by
  obtain ⟨id, hid, honly, hscope⟩ := hat.only_scope hknown hp hplain hx
  rw [Store.assign_eq_of_only hid honly]
  rcases hscope with ⟨hbinding, rfl⟩ | ⟨d, hbinding, hd⟩
  · rw [hbinding]
    rfl
  · rw [hbinding, assign, Store.assignAt_eq hd]

end World

/-! ## Runs -/

/-- What the resolver turned into a variable is one. -/
theorem KnownIn.of_variable {C : Corpus} {os : List ScopeOrigin} {r : Scoping} {e : Expr}
    {name : Ident} {slot : Slot} (h : KnownIn C ⟨os, r, .expr e⟩)
    (he : e.resolve.outcome r = .variable name slot) :
    Plain name.name ∧ slot = some (r.binding name.name) := by
  cases e with
  | «variable» name₀ slot₀ =>
    cases he
    refine ⟨?_, rfl⟩
    cases h.proper.regular with
    | «variable» _ hplain => exact hplain
  | this line₀ slot₀ =>
    obtain ⟨d, houtcome, -⟩ := h.this
    rw [houtcome] at he
    cases he
  | super line₀ method₀ slot₀ =>
    obtain ⟨d, houtcome, -⟩ := h.super
    rw [houtcome] at he
    cases he
  | literal | group | assign | unary | binary | logical | call | get | set | lambda => cases he

theorem Agrees.outwardStep_eq {p : Program} {shapes : Shapes} {m : Machine}
    (h : Agrees (.only p) shapes m) (hp : p.Unambiguous ((resolveTop p).outcome .fresh)) :
    m.outwardStep = m.step := by
  unfold Machine.outwardStep
  split
  · rename_i name slot frames w
    generalize hfocus : Focus.evaluate (.variable name slot) = focus at h
    cases h with
    | @evaluate os r e _ _ hat hknown _ =>
      have houtcome := (Focus.evaluate.inj hfocus).symm
      obtain ⟨hplain, rfl⟩ := hknown.of_variable houtcome
      have hx : (name.name, some (r.binding name.name)) ∈ Site.occurrences ⟨os, r, .expr e⟩ := by
        rw [Site.occurrences, houtcome]
        exact List.mem_singleton.2 rfl
      rw [← hat.read_eq_get hknown hp hplain hx, houtcome]
      rfl
    | _ => cases hfocus
  · rename_i v name slot frames w
    cases h with
    | @value os r _ _ _ hat hv hwaits =>
      cases hwaits with
      | @assign _ _ _ _ value slot₀ _ hknown _ =>
        have hplain : Plain name.name := by
          cases hknown.proper.regular with
          | assign _ hplain _ => exact hplain
        have hvalue : KnownIn (.only p) ⟨os, r, .expr value⟩ := hknown.child List.mem_cons_self
        have hx : (name.name, some (r.binding name.name)) ∈
            Site.occurrences ⟨os, r, .expr (.assign name value slot₀)⟩ := by
          show _ ∈ (name.name, some ((value.resolve.after r).binding name.name)) :: _
          rw [hvalue.expr_after]
          exact List.mem_cons_self
        have hassign := hat.assign_eq_assign hknown hp hplain hx v
        dsimp only [Machine.step, Machine.passValue]
        rewrite [hassign]
        rfl
  · rfl

theorem Machine.outwardRun_eq {p : Program} {shapes : Shapes} {m : Machine}
    (h : Agrees (.only p) shapes m) (hp : p.Unambiguous ((resolveTop p).outcome .fresh))
    (fuel : Nat) : m.outwardRun fuel = m.run fuel := by
  induction fuel generalizing shapes m with
  | zero => rfl
  | succ fuel ih =>
    rw [outwardRun, run, h.outwardStep_eq hp]
    obtain ⟨shapes', -, hagrees⟩ := advances_step h
    rw [ih hagrees]

/-- A program that declares each name once, and no local name that it looks up at top level, runs in
a new session as if every variable were looked up outward from the innermost scope in force. -/
theorem outward_lookup_same_run {source : String} {p q : Program}
    (hp : parseProgram source = .ok p) (hq : resolveProgram p = .ok q) (h : p.Unambiguous q)
    (sink : Sink) (reading : Nat → Float) (maxDepth fuel : Nat) :
    Session.runOutward fuel source ((Session.new sink reading).setMaxDepth maxDepth) =
      Session.run fuel source ((Session.new sink reading).setMaxDepth maxDepth) := by
  have hprepared : Task.Prepared (.only p) (.program q) := prepared_program rfl (Or.inl hp) hq
  obtain ⟨-, rfl⟩ := resolved_eq_ok (resolved_of_resolveProgram hq)
  have hinitial := World.ready_initial (C := .only p) rfl sink reading
  have hready : World.Ready (.only p) [] ((Session.new sink reading).setMaxDepth maxDepth) :=
    ⟨hinitial.typed, hinitial.definite⟩
  have hagrees := hprepared.agrees_start hready rfl
  have hparsed : parseProgram source >>= resolveProgram = .ok ((resolveTop p).outcome .fresh) := by
    rw [hp]
    exact hq
  simp only [Session.runOutward, Session.run, hparsed, Session.runTree]
  exact congrArg Machine.programResult? (Machine.outwardRun_eq hagrees h fuel)

/-- Closures that share a variable, and outlive the call that declared it. -/
theorem outward_lookup_same_run_closures :
    let source := "fun a(b) \x7b
        var c;
        class D \x7b put(e) \x7b c = e; b = c; return a; \x7d \x7d
        return D();
      \x7d
      print a(nil).put(true);"
    ∃ p q, parseProgram source = .ok p ∧ resolveProgram p = .ok q ∧ p.Unambiguous q ∧
      ∀ fuel, Session.runOutward fuel source ((Session.new .unlimited fun _ => 0).setMaxDepth 10) =
        Session.run fuel source ((Session.new .unlimited fun _ => 0).setMaxDepth 10) := by
  intro source
  have hcheck : ((parseProgram source).toOption.any fun p =>
      (resolveProgram p).toOption.any fun q => decide (p.declared.Nodup ∧
        Native.clock.name ∉ p.declared ∧ ∀ occurrence ∈ q.occurrences,
          occurrence.2 = some .atTop → occurrence.1 ∉ p.locals)) = true := by decide +kernel
  cases hp : parseProgram source with
  | error e =>
    rw [hp] at hcheck
    cases hcheck
  | ok p =>
    rw [hp] at hcheck
    cases hq : resolveProgram p with
    | error e =>
      simp only [Except.toOption, Option.any, hq] at hcheck
      cases hcheck
    | ok q =>
      simp only [Except.toOption, Option.any, hq] at hcheck
      obtain ⟨honce, hclock, hglobal⟩ := of_decide_eq_true hcheck
      have h : p.Unambiguous q := ⟨honce, hclock, hglobal⟩
      exact ⟨p, q, rfl, hq, h, outward_lookup_same_run hp hq h .unlimited (fun _ => 0) 10⟩

end Lox
