import Lox.Proofs.Grammar.Lookahead
import Lox.Proofs.Machine.ForLoops
import Lox.Proofs.Session.Agreement
import Lox.Proofs.Widening.Scoping

/-!
# The meaning of `for`

The parser rewrites each `for` loop, the resolver resolves names in the rewritten loop, and a
session executes that. This is the loop with the names of its clauses resolved in the scopes that
the loop itself has: the machine does what that loop does, in whatever state it comes to it.
-/

set_option autoImplicit false

namespace Lox

open Scoping ResolveM Machine

namespace ForLoop

/-- No function is declared by the initializer, and nothing at all by the body. -/
structure Admitted (l : ForLoop) : Prop where
  initializer : ∀ s ∈ l.initializer, s.isFunction = false
  body : l.body.isDeclaration = false

/-- What is known where the turns of the loop are. -/
def inner (l : ForLoop) (r : Scoping) : Scoping :=
  match l.initializer with
  | none => r
  | some initializer => initializer.resolve.after (r.enter [])

/-- The loop with names resolved. Only an initializer has a scope of its own. -/
def resolve (l : ForLoop) (r : Scoping) : ForLoop where
  line := l.line
  initializer := l.initializer.map fun s => s.resolve.outcome (r.enter [])
  condition := l.condition.map fun e => e.resolve.outcome (l.inner r)
  increment := l.increment.map fun e => e.resolve.outcome (l.inner r).enterLoop
  body := l.body.resolve.outcome (l.inner r).enterLoop

theorem tested_resolve (l : ForLoop) (r : Scoping) :
    (l.resolve r).tested = l.tested.resolve.outcome (l.inner r) := by
  unfold tested resolve
  cases l.condition <;> rfl

end ForLoop

/-! ## Parsing -/

namespace Grammar

/-- The tokens after the keyword of a `for` statement give the clauses and the body of this loop. -/
inductive DerivesClauses (nearest : Bool) : List Token → ForLoop → Bool → List Token → Prop where
  | clauses {opening semicolon close : Token} {ts ts₁ ts₂ ts₃ rest : List Token} {l : ForLoop}
      {isOpen : Bool} : opening.kind = .symbol .leftParen →
      Derives nearest .forInit ts (.init l.initializer) ts₁ →
      Derives nearest .optional ts₁ (.optional l.condition) (semicolon :: ts₂) →
      semicolon.kind = .symbol .semicolon →
      Derives nearest .optional ts₂ (.optional l.increment) (close :: ts₃) →
      close.kind = .symbol .rightParen →
      Derives nearest .statement ts₃ (.stmt l.body isOpen) rest →
      DerivesClauses nearest (opening :: ts) l isOpen rest

section Clauses
variable {nearest isOpen : Bool} {ts rest : List Token}

theorem Derives.forInit_not_function {init : Option Stmt}
    (h : Derives nearest .forInit ts (.init init) rest) : ∀ s ∈ init, s.isFunction = false := by
  intro s hs
  cases h with
  | noInit => cases hs
  | varInit h =>
    obtain rfl := Option.some.inj hs
    cases h <;> rfl
  | exprInit h =>
    obtain rfl := Option.some.inj hs
    cases h
    rfl

theorem DerivesClauses.admitted {l : ForLoop} (h : DerivesClauses nearest ts l isOpen rest) :
    l.Admitted := by
  obtain ⟨-, hinit, -, -, -, -, hbody⟩ := h
  exact ⟨hinit.forInit_not_function, hbody.isDeclaration_eq_false⟩

/-- A statement that starts with `for` is the rewritten loop of its clauses. -/
theorem derives_for_iff {kw : Token} {s : Stmt} (hkw : kw.kind = .keyword .forKw) :
    Derives nearest .statement (kw :: ts) (.stmt s isOpen) rest ↔
      ∃ l : ForLoop, l.line = kw.line ∧ DerivesClauses nearest ts l isOpen rest ∧
        s = l.rewritten := by
  constructor
  · intro h
    cases h with
    | expressed h => exact absurd hkw (h.exprStmt_first.ne rfl)
    | @forStmt _ _ _ _ _ _ _ _ _ init condition increment body _ _ hopening hinit hcondition
        hsemicolon hincrement hclose hbody =>
      exact ⟨⟨kw.line, init, condition, increment, body⟩, rfl,
        .clauses hopening hinit hcondition hsemicolon hincrement hclose hbody,
        (forLoop_eq_forTree _ _ _ _ _).symm⟩
    | ifThen h | ifElse h | printStmt h | returnStmt h | breakStmt h | whileStmt h =>
      rw [h] at hkw
      cases hkw
    | blockStmt h =>
      cases h with
      | block h =>
        rw [h] at hkw
        cases hkw
  · rintro ⟨l, hline, ⟨hopening, hinit, hcondition, hsemicolon, hincrement, hclose, hbody⟩, rfl⟩
    have h := Derives.forStmt hkw hopening hinit hcondition hsemicolon hincrement hclose hbody
    rwa [← hline, ← forLoop_eq_forTree] at h

end Clauses

end Grammar

/-! ## Resolving -/

/-- The innermost scope is not that of a superclass. -/
theorem Nested.not_super {os : List ScopeOrigin} {scopes : List (List String)} (h : Nested os)
    (hscopes : Describes os scopes) : ∀ scope ∈ scopes.head?, "super" ∉ scope := by
  intro scope hscope hsuper
  cases hscopes with
  | top => cases hscope
  | scope hnames hspecial _ =>
    obtain rfl := Option.some.inj hscope
    cases h with
    | body _ hplain _ => exact (hplain "super" (hnames hsuper)).2 rfl
    | plain | derived =>
      rw [hspecial rfl] at hsuper
      simp [ScopeOrigin.names, ScopeOrigin.definite, ScopeOrigin.introduced] at hsuper

namespace KnownIn
variable {C : Corpus} {os : List ScopeOrigin} {r : Scoping}

/-- Two statements in a block. -/
theorem pairBlock {s t : Stmt} (h : KnownIn C ⟨os, r, .stmt (.block [s, t])⟩)
    (hs : s.isFunction = false) (ht : t.isFunction = false) :
    KnownIn C ⟨.block [s, t] :: os, r.enter [], .stmt s⟩ ∧
      KnownIn C ⟨.block [s, t] :: os, s.resolve.after (r.enter []), .stmt t⟩ ∧
      (Stmt.block [s, t]).resolve.outcome r = .block [s.resolve.outcome (r.enter []),
        t.resolve.outcome (s.resolve.after (r.enter []))] := by
  have hregular : Regular (.body [s, t]) := by
    cases h.proper.regular with
    | block hbody => exact hbody
  have hnames : blockState [s, t] r = r.enter [] := by
    rw [blockState, functionNames_cons hs, functionNames_cons ht]
    rfl
  obtain ⟨hstate, -, houtcome⟩ := block_quiet hregular h.proper.quiet
  rw [hnames] at hstate houtcome
  have hbody : KnownIn C ⟨.block [s, t] :: os, r.enter [], .body [s, t]⟩ := by
    rw [← hstate]
    exact h.child List.mem_cons_self
  obtain ⟨hfirst, hrest, hbody_eq⟩ := hbody.body_stmt hs
  obtain ⟨hsecond, -, hrest_eq⟩ := hrest.body_stmt ht
  refine ⟨hfirst, hsecond, ?_⟩
  rw [houtcome, hbody_eq, hrest_eq]
  rfl

/-- The names in what stands directly in a block where nothing is declared are those that they are
outside it, but for longer distances. -/
theorem moves {s : Stmt} {node : Node} {o : ScopeOrigin} (h : KnownIn C ⟨os, r, .stmt s⟩)
    (hnode : KnownIn C ⟨o :: os, r.enter [], node⟩) (hstand : node.MayStand 0) :
    Widened (some 0) (node.outcome r) (node.outcome (r.enter [])) := by
  have hwidens : Widens 0 r (r.enter []) :=
    ⟨.here (h.proper.nested.not_super h.proper.describes), rfl, rfl, rfl, rfl, rfl,
      fun _ => h.proper.settled rfl⟩
  exact (hnode.proper.regular.moves hwidens hstand).tree hnode.proper.quiet

theorem turnOf {l : ForLoop} (hbody : l.body.isDeclaration = false)
    (h : KnownIn C ⟨os, (l.inner r).enterLoop, .stmt (Grammar.withIncrement l.body l.increment)⟩) :
    (l.resolve r).TurnOf
      ((Grammar.withIncrement l.body l.increment).resolve.outcome (l.inner r).enterLoop) := by
  cases hincrement : l.increment with
  | none =>
    refine .plain ?_
    rw [ForLoop.resolve, hincrement]
    rfl
  | some increment =>
    rw [hincrement] at h
    obtain ⟨hfunction, hintroduced⟩ := Stmt.of_not_declaration hbody
    obtain ⟨hfirst, hsecond, houtcome⟩ := h.pairBlock hfunction rfl
    rw [hfirst.stmt_after hintroduced] at hsecond houtcome
    have hvalue := hsecond.child List.mem_cons_self
    rw [Grammar.withIncrement, houtcome]
    refine .block ?_ (h.moves hfirst fun _ => hbody) (h.moves hvalue trivial)
    rw [ForLoop.resolve, hincrement]
    rfl

theorem loopOf {l : ForLoop} (hbody : l.body.isDeclaration = false)
    (h : KnownIn C ⟨os, l.inner r,
      .stmt (.loop l.tested (Grammar.withIncrement l.body l.increment))⟩) :
    ∃ turn, (l.resolve r).TurnOf turn ∧
      (Stmt.loop l.tested (Grammar.withIncrement l.body l.increment)).resolve.outcome (l.inner r) =
        .loop (l.resolve r).tested turn := by
  obtain ⟨-, hturn, -, houtcome⟩ := h.loop
  refine ⟨_, hturn.turnOf hbody, ?_⟩
  rw [houtcome, l.tested_resolve]

/-- The resolver makes of a rewritten loop what the loop with names resolved is rewritten to, but
for the distances within a turn. -/
theorem rewritten {l : ForLoop} (hl : l.Admitted) (h : KnownIn C ⟨os, r, .stmt l.rewritten⟩) :
    ∃ turn, (l.resolve r).TurnOf turn ∧ l.rewritten.resolve.outcome r =
      Grammar.withInit (.loop (l.resolve r).tested turn) (l.resolve r).initializer := by
  have htree : l.rewritten = Grammar.withInit
      (.loop l.tested (Grammar.withIncrement l.body l.increment)) l.initializer :=
    Grammar.forLoop_eq_forTree _ _ _ _ _
  rw [htree] at h ⊢
  cases hinit : l.initializer with
  | none =>
    have hinner : l.inner r = r := by rw [ForLoop.inner, hinit]
    have hnone : (l.resolve r).initializer = none := by rw [ForLoop.resolve, hinit]; rfl
    rw [hinit, ← hinner] at h
    obtain ⟨turn, hturn, houtcome⟩ := h.loopOf hl.body
    rw [hinner] at houtcome
    refine ⟨turn, hturn, ?_⟩
    rw [hnone]
    exact houtcome
  | some s =>
    have hinner : s.resolve.after (r.enter []) = l.inner r := by rw [ForLoop.inner, hinit]
    have hsome : (l.resolve r).initializer = some (s.resolve.outcome (r.enter [])) := by
      rw [ForLoop.resolve, hinit]
      rfl
    rw [hinit] at h
    obtain ⟨-, hloop, hblock⟩ := h.pairBlock (hl.initializer s hinit) rfl
    rw [hinner] at hloop hblock
    obtain ⟨turn, hturn, houtcome⟩ := hloop.loopOf hl.body
    refine ⟨turn, hturn, ?_⟩
    rw [hsome, Grammar.withInit, Grammar.withInit, hblock, houtcome]

end KnownIn

/-! ## Executing -/

section Closed
variable {C : Corpus} {shapes : Shapes} {σ : Store}

theorem Store.Typed.env_lt (h : σ.Typed C shapes) {env : Env} {os : List ScopeOrigin}
    (hfits : Fits shapes env os) : ∀ id ∈ env, id < σ.scopes.size := by
  induction hfits with
  | top =>
    intro id hid
    obtain rfl := List.mem_singleton.1 hid
    rw [h.size]
    exact Nat.succ_pos _
  | scope horigin _ ih => exact List.forall_mem_cons.2 ⟨h.size_of_origin horigin, ih⟩

theorem Store.Typed.value_within (h : σ.Typed C shapes) {v : Value} (hv : ValueFits C shapes v) :
    v.Within σ.scopes.size := by
  have hclass {cls : Class} (hcls : ClassFits C shapes cls) (name : String) (method : Closure)
      (hmethod : cls.findMethod? name = some method) : method.Within σ.scopes.size := by
    obtain ⟨os, r, decl, -, -, hfits⟩ := hcls name method hmethod
    exact h.env_lt hfits
  cases v with
  | function id c | method id c =>
    obtain ⟨os, r, decl, -, -, hfits, -⟩ := hv
    exact h.env_lt hfits
  | classRef cls | object id cls => exact hclass hv
  | nil | bool | number | string | native => trivial

/-- Where a world fits the resolver's scopes, nothing in it refers to a scope that is not there. -/
theorem World.At.closed {os : List ScopeOrigin} {r : Scoping} {w : World}
    (h : w.At C shapes os r) : w.Closed where
  top := by
    rw [h.typed.size]
    exact Nat.succ_pos _
  env := h.typed.env_lt h.here.fits
  value _ _ _ hv := h.typed.value_within (h.typed.value hv)
  field _ _ _ hv := h.typed.value_within (h.typed.field hv)

end Closed

/-- What a session executes is what the resolver made of a statement of an accepted program, and
the world is closed. -/
theorem Session.Reachable.executing {s : Session} (hs : s.Reachable) {request : Request}
    {source : String} {task : Task} (htask : request.task source = .ok task) {n : Nat} {stmt : Stmt}
    {base : List Frame} {w : World} (hm : (task.start s).after n = ⟨.execute stmt, base, w⟩) :
    w.Closed ∧ ∃ os r s₀, Known ⟨os, r, .stmt s₀⟩ ∧ stmt = s₀.resolve.outcome r := by
  obtain ⟨shapes, hready⟩ := hs.ready
  obtain ⟨shapes', -, hagrees⟩ := Session.advances_task hready hs.at_top.1 htask n
  rw [hm] at hagrees
  cases hagrees with
  | @execute os r s₀ _ _ _ _ hat hknown _ _ => exact ⟨hat.closed, os, r, s₀, hknown.known, rfl⟩

/-- Every `for` statement is rewritten to a statement that does what the loop does: the initializer
once, in a scope of its own that all turns and the functions made in them share; then the condition,
the body and the increment in turn, until the condition fails or the body does not complete
normally. -/
theorem for_loop_performed :
    (∀ (nearest : Bool) (kw : Token) (ts rest : List Token) (s : Stmt) (isOpen : Bool),
      kw.kind = .keyword .forKw →
      (Grammar.Derives nearest .statement (kw :: ts) (.stmt s isOpen) rest ↔
        ∃ l : ForLoop, l.line = kw.line ∧ Grammar.DerivesClauses nearest ts l isOpen rest ∧
          s = l.rewritten)) ∧
    (∀ (nearest : Bool) (ts rest : List Token) (l : ForLoop) (isOpen : Bool),
      Grammar.DerivesClauses nearest ts l isOpen rest → l.Admitted) ∧
    (∀ s : Session, s.Reachable → ∀ (request : Request) (source : String) (task : Task),
      request.task source = .ok task → ∀ (n : Nat) (stmt : Stmt) (base : List Frame) (w : World),
      (task.start s).after n = ⟨.execute stmt, base, w⟩ →
      w.Closed ∧ ∃ os r s₀, Known ⟨os, r, .stmt s₀⟩ ∧ stmt = s₀.resolve.outcome r) ∧
    ∀ l : ForLoop, l.Admitted → ∀ (os : List ScopeOrigin) (r : Scoping),
      Known ⟨os, r, .stmt l.rewritten⟩ → ∀ w : World, w.Closed → ∀ base : List Frame,
      (l.resolve r).PerformedBy w base ⟨.execute (l.rewritten.resolve.outcome r), base, w⟩ := by
  refine ⟨fun _ _ _ _ _ _ hkw => Grammar.derives_for_iff hkw, fun _ _ _ _ _ h => h.admitted, ?_, ?_⟩
  · intro s hs request source task htask n stmt base w hm
    exact hs.executing htask hm
  · rintro l hl os r ⟨p, haccepted, hvisited⟩ w hw base
    have hknown : KnownIn AnyProgram ⟨os, r, .stmt l.rewritten⟩ := ⟨p, trivial, haccepted, hvisited⟩
    obtain ⟨turn, hturn, houtcome⟩ := hknown.rewritten hl
    rw [houtcome]
    refine ForLoop.performedBy base hturn (fun s hs => ?_) hw
    obtain ⟨s₀, hs₀, rfl⟩ := Option.map_eq_some_iff.1 hs
    rw [Stmt.isFunction_resolve]
    exact hl.initializer s₀ hs₀

/-- The function that is made in each turn sees the one variable of the loop, so that the second
turn is the last. -/
theorem for_loop_performed_shared :
    let i : Ident := ⟨"i", 1⟩
    let f : Ident := ⟨"f", 1⟩
    let l : ForLoop := ⟨1, some (.var i (some (.literal (.bool false) 1))), none,
      some (.assign i (.literal (.bool true) 1) none),
      .block [.function ⟨some f, [], [.ret 1 (some (.variable i none))], 1⟩,
        .cond (.call (.variable f none) [] 1) (.brk 1) none]⟩
    let s := Session.new .unlimited fun _ => 0
    l.Admitted ∧ Known ⟨[], .fresh, .stmt l.rewritten⟩ ∧ s.Closed ∧
      ((l.resolve .fresh).run s 60).isDone = true ∧ (l.resolve .fresh).PerformedBy s []
        ⟨.execute (l.rewritten.resolve.outcome .fresh), [], s⟩ := by
  intro i f l s
  obtain ⟨-, -, hsession, hperformed⟩ := for_loop_performed
  have hl : l.Admitted := by
    refine ⟨fun t ht => ?_, rfl⟩
    obtain rfl := Option.some.inj ht
    rfl
  obtain ⟨source, hparsed⟩ : ∃ source, parseProgram source = .ok [l.rewritten] :=
    ⟨"for (var i = false; ; i = true) { fun f() { return i; } if (f()) break; }",
      by with_unfolding_all rfl⟩
  have hok : (Program.resolved [l.rewritten]).isOk = true := by decide +kernel
  have hdone : ((l.resolve .fresh).run s 60).isDone = true := by decide +kernel
  cases hresolved : Program.resolved [l.rewritten] with
  | error errors =>
    rw [hresolved] at hok
    cases hok
  | ok q =>
    have hknown : Known ⟨[], .fresh, .stmt l.rewritten⟩ :=
      ⟨[l.rewritten], ⟨⟨source, .inl hparsed⟩, q, hresolved⟩, .child .top List.mem_cons_self⟩
    have htask : Request.run.task source = .ok (.program q) := by
      rw [Request.task, Task.ofProgram, hparsed]
      change ((Program.resolved [l.rewritten]).mapError .ofResolve).map Task.program = _
      rw [hresolved]
      rfl
    have hclosed : s.Closed := by
      obtain ⟨-, rfl⟩ := resolved_eq_ok hresolved
      exact (hsession s (.new .unlimited fun _ => 0) .run source _ htask 1 _ _ s rfl).1
    exact ⟨hl, hknown, hclosed, hdone, hperformed l hl [] .fresh hknown s hclosed []⟩

end Lox
