import Lox.Proofs.Grammar.Nesting

/-!
# Parsing ends

The recursion of the rules has a bound on its depth, and every loop has a bound on its rounds.
Neither bounds anything: whatever stood in their place below that depth, or after that many rounds,
would never be asked. For no parser goes back, every round of a loop passes a token before the next
one, and a declaration that is not at the end of the input passes one even if it has an error.
-/

set_option autoImplicit false

namespace Lox.Grammar

variable {ι α β : Type}

/-! ## Depth -/

/-- Reads all tokens as a program with the given rules, and at most `k` declarations of it. -/
def programBy (r : Rules) (k : Nat) (tokens : List Token) : Except (List ParseError) Program :=
  result (toEnd r.declaration k (.start tokens))

/-- Reads all tokens as an expression with the given rules. -/
def expressionBy (r : Rules) (tokens : List Token) : Except (List ParseError) Expr :=
  let whole : Parser Expr := do
    let e ← r.expression
    if !(← atEnd) then
      report (.expected .endOfExpression)
    return e
  result (whole (.start tokens))

section Depth
variable {e d : Nat} {r r' : Rules} {tokens : List Token}

theorem Paired.eq {front : List Token} {s s' : State} (h : Paired (.none []) front s s') :
    s' = s := by
  obtain ⟨hrest, hrest', hprevious, herrors, -⟩ := h
  cases s
  cases s'
  simp_all [Seam.none]

theorem Agrees.eq {inner : Bool} {x x' : EStateM.Result ParseError State α}
    (h : Agrees (.none []) inner x x') : x' = x := by
  cases h with
  | ok hpaired _ => rw [hpaired.eq]
  | error hpaired _ => rw [hpaired.eq]
  | spoilt htail _ => exact absurd rfl htail

theorem paired_start (tokens : List Token) :
    Paired (.none []) tokens (.start tokens) (.start tokens) :=
  ⟨(List.append_nil tokens).symm, (List.append_nil tokens).symm, rfl, rfl, Or.inl rfl⟩

theorem recovering_ok (p : Parser Stmt) (s : State) :
    ∃ stmt? s', recovering p s = .ok stmt? s' := by
  unfold recovering
  split
  · exact ⟨_, _, rfl⟩
  · exact ⟨_, _, rfl⟩

theorem declaration_ok (n : Nat) (s : State) : ∃ stmt? s', declaration n s = .ok stmt? s' := by
  cases n with
  | zero =>
    rw [declaration]
    exact recovering_ok _ s
  | succ n =>
    rw [declaration]
    exact recovering_ok _ s

theorem programBy_eq (h : r.Tracks (.none []) e d r')
    (hok : ∀ s, ∃ stmt? s', r.declaration s = .ok stmt? s') {k k' : Nat} (hd : tokens.length < d)
    (hk : tokens.length ≤ k) (hk' : tokens.length ≤ k') :
    programBy r' k' tokens = programBy r k tokens := by
  have htracks := toEnd_tracks h.declaration hok (paired_start tokens) hd hk hk'
  rcases htracks with ⟨htail, -⟩ | ⟨ss, front, s, s', j, hrun, hend, hpaired, -, hrun'⟩
  · exact absurd rfl htail
  · obtain rfl := hpaired.eq
    unfold programBy
    rw [hrun, hrun', bind_of_ok (toEnd_atEnd _ j hend), List.append_nil]
    rfl

theorem expressionBy_eq (h : r.Tracks (.none []) e d r') (he : tokens.length < e) :
    expressionBy r' tokens = expressionBy r tokens := by
  have hwhole : Tracks (.none []) true e 1 (do
      let e ← r.expression
      if !(← atEnd) then
        report (.expected .endOfExpression)
      return e) (do
      let e ← r'.expression
      if !(← atEnd) then
        report (.expected .endOfExpression)
      return e) (.start tokens) (.start tokens) := by
    refine .bind (h.expression _ _) fun e s s' => .atEnd ?_
    split
    · exact .bind (.report _) fun _ _ _ => .pure e
    · exact .pure e
  have hsame := (hwhole.agrees tokens (paired_start tokens) (Or.inl rfl) he).eq
  unfold expressionBy
  exact congrArg result hsame

/-- Below depth `n` anything may stand, for it is never asked. -/
theorem programBy_nest (last : Rules) {n k : Nat} (hn : tokens.length + 1 < n)
    (hk : tokens.length ≤ k) : programBy (last.nest n) k tokens = parseProgram tokens := by
  have hdeep := rulesAt_tracks (.none []) (Nat.le_add_right (depthBound tokens) n)
  have hnest := (hdeep.of_none last).nest n
  rw [← rulesAt_add] at hnest
  calc programBy (last.nest n) k tokens
      = programBy (rulesAt (depthBound tokens + n)) k tokens :=
        programBy_eq hnest (declaration_ok _) (by omega) hk hk
    _ = parseProgram tokens := by
        apply programBy_eq hdeep (declaration_ok _) _ _ hk
        · exact Nat.lt_succ_self _
        · exact Nat.le_succ _

theorem expressionBy_nest (last : Rules) {n : Nat} (hn : tokens.length < n) :
    expressionBy (last.nest n) tokens = parseExpression tokens := by
  have hdeep := rulesAt_tracks (.none []) (Nat.le_add_right (depthBound tokens) n)
  have hnest := (hdeep.of_none last).nest n
  rw [← rulesAt_add] at hnest
  calc expressionBy (last.nest n) tokens
      = expressionBy (rulesAt (depthBound tokens + n)) tokens := expressionBy_eq hnest hn
    _ = parseExpression tokens := expressionBy_eq hdeep (by unfold depthBound; omega)

end Depth

/-! ## Rounds -/

/-- Rounds of a loop, with `last` for those after the first `n`. A round gets what starts it, and
the parser for the rounds that follow. -/
def unroll (round : (ι → Parser α) → ι → Parser α) (last : ι → Parser α) : Nat → ι → Parser α
  | 0 => last
  | n + 1 => round (unroll round last n)

/-- The loops of the rules, each as what one round of it does and what a number of rounds does. -/
inductive LoopOf (r : Rules) : (ι α : Type) → ((ι → Parser α) → ι → Parser α) →
    (Nat → ι → Parser α) → Prop where
  | program : LoopOf r Unit (List Stmt)
      (fun again _ => do
        if ← atEnd then
          return []
        let first ← r.declaration
        let others ← again ()
        return first.toList ++ others)
      (fun n _ => toEnd r.declaration n)
  | declarations : LoopOf r Unit (List Stmt)
      (fun again _ => do
        if (← checkSymbol .rightBrace) || (← atEnd) then
          return []
        let first ← r.declaration
        let others ← again ()
        return first.toList ++ others)
      (fun n _ => declarations r n)
  | parameters : LoopOf r Nat (List Ident)
      (fun again count => do
        if count ≥ arityLimit then
          report .tooManyParameters
        let first ← identifier .parameterName
        if ← acceptSymbol .comma then
          let others ← again (count + 1)
          return first :: others
        return [first])
      parameters
  | methods : LoopOf r Unit (List FunDecl)
      (fun again _ => do
        if (← checkSymbol .rightBrace) || (← atEnd) then
          return []
        let first ← namedFunction r .method
        let others ← again ()
        return first :: others)
      (fun n _ => methods r n)
  | arguments : LoopOf r Nat (List Expr)
      (fun again count => do
        if count ≥ arityLimit then
          report .tooManyArguments
        let first ← r.expression
        if ← acceptSymbol .comma then
          let others ← again (count + 1)
          return first :: others
        return [first])
      (arguments r)
  | suffixes : LoopOf r Expr Expr
      (fun again callee => do
        if ← acceptSymbol .leftParen then
          let passed ← if ← checkSymbol .rightParen then pure [] else arguments r r.bound 0
          let close ← expectSymbol .rightParen .argumentsClose
          again (.call callee passed close.line)
        else if ← acceptSymbol .dot then
          let name ← identifier .propertyName
          again (.get callee name)
        else
          return callee)
      (callSuffixes r)
  | operands {level : Level} {tighter : List Level} : level :: tighter <:+ levels →
      LoopOf r Expr Expr
        (fun again left => do
          match level (← peek).kind with
          | none => return left
          | some node =>
            let line := (← advance).line
            let right ← operation r tighter
            again (node left right line))
        (operands level (operation r tighter))

/-- With more rounds than there are tokens left, whatever stands for the rounds after them is never
asked. -/
structure LoopEnds (round : (ι → Parser α) → ι → Parser α) (run : Nat → ι → Parser α) : Prop where
  unfolds : ∀ n, run (n + 1) = round (run n)
  ends : ∀ last n i s, s.rest.length < n → unroll round last n i s = run n i s

/-- Two parsers are the same where fewer than `n` tokens are left. -/
def SameBelow (n : Nat) (p p' : Parser α) : Prop :=
  ∀ s, s.rest.length < n → p s = p' s

section Rounds
variable {n : Nat} {p p' : Parser α} {f f' : α → Parser β} {s : State}

theorem SameBelow.refl (n : Nat) (p : Parser α) : SameBelow n p p :=
  fun _ _ => rfl

theorem SameBelow.bind (hp : ∀ s, Reads 0 p s) (hf : ∀ a, SameBelow n (f a) (f' a)) :
    SameBelow n (p >>= f) (p >>= f') := by
  intro s hs
  cases hps : p s with
  | error e s₁ => rw [bind_of_error hps, bind_of_error hps]
  | ok a s₁ =>
    have hle := ((hp s).of_ok hps).2
    rw [bind_of_ok hps, bind_of_ok hps, hf a s₁ (by omega)]

theorem SameBelow.bind_left (h : SameBelow n p p') (f : α → Parser β) :
    SameBelow n (p >>= f) (p' >>= f) := by
  intro s hs
  cases hps : p s with
  | error e s₁ => rw [bind_of_error hps, bind_of_error ((h s hs).symm.trans hps)]
  | ok a s₁ => rw [bind_of_ok hps, bind_of_ok ((h s hs).symm.trans hps)]

/-- After a parser that passes a token, fewer tokens are left. -/
theorem Reads.bind_same (hp : Reads 1 p s) (hf : ∀ a, SameBelow s.rest.length (f a) (f' a)) :
    (p >>= f) s = (p >>= f') s := by
  cases hps : p s with
  | error e s₁ => rw [bind_of_error hps, bind_of_error hps]
  | ok a s₁ =>
    have hless := (hp.of_ok hps).2
    rw [bind_of_ok hps, bind_of_ok hps, hf a s₁ (by omega)]

/-- A round passes a token before the next one starts. -/
def Guarded (round : (ι → Parser α) → ι → Parser α) : Prop :=
  ∀ again again' i s, (∀ j, SameBelow s.rest.length (again j) (again' j)) →
    round again i s = round again' i s

theorem Guarded.ends {round : (ι → Parser α) → ι → Parser α} {run : Nat → ι → Parser α}
    (h : Guarded round) (hrun : ∀ n, run (n + 1) = round (run n)) : LoopEnds round run := by
  refine ⟨hrun, fun last n => ?_⟩
  induction n with
  | zero =>
    intro i s hs
    omega
  | succ n ih =>
    intro i s hs
    rw [hrun, unroll]
    apply h
    intro j s' hs'
    exact ih j s' (by omega)

theorem reads_accept (kind : Kind) (s : State) : Reads 0 (accept kind) s := by
  cases hcheck : s.check kind with
  | false => exact .stay (accept_of_check hcheck)
  | true =>
    have haccept : accept kind s = .ok true s.advance := by simp [accept, hcheck]
    exact .intro_ok haccept (.advance s) (State.Leads.advance s).rest.length_le

theorem reads_expect (kind : Kind) (what : Expectation) (s : State) :
    Reads 1 (expect kind what) s :=
  (@Tracks.expect (.none []) false 0 s s kind (fun hset => by cases hset) what).reads

theorem reads_identifier (what : Expectation) (s : State) : Reads 1 (identifier what) s :=
  (@Tracks.identifier (.none []) 0 s s what).reads

theorem advance_same (hkind : s.peek.kind ≠ .eof) {f f' : Token → Parser β}
    (hf : ∀ t, SameBelow s.rest.length (f t) (f' t)) : (advance >>= f) s = (advance >>= f') s :=
  Reads.bind_same (.intro_ok rfl (.advance s) (Nat.le_of_eq (length_advance hkind))) hf

theorem accept_same {kind : Kind} {f f' : Bool → Parser β}
    (hthen : SameBelow s.rest.length (f true) (f' true)) (helse : f false s = f' false s) :
    (accept kind >>= f) s = (accept kind >>= f') s := by
  rw [accept_bind, accept_bind]
  change (if s.check kind = true then advance >>= fun _ => f true else f false) s =
    (if s.check kind = true then advance >>= fun _ => f' true else f' false) s
  split
  · rename_i hcheck
    exact advance_same (peek_kind_of_check s hcheck).2 fun _ => hthen
  · exact helse

end Rounds

theorem LoopOf.unfolds {r : Rules} {round : (ι → Parser α) → ι → Parser α}
    {run : Nat → ι → Parser α} (h : LoopOf r ι α round run) (n : Nat) :
    run (n + 1) = round (run n) := by
  cases h <;> rfl

/-- A list in parentheses: a round that reports too long a list first, then reads an element, and
goes on after a comma. -/
theorem list_same {s : State} {element : Parser β} (helement : ∀ s, Reads 1 element s)
    {again again' : Parser (List β)} (hagain : SameBelow s.rest.length again again')
    (tooMany : Prop) [Decidable tooMany] (fault : ParseFault) :
    (do
      if tooMany then
        report fault
      let first ← element
      if ← acceptSymbol .comma then
        let others ← again
        return first :: others
      return [first] : Parser (List β)) s =
    (do
      if tooMany then
        report fault
      let first ← element
      if ← acceptSymbol .comma then
        let others ← again'
        return first :: others
      return [first] : Parser (List β)) s := by
  have hcomma (first : β) : SameBelow s.rest.length (do
      if ← acceptSymbol .comma then
        let others ← again
        return first :: others
      return [first]) (do
      if ← acceptSymbol .comma then
        let others ← again'
        return first :: others
      return [first]) := by
    apply SameBelow.bind (reads_accept _)
    intro more
    cases more with
    | false => exact .refl _ _
    | true => exact hagain.bind_left _
  split
  · have hreport : report fault s = .ok () (s.record (s.errorHere fault)) := rfl
    rw [bind_of_ok hreport, bind_of_ok hreport]
    exact (helement (s.record _)).bind_same hcomma
  · exact (helement s).bind_same hcomma

theorem LoopOf.guarded {c : Seam} {e d : Nat} {r r' : Rules} (h : r.Tracks c e d r')
    {round : (ι → Parser α) → ι → Parser α} {run : Nat → ι → Parser α}
    (hloop : LoopOf r ι α round run) : Guarded round := by
  intro again again' i s hagain
  cases hloop with
  | program =>
    change (if s.atEnd = true then _ else _ : Parser (List Stmt)) s =
      (if s.atEnd = true then _ else _ : Parser (List Stmt)) s
    split
    · rfl
    · rename_i hend
      exact (h.declaration s s (by simpa using hend)).reads.bind_same
        fun first => (hagain ()).bind_left _
  | declarations =>
    change (if (s.check _ || s.atEnd) = true then _ else _ : Parser (List Stmt)) s =
      (if (s.check _ || s.atEnd) = true then _ else _ : Parser (List Stmt)) s
    split
    · rfl
    · rename_i hgoes
      have hend : s.atEnd = false := by
        cases hend : s.atEnd with
        | false => rfl
        | true => simp [hend] at hgoes
      exact (h.declaration s s hend).reads.bind_same fun first => (hagain ()).bind_left _
  | parameters => exact list_same (reads_identifier _) (hagain _) _ _
  | methods =>
    change (if (s.check _ || s.atEnd) = true then _ else _ : Parser (List FunDecl)) s =
      (if (s.check _ || s.atEnd) = true then _ else _ : Parser (List FunDecl)) s
    have hfirst : Tracks c true 0 5 (namedFunction r .method) (namedFunction r' .method) s s :=
      tracks_namedFunction h .method (Nat.zero_le _) (Nat.zero_le _)
    split
    · rfl
    · exact (hfirst.reads.mono (by omega)).bind_same fun first => (hagain ()).bind_left _
  | arguments => exact list_same (fun s => (h.expression s s).reads) (hagain _) _ _
  | suffixes =>
    have hpassed (s : State) : Tracks c true 0 1 (Grammar.arguments r r.bound 0)
        (Grammar.arguments r' r'.bound 0) s s :=
      tracks_arguments h 0 (Nat.zero_le _) (Nat.zero_le _) (Nat.zero_le _)
    have hclose (passed : List Expr) : SameBelow s.rest.length (do
        let close ← expectSymbol .rightParen .argumentsClose
        again (.call i passed close.line)) (do
        let close ← expectSymbol .rightParen .argumentsClose
        again' (.call i passed close.line)) :=
      .bind (fun s => (reads_expect _ _ s).mono (Nat.zero_le 1)) fun close => hagain _
    apply accept_same
    · refine .bind (fun s => .stay rfl) fun close => ?_
      split
      · exact hclose []
      · exact .bind (fun s => (hpassed s).reads.mono (Nat.zero_le 1)) hclose
    · apply accept_same
      · exact .bind (fun s => (reads_identifier _ s).mono (Nat.zero_le 1)) fun name => hagain _
      · rfl
  | @operands level tighter hlevel =>
    have hls : ∀ level ∈ tighter, level .eof = none ∧ level (.symbol .semicolon) = none := by
      intro level hmem
      exact level_eq_none level (hlevel.subset (List.mem_cons_of_mem _ hmem))
    have hoperand (s : State) :
        Tracks c true 0 1 (operation r tighter) (operation r' tighter) s s :=
      tracks_operation h hls (Nat.zero_le _) (Nat.zero_le _)
    have hpeek : peek s = .ok s.peek s := rfl
    dsimp only
    rw [bind_of_ok hpeek, bind_of_ok hpeek]
    cases hnode : level s.peek.kind with
    | none => rfl
    | some node =>
      apply advance_same
      · intro hkind
        rw [hkind, (level_eq_none level (hlevel.subset List.mem_cons_self)).1] at hnode
        cases hnode
      · intro t
        exact .bind (fun s => (hoperand s).reads.mono (Nat.zero_le 1)) fun right => hagain _

/-! ## Progress -/

/-- The parsers of the grammar, from those for single tokens to those for whole inputs. -/
inductive Routine (r : Rules) : (α : Type) → Parser α → Prop where
  | advance : Routine r Token advance
  | accept (kind : Kind) : Routine r Bool (accept kind)
  | expect (kind : Kind) (what : Expectation) : Routine r Token (expect kind what)
  | identifier (what : Expectation) : Routine r Ident (identifier what)
  | declarations (n : Nat) : Routine r (List Stmt) (declarations r n)
  | block : Routine r (List Stmt) (block r)
  | parameters (n count : Nat) : Routine r (List Ident) (parameters n count)
  | functionBody (kind : FunctionKind) (name : Option Ident) :
      Routine r FunDecl (functionBody r kind name)
  | namedFunction (kind : FunctionKind) : Routine r FunDecl (namedFunction r kind)
  | methods (n : Nat) : Routine r (List FunDecl) (methods r n)
  | classDeclaration : Routine r Stmt (classDeclaration r)
  | varDeclaration : Routine r Stmt (varDeclaration r)
  | expressionStatement : Routine r Stmt (expressionStatement r)
  | optionalExpression (terminator : Symbol) :
      Routine r (Option Expr) (optionalExpression r terminator)
  | forInitializer : Routine r (Option Stmt) (forInitializer r)
  | forStatement : Routine r Stmt (forStatement r)
  | ifStatement : Routine r Stmt (ifStatement r)
  | whileStatement : Routine r Stmt (whileStatement r)
  | returnStatement : Routine r Stmt (returnStatement r)
  | breakStatement : Routine r Stmt breakStatement
  | printStatement : Routine r Stmt (printStatement r)
  | statement : Routine r Stmt (statement r)
  | declarationRule : Routine r Stmt (declarationRule r)
  | skipToStatement : Routine r Unit (fun s => .ok () s.skipToStatement)
  | declaration : Routine r (Option Stmt) (recovering (declarationRule r))
  | arguments (n count : Nat) : Routine r (List Expr) (arguments r n count)
  | primary : Routine r Expr (primary r)
  | callSuffixes (n : Nat) (callee : Expr) : Routine r Expr (callSuffixes r n callee)
  | call : Routine r Expr (call r)
  | unary : Routine r Expr (unary r)
  | operation {ls : List Level} : ls <:+ levels → Routine r Expr (operation r ls)
  | assignment : Routine r Expr (assignment r)
  | toEnd (n : Nat) : Routine r (List Stmt) (toEnd r.declaration n)

/-- The state in which a run ends, with or without an error. -/
def finalState : EStateM.Result ParseError State α → State
  | .ok _ s => s
  | .error _ s => s

theorem Reads.leads {n : Nat} {p : Parser α} {s : State} (h : Reads n p s) :
    s.Leads (finalState (p s)) := by
  cases hp : p s with
  | ok a s' => exact (h.of_ok hp).1
  | error e s' => exact h.of_error hp

theorem State.Leads.of_tracks {c : Seam} {inner : Bool} {m n : Nat} {p p' : Parser α} {s : State}
    (h : Tracks c inner m n p p' s s) : s.Leads (finalState (p s)) :=
  h.reads.leads

section Progress
variable {c : Seam} {e d : Nat} {r r' : Rules} (h : r.Tracks c e d r')
include h

theorem reads_declarations (n : Nat) (s : State) : Reads 0 (declarations r n) s := by
  induction n generalizing s with
  | zero => exact .stay rfl
  | succ n ih =>
    have hrun : declarations r (n + 1) s =
        (if (s.check (.symbol .rightBrace) || s.atEnd) = true then pure [] else
          r.declaration >>= fun first => declarations r n >>= fun others =>
            pure (first.toList ++ others) : Parser (List Stmt)) s := rfl
    refine .of_eq ?_ hrun
    split
    · exact .stay rfl
    · rename_i hgoes
      have hend : s.atEnd = false := by
        cases hend : s.atEnd with
        | false => rfl
        | true => simp [hend] at hgoes
      exact ((h.declaration s s hend).reads.mono (Nat.zero_le 1)).bind fun first s₁ =>
        (ih s₁).bind fun others s₂ => .stay rfl

/-- No parser goes back. -/
theorem Routine.leads {p : Parser α} (hp : Routine r α p) (s : State) :
    s.Leads (finalState (p s)) := by
  have hz (n : Nat) : 0 ≤ n := Nat.zero_le n
  cases hp with
  | advance => exact .advance s
  | accept kind => exact (reads_accept kind s).leads
  | expect kind what => exact (reads_expect kind what s).leads
  | identifier what => exact (reads_identifier what s).leads
  | declarations n => exact (reads_declarations h n s).leads
  | block => exact .of_tracks (tracks_block h (hz _) (hz _))
  | parameters n count => exact .of_tracks (c := c) (tracks_parameters count (hz _) (hz n))
  | functionBody kind name => exact .of_tracks (tracks_functionBody h kind name (hz _) (hz _))
  | namedFunction kind => exact .of_tracks (tracks_namedFunction h kind (hz _) (hz _))
  | methods n => exact .of_tracks (tracks_methods h (hz _) (hz _) (hz _) (hz (n + 1)))
  | classDeclaration => exact .of_tracks (tracks_classDeclaration h (hz _) (hz _))
  | varDeclaration => exact .of_tracks (tracks_varDeclaration h (hz _))
  | expressionStatement => exact .of_tracks (tracks_expressionStatement h (hz _))
  | optionalExpression terminator =>
    exact .of_tracks (tracks_optionalExpression h terminator (hz _))
  | forInitializer => exact .of_tracks (tracks_forInitializer h (hz _))
  | forStatement => exact .of_tracks (tracks_forStatement h (hz _) (hz _))
  | ifStatement => exact .of_tracks (tracks_ifStatement h (hz _) (hz _))
  | whileStatement => exact .of_tracks (tracks_whileStatement h (hz _) (hz _))
  | returnStatement => exact .of_tracks (tracks_returnStatement h (hz _))
  | breakStatement => exact .of_tracks (c := c) (m := 0) tracks_breakStatement
  | printStatement => exact .of_tracks (tracks_printStatement h (hz _))
  | statement => exact .of_tracks (tracks_statement h (hz _) (hz _))
  | declarationRule => exact .of_tracks (tracks_declarationRule h (hz _) (hz _))
  | skipToStatement => exact .skip s
  | declaration =>
    have hrule : Tracks c false 0 1 (Grammar.declarationRule r) (Grammar.declarationRule r') s s :=
      tracks_declarationRule h (hz _) (hz _)
    exact (leads_recovering hrule.reads).leads
  | arguments n count => exact .of_tracks (tracks_arguments h count (hz _) (hz _) (hz n))
  | primary => exact .of_tracks (tracks_primary h (hz _) (hz _))
  | callSuffixes n callee =>
    exact .of_tracks (tracks_callSuffixes h callee (hz _) (hz _) (hz (n + 1)))
  | call => exact .of_tracks (tracks_call h (hz _) (hz _))
  | unary => exact .of_tracks (tracks_unary h (hz _) (hz _))
  | operation hls =>
    have hlevels := fun level hlevel => level_eq_none level (hls.subset hlevel)
    exact .of_tracks (tracks_operation h hlevels (hz _) (hz _))
  | assignment => exact .of_tracks (tracks_assignment h (hz _) (hz _))
  | toEnd n => exact (reads_toEnd (fun s hend => (h.declaration s s hend).reads) n s).leads

end Progress

theorem declaration_progress (n : Nat) {s : State} (hend : s.atEnd = false) :
    ∃ stmt? s', declaration n s = .ok stmt? s' ∧ s'.rest <:+ s.rest ∧
      s'.rest.length < s.rest.length := by
  obtain ⟨stmt?, s', hrun⟩ := declaration_ok n s
  have hreads := ((rulesAt_tracks (.none []) (Nat.le_refl n)).declaration s s hend).reads
  obtain ⟨hleads, hlength⟩ := hreads.of_ok hrun
  exact ⟨stmt?, s', hrun, hleads.rest, hlength⟩

/-- Parsing ends on every list of tokens, wherever an end of input stands in it or none at all: the
rules are nested no deeper than there are tokens, and no loop has more rounds than there are tokens
left. No parser goes back, and a declaration that is not at the end of the input moves on, also if
it has an error. -/
theorem parsing_ends_and_moves_on (tokens : List Token) :
    (∀ (last : Rules) (n k : Nat), tokens.length + 1 < n → tokens.length ≤ k →
      programBy (last.nest n) k tokens = parseProgram tokens ∧
      expressionBy (last.nest n) tokens = parseExpression tokens) ∧
    ∀ n : Nat,
      (∀ (ι α : Type) (round : (ι → Parser α) → ι → Parser α) (run : Nat → ι → Parser α),
        LoopOf (rulesAt n) ι α round run → LoopEnds round run) ∧
      (∀ (α : Type) (p : Parser α), Routine (rulesAt n) α p →
        ∀ s, (finalState (p s)).rest <:+ s.rest) ∧
      ∀ s : State, s.atEnd = false → ∃ stmt? s', declaration n s = .ok stmt? s' ∧
        s'.rest <:+ s.rest ∧ s'.rest.length < s.rest.length := by
  constructor
  · intro last n k hn hk
    exact ⟨programBy_nest last hn hk, expressionBy_nest last (by omega)⟩
  · intro n
    have h := rulesAt_tracks (.none []) (Nat.le_refl n)
    refine ⟨?_, ?_, ?_⟩
    · intro ι α round run hloop
      exact (hloop.guarded h).ends hloop.unfolds
    · intro α p hp s
      exact (hp.leads h s).rest
    · intro s hend
      exact declaration_progress n hend

/-- A block that an end of input cuts off, with a token after it. -/
theorem parsing_ends_and_moves_on_cut_off :
    let tokens : List Token :=
      [⟨.symbol .leftBrace, "\x7b", 1⟩, ⟨.eof, "", 1⟩, ⟨.identifier, "a", 2⟩]
    let last : Rules := ⟨0, pure (.this 0 none), pure (.this 0 none), pure (.brk 0), pure none⟩
    tokens.length + 1 < 5 ∧ tokens.length ≤ 3 ∧
      programBy (last.nest 5) 3 tokens = parseProgram tokens ∧
      expressionBy (last.nest 5) tokens = parseExpression tokens ∧
      LoopEnds (fun again count => do
        if count ≥ arityLimit then
          report .tooManyParameters
        let first ← identifier .parameterName
        if ← acceptSymbol .comma then
          let others ← again (count + 1)
          return first :: others
        return [first]) parameters ∧
      (finalState (block (rulesAt 4) (.start tokens))).rest <:+ tokens ∧
      (State.start tokens).atEnd = false ∧
      ∃ stmt? s', declaration 4 (.start tokens) = .ok stmt? s' ∧
        s'.rest <:+ tokens ∧ s'.rest.length < 3 := by
  intro tokens last
  obtain ⟨hdepth, hrest⟩ := parsing_ends_and_moves_on tokens
  obtain ⟨hloops, hroutines, hdeclaration⟩ := hrest 4
  obtain ⟨hprogram, hexpression⟩ := hdepth last 5 3 (by decide) (by decide)
  exact ⟨by decide, by decide, hprogram, hexpression, hloops _ _ _ _ .parameters,
    hroutines _ _ .block _, rfl, hdeclaration _ rfl⟩

end Lox.Grammar
