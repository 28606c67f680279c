import Lox.Proofs.Grammar.Parallel

/-!
# The rules side by side

Every rule of the grammar keeps two runs together, if the parsers for what it contains do. A rule
opens another one only after it has passed tokens, so a bound on the tokens on which those parsers
agree grows with each rule.
-/

set_option autoImplicit false

namespace Lox.Grammar

variable {α β : Type}

/-- The parsers that two rules get for what they contain agree: on fewer than `e` tokens for
expressions, and on fewer than `d` tokens for statements and declarations. -/
structure Rules.Tracks (c : Seam) (e d : Nat) (r r' : Rules) : Prop where
  bound : e ≤ r.bound + 1
  bound' : e ≤ r'.bound + 1
  expression : ∀ s s', Grammar.Tracks c true e 1 r.expression r'.expression s s'
  unary : ∀ s s', Grammar.Tracks c true e 1 r.unary r'.unary s s'
  statement : ∀ s s', Grammar.Tracks c false d 1 r.statement r'.statement s s'
  /-- A declaration is only started before the end of the input. -/
  declaration : ∀ s s', s.atEnd = false →
    Grammar.Tracks c false d 1 r.declaration r'.declaration s s'
  /-- An expression is missing at the end of the input. -/
  falters : Falters r.expression

/-- Where no token is left, both runs are at their end. -/
theorem Tracks.of_atEnd {c : Seam} {inner : Bool} {m n : Nat} {p p' q q' : Parser α} {s s' : State}
    (hreads : Reads n p s) (hm : m ≤ 1) (hp : s.atEnd = true → p s = q s)
    (hp' : s'.atEnd = true → p' s' = q' s') (hq : Tracks c inner m n q q' s s') :
    Tracks c inner m n p p' s s' := by
  refine ⟨hreads, ?_⟩
  intro front hpaired hinside hlength
  have hrest : s.rest = [] := List.eq_nil_of_length_eq_zero (by omega)
  have hend : s.atEnd = true := atEnd_of_rest_nil hrest
  rw [hp hend, hp' (by rw [atEnd_eq (hinside.peek hpaired), hend])]
  exact hq.agrees front hpaired hinside hlength

/-- On no tokens at all nothing has to be shown of the second run. -/
theorem Tracks.of_none {c : Seam} {inner : Bool} {m n : Nat} {p p' : Parser α} {s s' : State}
    (hreads : Reads n p s) (hm : m = 0) : Tracks c inner m n p p' s s' :=
  ⟨hreads, fun _ _ _ hlength => absurd hlength (by omega)⟩

section Rules
variable {c : Seam} {e d m : Nat} {r r' : Rules} (h : r.Tracks c e d r')
  {s s' : State}
include h

/-! ## Declarations -/

omit h in
theorem declarations_bind (r : Rules) (k : Nat) (g : List Stmt → Parser β) :
    declarations r (k + 1) >>= g = checkSymbol .rightBrace >>= fun close => atEnd >>= fun ending =>
      if (close || ending) = true then g [] else r.declaration >>= fun first =>
        declarations r k >>= fun others => g (first.toList ++ others) := by
  simp only [declarations, bind_assoc]
  congr 1
  funext close
  congr 1
  funext ending
  split
  · rfl
  · simp only [bind_assoc, pure_bind]

omit h in
theorem declarations_atEnd (r : Rules) (k : Nat) (g : List Stmt → Parser β) {s : State}
    (hend : s.atEnd = true) : (declarations r k >>= g) s = g [] s := by
  cases k with
  | zero => rfl
  | succ k =>
    rw [declarations_bind]
    change (if (s.check _ || s.atEnd) = true then g [] else _) s = g [] s
    rw [hend, Bool.or_true, if_pos rfl]

/-- Declarations and what follows them. At the seam the first run leaves the loop, and what follows
has to falter there. -/
theorem tracks_declarations {g g' : List Stmt → Parser β} {k k' n : Nat} (hd : m ≤ d)
    (hk : m ≤ k + 1) (hk' : m ≤ k' + 1)
    (hg : ∀ ss s s', Tracks c true m n (g ss) (g' ss) s s') (hfalters : ∀ ss, Falters (g ss)) :
    Tracks c true m n (declarations r k >>= g) (declarations r' k' >>= g') s s' := by
  induction k generalizing k' m n g g' s s' with
  | zero =>
    apply Tracks.of_atEnd (hg [] s s').reads (by omega) (fun _ => rfl)
    · exact declarations_atEnd r' k' g'
    · exact hg [] s s'
  | succ k ih =>
    have hstep (k' : Nat) (hk' : m ≤ k' + 2) : Tracks c true m n (declarations r (k + 1) >>= g)
        (declarations r' (k' + 1) >>= g') s s' := by
      rw [declarations_bind, declarations_bind]
      apply Tracks.check
      apply Tracks.atEnd
      split
      · exact hg [] s s'
      · rename_i hgoes
        have hend : s.atEnd = false := by
          cases hend : s.atEnd with
          | false => rfl
          | true => simp [hend] at hgoes
        apply ((h.declaration s s' hend).mono hd (Nat.le_refl 1)).bind_at_edge
        · intro first s₁ s₁'
          apply ih (by omega) (by omega) (by omega)
          · intro ss s s'
            exact (hg _ s s').mono (Nat.sub_le m 1) (Nat.sub_le n 1)
          · exact fun ss => hfalters _
        · intro _ first s₁ s₁' htail hpaired
          have hfalter :
              Falters (declarations r k >>= fun others => g (first.toList ++ others)) := by
            intro s hend
            rw [declarations_atEnd r k _ hend]
            exact hfalters _ s hend
          exact hfalter.spoils htail hpaired
    cases k' with
    | zero =>
      apply Tracks.of_atEnd (hstep 0 (by omega)).reads (by omega)
      · exact declarations_atEnd r (k + 1) g
      · exact fun _ => rfl
      · exact hg [] s s'
    | succ k' => exact hstep k' hk'

theorem tracks_block (hd : m ≤ d) (hm : m ≤ e) : Tracks c true m 1 (block r) (block r') s s' := by
  have hbound := h.bound
  have hbound' := h.bound'
  apply tracks_declarations h hd (by omega) (by omega)
  · intro body s s'
    exact .bind_pure (.expectSymbol (by decide) _) _
  · intro body
    exact (falters_expect _ _).bind _

omit h in
theorem tracks_parameters {k k' : Nat} (count : Nat) (hk : m ≤ k) (hk' : m ≤ k') :
    Tracks c true m 1 (parameters k count) (parameters k' count) s s' := by
  induction k generalizing k' m count s s' with
  | zero => exact .of_none (.intro_error rfl (.refl s)) (by omega)
  | succ k ih =>
    have hstep (k' : Nat) (hk' : m ≤ k' + 1) :
        Tracks c true m 1 (parameters (k + 1) count) (parameters (k' + 1) count) s s' := by
      have hrest (s s' : State) : Tracks c true m 1 (do
          let first ← identifier .parameterName
          if ← acceptSymbol .comma then
            let others ← parameters k (count + 1)
            return first :: others
          return [first]) (do
          let first ← identifier .parameterName
          if ← acceptSymbol .comma then
            let others ← parameters k' (count + 1)
            return first :: others
          return [first]) s s' := by
        refine .bind (.identifier _) fun first s₁ s₁' => .accept (by simp) ?_ (.pure _)
        intro s₂ s₂'
        exact .bind_pure ((ih (count + 1) (by omega) (by omega)).mono (Nat.le_refl _) (by omega)) _
      unfold parameters
      dsimp only
      split
      · exact .bind (.report _) fun _ => hrest
      · exact hrest s s'
    cases k' with
    | zero => exact .of_none (hstep k (by omega)).reads (by omega)
    | succ k' => exact hstep k' hk'

theorem tracks_functionBody (kind : FunctionKind) (name : Option Ident) (hd : m ≤ d + 3)
    (hm : m ≤ e) :
    Tracks c true m 4 (functionBody r kind name) (functionBody r' kind name) s s' := by
  have hbound := h.bound
  have hbound' := h.bound'
  have hrest (params : List Ident) (line : Nat) (s s' : State) : Tracks c true (m - 1) 3 (do
      let _ ← expectSymbol .rightParen .parametersClose
      let _ ← expectSymbol .leftBrace (.bodyOpen kind)
      let body ← block r
      return (⟨name, params, body, line⟩ : FunDecl)) (do
      let _ ← expectSymbol .rightParen .parametersClose
      let _ ← expectSymbol .leftBrace (.bodyOpen kind)
      let body ← block r'
      return (⟨name, params, body, line⟩ : FunDecl)) s s' :=
    .bind (.expectSymbol (by decide) _) fun _ s₁ s₁' =>
      .bind (.expectSymbol (by decide) _) fun _ s₂ s₂' =>
        .bind_pure (tracks_block h (by omega) (by omega)) _
  refine .previous (.bind (.expectSymbol (by decide) _) fun _ s₁ s₁' => .check ?_)
  split
  · exact .bind (.pure []) fun params s₂ s₂' => hrest params _ s₂ s₂'
  · refine .bind ((tracks_parameters 0 (by omega) (by omega)).mono (Nat.le_refl _) (Nat.zero_le _))
      fun params s₂ s₂' => hrest params _ s₂ s₂'

theorem tracks_namedFunction (kind : FunctionKind) (hd : m ≤ d + 4) (hm : m ≤ e + 1) :
    Tracks c true m 5 (namedFunction r kind) (namedFunction r' kind) s s' :=
  .bind (.identifier _) fun _ _ _ => tracks_functionBody h kind _ (by omega) (by omega)

omit h in
theorem methods_atEnd (r : Rules) (k : Nat) {s : State} (hend : s.atEnd = true) :
    methods r k s = .ok [] s := by
  cases k with
  | zero => rfl
  | succ k =>
    unfold methods
    change (if (s.check _ || s.atEnd) = true then pure [] else _ : Parser (List FunDecl)) s = _
    rw [hend, Bool.or_true, if_pos rfl]
    rfl

theorem tracks_methods {k k' : Nat} (hd : m ≤ d + 4) (hm : m ≤ e + 1) (hk : m ≤ k + 1)
    (hk' : m ≤ k' + 1) : Tracks c true m 0 (methods r k) (methods r' k') s s' := by
  induction k generalizing k' m s s' with
  | zero =>
    apply Tracks.of_atEnd (.stay rfl) (by omega) (methods_atEnd r 0) (methods_atEnd r' k')
    exact .pure []
  | succ k ih =>
    have hstep (k' : Nat) (hk' : m ≤ k' + 2) :
        Tracks c true m 0 (methods r (k + 1)) (methods r' (k' + 1)) s s' := by
      refine .check (.atEnd ?_)
      split
      · exact .pure []
      · refine .bind (tracks_namedFunction h .method hd hm) fun first s₁ s₁' => ?_
        exact .bind_pure (ih (by omega) (by omega) (by omega) (by omega)) _
    cases k' with
    | zero =>
      apply Tracks.of_atEnd (hstep k (by omega)).reads (by omega) (methods_atEnd r (k + 1))
        (methods_atEnd r' 0)
      exact .pure []
    | succ k' => exact hstep k' hk'

theorem tracks_classDeclaration (hd : m ≤ d) (hm : m ≤ e) :
    Tracks c true m 3 (classDeclaration r) (classDeclaration r') s s' := by
  have hbound := h.bound
  have hbound' := h.bound'
  have hrest (name : Ident) (superclass : Option (Ident × Slot)) (s s' : State) :
      Tracks c true (m - 1) 2 (do
        let _ ← expectSymbol .leftBrace .classBodyOpen
        let members ← methods r r.bound
        let _ ← expectSymbol .rightBrace .classBodyClose
        return Stmt.classDecl name superclass members) (do
        let _ ← expectSymbol .leftBrace .classBodyOpen
        let members ← methods r' r'.bound
        let _ ← expectSymbol .rightBrace .classBodyClose
        return Stmt.classDecl name superclass members) s s' :=
    .bind (.expectSymbol (by decide) _) fun _ s₁ s₁' =>
      .bind (tracks_methods h (by omega) (by omega) (by omega) (by omega)) fun members s₂ s₂' =>
        .bind_pure (.expectSymbol (by decide) _) _
  refine .bind (.identifier _) fun name s₁ s₁' => .accept (by simp) ?_ ?_
  · intro s₂ s₂'
    refine .bind (.identifier _) fun parent s₃ s₃' => .bind (.pure _) fun superclass s₄ s₄' => ?_
    exact (hrest name superclass s₄ s₄').mono (by omega) (by omega)
  · exact .bind (.pure _) fun superclass s₂ s₂' => hrest name superclass s₂ s₂'

theorem tracks_varDeclaration (hm : m ≤ e) :
    Tracks c false m 2 (varDeclaration r) (varDeclaration r') s s' := by
  have hrest (name : Ident) (initializer : Option Expr) (s s' : State) :
      Tracks c false (m - 1) 1 (do
        let _ ← expectSymbol .semicolon .endOfVariable
        return Stmt.var name initializer) (do
        let _ ← expectSymbol .semicolon .endOfVariable
        return Stmt.var name initializer) s s' :=
    .bind_pure (.expectSemicolon _) _
  refine .bind (.identifier _) fun name s₁ s₁' => .accept (by simp) ?_ ?_
  · intro s₂ s₂'
    have hvalue := (h.expression s₂ s₂').mono (k := m - 1 - 1) (by omega) (Nat.le_refl 1)
    refine .bind hvalue fun value s₃ s₃' => .bind (.pure _) fun initializer s₄ s₄' => ?_
    exact (hrest name initializer s₄ s₄').mono (by omega) (by omega)
  · exact .bind (.pure _) fun value s₂ s₂' => hrest name value s₂ s₂'

/-! ## Statements -/

theorem tracks_expression (hm : m ≤ e) : Tracks c true m 1 r.expression r'.expression s s' :=
  (h.expression s s').mono hm (Nat.le_refl 1)

theorem tracks_nested (hd : m ≤ d) : Tracks c false m 1 r.statement r'.statement s s' :=
  (h.statement s s').mono hd (Nat.le_refl 1)

theorem tracks_expressionStatement (hm : m ≤ e) :
    Tracks c false m 2 (expressionStatement r) (expressionStatement r') s s' :=
  .bind (tracks_expression h hm) fun _ _ _ => .bind_pure (.expectSemicolon _) _

theorem tracks_optionalExpression (terminator : Symbol) (hm : m ≤ e) : Tracks c true m 0
    (optionalExpression r terminator) (optionalExpression r' terminator) s s' := by
  refine .check ?_
  split
  · exact .pure none
  · exact (Tracks.bind_pure (tracks_expression h hm) _).mono (Nat.le_refl m) (Nat.zero_le 1)

theorem falters_optionalExpression (terminator : Symbol) :
    Falters (optionalExpression r terminator) := by
  intro s hend
  have hrun : optionalExpression r terminator s = (r.expression >>= fun e => pure (some e)) s := by
    change (if s.check (.symbol terminator) = true then pure none else _ :
      Parser (Option Expr)) s = _
    rw [check_of_atEnd hend]
    rfl
  rw [hrun]
  exact h.falters.bind _ s hend

theorem tracks_forInitializer (hm : m ≤ e) :
    Tracks c false m 1 (forInitializer r) (forInitializer r') s s' := by
  have hrest : Tracks c false m 1 (do
      if ← acceptKeyword .varKw then
        let declared ← varDeclaration r
        return some declared
      else
        let evaluated ← expressionStatement r
        return some evaluated) (do
      if ← acceptKeyword .varKw then
        let declared ← varDeclaration r'
        return some declared
      else
        let evaluated ← expressionStatement r'
        return some evaluated) s s' := by
    refine .accept (by simp) ?_ ?_
    · intro s₁ s₁'
      exact .bind_pure ((tracks_varDeclaration h (by omega)).mono (Nat.le_refl _) (by omega)) _
    · exact .bind_pure ((tracks_expressionStatement h hm).mono (Nat.le_refl _) (by omega)) _
  unfold forInitializer acceptSymbol
  rw [accept_bind, accept_bind]
  apply Tracks.check
  split
  · rename_i hcheck
    obtain ⟨-, hend⟩ := peek_kind_of_check s hcheck
    refine .bind_pure (.advance hend ?_) _
    intro hinner
    cases hinner
  · exact hrest

/-- The semicolon after the initializer may be the last token before the seam, and a condition is
missing there. -/
theorem tracks_forStatement (hd : m ≤ d + 1) (hm : m ≤ e) :
    Tracks c false m 5 (forStatement r) (forStatement r') s s' := by
  refine .previous (.bind (.expectSymbol (by decide) _) fun _ s₁ s₁' => ?_)
  refine .bind_at_edge (tracks_forInitializer h (by omega)) ?_ ?_
  · intro initializer s₂ s₂'
    refine .bind (tracks_optionalExpression h .semicolon (by omega)) fun condition s₃ s₃' => ?_
    refine .bind_at_edge (.expectSemicolon _) ?_ ?_
    · intro _ s₄ s₄'
      refine .bind (tracks_optionalExpression h .rightParen (by omega)) fun increment s₅ s₅' => ?_
      refine .bind (.expectSymbol (by decide) _) fun _ s₆ s₆' => ?_
      exact .bind_pure (tracks_nested h (by omega)) _
    · intro _ _ s₄ s₄' htail hpaired
      exact ((falters_optionalExpression h .rightParen).bind _).spoils htail hpaired
  · intro _ initializer s₂ s₂' htail hpaired
    exact ((falters_optionalExpression h .semicolon).bind _).spoils htail hpaired

/-- At the seam neither run goes on with an `else`. -/
theorem tracks_ifStatement (hd : m ≤ d + 1) (hm : m ≤ e) :
    Tracks c false m 4 (ifStatement r) (ifStatement r') s s' := by
  refine .bind (.expectSymbol (by decide) _) fun _ s₁ s₁' => ?_
  refine .bind (tracks_expression h (by omega)) fun condition s₂ s₂' => ?_
  refine .bind (.expectSymbol (by decide) _) fun _ s₃ s₃' => ?_
  refine .bind_at_edge (tracks_nested h (by omega)) ?_ ?_
  · intro thenBranch s₄ s₄'
    refine .accept (by simp) ?_ (.pure _)
    intro s₅ s₅'
    exact .bind_pure ((tracks_nested h (by omega)).mono (Nat.le_refl _) (by omega)) _
  · intro _ thenBranch s₄ s₄' htail hpaired
    have hnone : s₄.check (.keyword .elseKw) = false := check_of_atEnd hpaired.atEnd _
    have hnone' : s₄'.check (.keyword .elseKw) = false := by
      apply check_of_ne
      unfold State.peek
      rw [hpaired.rest']
      exact (c.differs htail).2
    unfold acceptKeyword
    rw [bind_of_ok (accept_of_check hnone), bind_of_ok (accept_of_check hnone')]
    refine .ok hpaired fun hinner => ?_
    cases hinner

theorem tracks_whileStatement (hd : m ≤ d + 1) (hm : m ≤ e) :
    Tracks c false m 4 (whileStatement r) (whileStatement r') s s' := by
  refine .bind (.expectSymbol (by decide) _) fun _ s₁ s₁' => ?_
  refine .bind (tracks_expression h (by omega)) fun condition s₂ s₂' => ?_
  refine .bind (.expectSymbol (by decide) _) fun _ s₃ s₃' => ?_
  exact .bind_pure (tracks_nested h (by omega)) _

theorem tracks_returnStatement (hm : m ≤ e) :
    Tracks c false m 1 (returnStatement r) (returnStatement r') s s' :=
  .previous <| .bind (tracks_optionalExpression h .semicolon hm) fun _ _ _ =>
    .bind_pure (.expectSemicolon _) _

omit h in
theorem tracks_breakStatement : Tracks c false m 1 breakStatement breakStatement s s' :=
  .previous (.bind_pure (.expectSemicolon _) _)

theorem tracks_printStatement (hm : m ≤ e) :
    Tracks c false m 2 (printStatement r) (printStatement r') s s' :=
  .bind (tracks_expression h hm) fun _ _ _ => .bind_pure (.expectSemicolon _) _

theorem tracks_statement (hd : m ≤ d + 1) (hm : m ≤ e) :
    Tracks c false m 1 (statement r) (statement r') s s' := by
  refine .accept (by simp) (fun s₁ s₁' => ?_) <| .accept (by simp) (fun s₁ s₁' => ?_) <|
    .accept (by simp) (fun s₁ s₁' => ?_) <| .accept (by simp) (fun s₁ s₁' => ?_) <|
    .accept (by simp) (fun s₁ s₁' => ?_) <| .accept (by simp) (fun s₁ s₁' => ?_) <|
    .accept (by simp) (fun s₁ s₁' => ?_) ?_
  · exact (tracks_forStatement h (by omega) (by omega)).mono (Nat.le_refl _) (by omega)
  · exact (tracks_ifStatement h (by omega) (by omega)).mono (Nat.le_refl _) (by omega)
  · exact (tracks_whileStatement h (by omega) (by omega)).mono (Nat.le_refl _) (by omega)
  · exact (tracks_returnStatement h (by omega)).mono (Nat.le_refl _) (by omega)
  · exact tracks_breakStatement.mono (Nat.le_refl _) (by omega)
  · have hblock : Tracks c true (m - 1) 1 (block r) (block r') s₁ s₁' :=
      tracks_block h (by omega) (by omega)
    exact (Tracks.bind_pure hblock.edge _).mono (Nat.le_refl _) (by omega)
  · exact (tracks_printStatement h (by omega)).mono (Nat.le_refl _) (by omega)
  · exact (tracks_expressionStatement h hm).mono (Nat.le_refl _) (by omega)

theorem tracks_declarationRule (hd : m ≤ d + 1) (hm : m ≤ e) :
    Tracks c false m 1 (declarationRule r) (declarationRule r') s s' := by
  refine .accept (by simp) (fun s₁ s₁' => ?_) ?_
  · exact (tracks_classDeclaration h (by omega) (by omega)).edge.mono (Nat.le_refl _) (by omega)
  refine .check_two (by simp) (fun _ _ => rfl) ?_
  split
  · rename_i hboth
    obtain ⟨hpeek, hend⟩ := peek_kind_of_check s (Bool.and_eq_true_iff.1 hboth).1
    refine .bind (.advance hend fun _ => by simp [hpeek]) fun _ s₁ s₁' => ?_
    have hfunction : Tracks c true (m - 1) 5 (namedFunction r .function)
        (namedFunction r' .function) s₁ s₁' := tracks_namedFunction h _ (by omega) (by omega)
    exact (Tracks.bind_pure hfunction.edge _).mono (Nat.le_refl _) (by omega)
  · refine .accept (by simp) (fun s₁ s₁' => ?_) ?_
    · exact (tracks_varDeclaration h (by omega)).mono (Nat.le_refl _) (by omega)
    · exact tracks_statement h hd hm

/-! ## Expressions -/

theorem tracks_arguments {k k' : Nat} (count : Nat) (hm : m ≤ e) (hk : m ≤ k) (hk' : m ≤ k') :
    Tracks c true m 1 (arguments r k count) (arguments r' k' count) s s' := by
  induction k generalizing k' m count s s' with
  | zero => exact .of_none (.intro_error rfl (.refl s)) (by omega)
  | succ k ih =>
    have hstep (k' : Nat) (hk' : m ≤ k' + 1) :
        Tracks c true m 1 (arguments r (k + 1) count) (arguments r' (k' + 1) count) s s' := by
      have hrest (s s' : State) : Tracks c true m 1 (do
          let first ← r.expression
          if ← acceptSymbol .comma then
            let others ← arguments r k (count + 1)
            return first :: others
          return [first]) (do
          let first ← r'.expression
          if ← acceptSymbol .comma then
            let others ← arguments r' k' (count + 1)
            return first :: others
          return [first]) s s' := by
        refine .bind (tracks_expression h hm) fun first s₁ s₁' => .accept (by simp) ?_ (.pure _)
        intro s₂ s₂'
        exact .bind_pure ((ih (count + 1) (by omega) (by omega) (by omega)).mono (Nat.le_refl _)
          (by omega)) _
      unfold arguments
      dsimp only
      split
      · exact .bind (.report _) fun _ => hrest
      · exact hrest s s'
    cases k' with
    | zero => exact .of_none (hstep k (by omega)).reads (by omega)
    | succ k' => exact hstep k' hk'

theorem tracks_primary (hd : m ≤ d + 4) (hm : m ≤ e + 1) :
    Tracks c true m 1 (primary r) (primary r') s s' := by
  refine .peek ?_
  generalize hkind : s.peek.kind = kind
  have hpass {f f' : Token → Parser Expr} (hne : kind ≠ .eof) (hne' : kind ≠ .symbol .semicolon)
      (hf : ∀ t s₁ s₁', Tracks c true (m - 1) 0 (f t) (f' t) s₁ s₁') :
      Tracks c true m 1 (advance >>= f) (advance >>= f') s s' :=
    .bind (.advance (hkind ▸ hne) fun _ => hkind ▸ hne') hf
  split
  · exact hpass (by simp) (by simp) fun _ _ _ => .pure _
  · exact hpass (by simp) (by simp) fun _ _ _ => .pure _
  · exact hpass (by simp) (by simp) fun _ _ _ => .pure _
  · exact hpass (by simp) (by simp) fun _ _ _ => .pure _
  · exact hpass (by simp) (by simp) fun _ _ _ => .pure _
  · exact hpass (by simp) (by simp) fun _ _ _ => .pure _
  · refine hpass (by simp) (by simp) fun _ s₁ s₁' => ?_
    exact .bind (.expectSymbol (by decide) _) fun _ s₂ s₂' =>
      .mono (.bind_pure (.identifier _) _) (Nat.le_refl _) (Nat.zero_le _)
  · exact hpass (by simp) (by simp) fun _ _ _ => .pure _
  · refine hpass (by simp) (by simp) fun _ s₁ s₁' => ?_
    exact .mono (.bind_pure (tracks_functionBody h _ _ (by omega) (by omega)) _) (Nat.le_refl _)
      (Nat.zero_le _)
  · refine hpass (by simp) (by simp) fun _ s₁ s₁' => ?_
    refine .bind (tracks_expression h (by omega)) fun inner s₂ s₂' => ?_
    exact .mono (.bind_pure (.expectSymbol (by decide) _) _) (Nat.le_refl _) (Nat.zero_le _)
  · exact .fail

omit h in
theorem callSuffixes_atEnd (r : Rules) (k : Nat) (callee : Expr) {s : State}
    (hend : s.atEnd = true) : callSuffixes r k callee s = .ok callee s := by
  cases k with
  | zero => rfl
  | succ k =>
    unfold callSuffixes acceptSymbol
    rw [bind_of_ok (accept_of_check (check_of_atEnd hend _)), if_neg (by decide),
      bind_of_ok (accept_of_check (check_of_atEnd hend _))]
    rfl

theorem tracks_callSuffixes {k k' : Nat} (callee : Expr) (hm : m ≤ e) (hk : m ≤ k + 1)
    (hk' : m ≤ k' + 1) :
    Tracks c true m 0 (callSuffixes r k callee) (callSuffixes r' k' callee) s s' := by
  have hbound := h.bound
  have hbound' := h.bound'
  induction k generalizing k' m callee s s' with
  | zero =>
    apply Tracks.of_atEnd (.stay rfl) (by omega) (callSuffixes_atEnd r 0 callee)
      (callSuffixes_atEnd r' k' callee)
    exact .pure callee
  | succ k ih =>
    have hstep (k' : Nat) (hk' : m ≤ k' + 2) :
        Tracks c true m 0 (callSuffixes r (k + 1) callee) (callSuffixes r' (k' + 1) callee)
          s s' := by
      have hrest (passed : List Expr) (s s' : State) : Tracks c true (m - 1) 0 (do
          let close ← expectSymbol .rightParen .argumentsClose
          callSuffixes r k (.call callee passed close.line)) (do
          let close ← expectSymbol .rightParen .argumentsClose
          callSuffixes r' k' (.call callee passed close.line)) s s' :=
        .bind (.expectSymbol (by decide) _) fun close s₁ s₁' =>
          ih _ (by omega) (by omega) (by omega)
      refine .accept (by simp) (fun s₁ s₁' => .check ?_) <|
        .accept (by simp) (fun s₁ s₁' => ?_) (.pure _)
      · split
        · exact .bind (.pure []) fun passed s₂ s₂' => hrest passed s₂ s₂'
        · refine .bind (tracks_arguments h 0 (by omega) (by omega) (by omega)) ?_
          intro passed s₂ s₂'
          exact (hrest passed s₂ s₂').mono (by omega) (Nat.le_refl 0)
      · exact .bind (.identifier _) fun name s₂ s₂' => ih _ (by omega) (by omega) (by omega)
    cases k' with
    | zero =>
      apply Tracks.of_atEnd (hstep k (by omega)).reads (by omega)
        (callSuffixes_atEnd r (k + 1) callee) (callSuffixes_atEnd r' 0 callee)
      exact .pure callee
    | succ k' => exact hstep k' hk'

theorem tracks_call (hd : m ≤ d + 4) (hm : m ≤ e + 1) :
    Tracks c true m 1 (call r) (call r') s s' := by
  have hbound := h.bound
  have hbound' := h.bound'
  exact .bind (tracks_primary h hd hm) fun first s₁ s₁' =>
    tracks_callSuffixes h first (by omega) (by omega) (by omega)

theorem tracks_unary (hd : m ≤ d + 4) (hm : m ≤ e + 1) :
    Tracks c true m 1 (unary r) (unary r') s s' := by
  refine .peek ?_
  generalize hkind : s.peek.kind = kind
  split
  · refine .bind (.advance (by simp [hkind]) (by simp [hkind])) fun t s₁ s₁' => ?_
    exact .mono (.bind_pure ((h.unary s₁ s₁').mono (k := m - 1) (by omega) (Nat.le_refl 1)) _)
      (Nat.le_refl _) (Nat.zero_le _)
  · refine .bind (.advance (by simp [hkind]) (by simp [hkind])) fun t s₁ s₁' => ?_
    exact .mono (.bind_pure ((h.unary s₁ s₁').mono (k := m - 1) (by omega) (Nat.le_refl 1)) _)
      (Nat.le_refl _) (Nat.zero_le _)
  · exact tracks_call h hd hm

omit h in
theorem operands_atEnd {level : Level} (hlevel : level .eof = none) (operand : Parser Expr)
    (k : Nat) (left : Expr) {s : State} (hend : s.atEnd = true) :
    operands level operand k left s = .ok left s := by
  cases k with
  | zero => rfl
  | succ k =>
    have hkind : s.peek.kind = .eof := by simpa [State.atEnd] using hend
    have hpeek : peek s = .ok s.peek s := rfl
    unfold operands
    rw [bind_of_ok hpeek, hkind, hlevel]
    rfl

omit h in
theorem tracks_operands {level : Level} (hend : level .eof = none)
    (hsemicolon : level (.symbol .semicolon) = none) {operand operand' : Parser Expr}
    (hoperand : ∀ s s', Tracks c true m 1 operand operand' s s') {k k' : Nat} (left : Expr)
    (hk : m ≤ k + 1) (hk' : m ≤ k' + 1) :
    Tracks c true m 0 (operands level operand k left) (operands level operand' k' left) s s' := by
  induction k generalizing k' m left s s' with
  | zero =>
    apply Tracks.of_atEnd (.stay rfl) (by omega) (operands_atEnd hend operand 0 left)
      (operands_atEnd hend operand' k' left)
    exact .pure left
  | succ k ih =>
    have hstep (k' : Nat) (hk' : m ≤ k' + 2) : Tracks c true m 0
        (operands level operand (k + 1) left) (operands level operand' (k' + 1) left) s s' := by
      refine .peek ?_
      split
      · exact .pure left
      · rename_i node hnode
        have hadvance : Tracks c true m 1 advance advance s s' := by
          apply Tracks.advance
          · intro hkind
            rw [hkind, hend] at hnode
            cases hnode
          · intro _ hkind
            rw [hkind, hsemicolon] at hnode
            cases hnode
        refine .bind hadvance fun t s₁ s₁' => ?_
        refine .bind ((hoperand s₁ s₁').mono (Nat.sub_le m 1) (Nat.zero_le 1)) ?_
        intro right s₂ s₂'
        apply ih _ _ (by omega) (by omega)
        intro s s'
        exact (hoperand s s').mono (Nat.sub_le m 1) (Nat.le_refl 1)
    cases k' with
    | zero =>
      apply Tracks.of_atEnd (hstep k (by omega)).reads (by omega)
        (operands_atEnd hend operand (k + 1) left) (operands_atEnd hend operand' 0 left)
      exact .pure left
    | succ k' => exact hstep k' hk'

theorem tracks_operation {ls : List Level}
    (hls : ∀ level ∈ ls, level .eof = none ∧ level (.symbol .semicolon) = none) (hd : m ≤ d + 4)
    (hm : m ≤ e + 1) : Tracks c true m 1 (operation r ls) (operation r' ls) s s' := by
  have hbound := h.bound
  have hbound' := h.bound'
  induction ls generalizing m s s' with
  | nil => exact tracks_unary h hd hm
  | cons level tighter ih =>
    obtain ⟨hend, hsemicolon⟩ := hls level List.mem_cons_self
    have hoperand {m : Nat} (hd : m ≤ d + 4) (hm : m ≤ e + 1) (s s' : State) :
        Tracks c true m 1 (operation r tighter) (operation r' tighter) s s' :=
      ih (fun level hlevel => hls level (List.mem_cons_of_mem _ hlevel)) hd hm
    refine .bind (hoperand hd hm s s') fun left s₁ s₁' => ?_
    exact tracks_operands hend hsemicolon (hoperand (by omega) (by omega)) left (by omega)
      (by omega)

omit h in
theorem level_eq_none :
    ∀ level ∈ levels, level .eof = none ∧ level (.symbol .semicolon) = none := by
  simp [levels, orLevel, andLevel, equalityLevel, comparisonLevel, termLevel, factorLevel]

theorem tracks_assignment (hd : m ≤ d + 4) (hm : m ≤ e + 1) :
    Tracks c true m 1 (assignment r) (assignment r') s s' := by
  refine .bind (tracks_operation h level_eq_none hd hm) ?_
  intro target s₁ s₁'
  refine .accept (by simp) ?_ (.pure _)
  intro s₂ s₂'
  refine .previous (.bind ((tracks_expression h (by omega)).mono (Nat.le_refl _) (Nat.zero_le 1))
    fun value s₃ s₃' => ?_)
  split
  · exact .pure _
  · exact .bind (.reportAt _ _) fun _ _ _ => .pure _

end Rules

end Lox.Grammar
