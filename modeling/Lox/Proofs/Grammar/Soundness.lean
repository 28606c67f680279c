import Lox.Proofs.Grammar.Derivation

/-!
# What the parser accepts derives from the grammar

`Ensures p s Q` says that the parser `p`, started in the state `s`, only adds errors, and that `Q`
holds of its result and the state it leaves if it adds none. One lemma for each rule gives the
derivation behind its result. The rules are tied together by induction on the nesting depth.
-/

set_option autoImplicit false

namespace Lox.Grammar

variable {α β : Type}

def Ensures (p : Parser α) (s : State) (Q : α → State → Prop) : Prop :=
  match p s with
  | .ok a s' => s.errors <+: s'.errors ∧ (s'.errors = s.errors → Q a s')
  | .error _ s' => s.errors <+: s'.errors

namespace Ensures

theorem mono {p : Parser α} {s : State} {Q R : α → State → Prop} (h : Ensures p s Q)
    (himp : ∀ a s', Q a s' → R a s') : Ensures p s R := by
  unfold Ensures at h ⊢
  split at h
  · exact ⟨h.1, fun he => himp _ _ (h.2 he)⟩
  · exact h

theorem pure {a : α} {s : State} {Q : α → State → Prop} (h : Q a s) :
    Ensures (Pure.pure a) s Q :=
  ⟨List.prefix_rfl, fun _ => h⟩

/-- What is known after the first parser is a premise of what holds after both. The second one is
followed from every state, because errors before it must not keep it from being followed. -/
theorem bind {p : Parser α} {f : α → Parser β} {s : State} {Q : α → State → Prop}
    {R : β → State → Prop} (hp : Ensures p s Q)
    (hf : ∀ a s', Ensures (f a) s' fun b s'' => Q a s' → R b s'') : Ensures (p >>= f) s R := by
  unfold Ensures at hp ⊢
  cases hps : p s with
  | error e s' =>
    have hrun : (p >>= f) s = .error e s' := by simp [Bind.bind, EStateM.bind, hps]
    simpa only [hrun, hps] using hp
  | ok a s' =>
    have hrun : (p >>= f) s = f a s' := by simp [Bind.bind, EStateM.bind, hps]
    simp only [hps] at hp
    rw [hrun]
    have hfs := hf a s'
    unfold Ensures at hfs
    cases hfa : f a s' with
    | error e s'' =>
      simp only [hfa] at hfs ⊢
      exact hp.1.trans hfs
    | ok b s'' =>
      simp only [hfa] at hfs ⊢
      refine ⟨hp.1.trans hfs.1, fun he => ?_⟩
      have hlen := hp.1.length_le
      have hlen' := hfs.1.length_le
      rw [he] at hlen'
      have hs' : s'.errors = s.errors := (hp.1.eq_of_length (by omega)).symm
      exact hfs.2 (he.trans hs'.symm) (hp.2 hs')

end Ensures

/-! ## Reading tokens -/

section Tokens
variable (s : State)

theorem ensures_peek : Ensures peek s fun t s' => t = s.peek ∧ s' = s :=
  ⟨List.prefix_rfl, fun _ => ⟨rfl, rfl⟩⟩

theorem ensures_atEnd : Ensures atEnd s fun b s' => b = s.atEnd ∧ s' = s :=
  ⟨List.prefix_rfl, fun _ => ⟨rfl, rfl⟩⟩

theorem ensures_check (kind : Kind) : Ensures (check kind) s fun b s' =>
    (b = true → s.peek.kind = kind) ∧ s' = s := by
  refine ⟨List.prefix_rfl, fun _ => ⟨fun h => ?_, rfl⟩⟩
  simp only [State.check, Bool.and_eq_true, beq_iff_eq] at h
  exact h.2

theorem ensures_checkSecond (kind : Kind) : Ensures (checkSecond kind) s fun _ s' => s' = s :=
  ⟨List.prefix_rfl, fun _ => rfl⟩

theorem ensures_previous : Ensures previous s fun t s' => t = s.previous ∧ s' = s :=
  ⟨List.prefix_rfl, fun _ => ⟨rfl, rfl⟩⟩

theorem rest_eq_advance (h : s.peek.kind ≠ .eof) :
    s.rest = s.advance.previous :: s.advance.rest ∧ s.advance.previous = s.peek := by
  obtain ⟨prev, rest, errors⟩ := s
  cases rest with
  | nil => exact absurd rfl h
  | cons t rest =>
    have ht : (t.kind == .eof) = false := by simpa [State.peek] using h
    simp [State.advance, State.peek, ht]

@[simp] theorem errors_advance : s.advance.errors = s.errors := by
  unfold State.advance
  split
  · rfl
  · split <;> rfl

theorem ensures_advance : Ensures advance s fun t s' =>
    s.peek.kind ≠ .eof → t = s.peek ∧ s'.previous = t ∧ s.rest = t :: s'.rest := by
  refine ⟨by simp, fun _ h => ?_⟩
  obtain ⟨hrest, hpeek⟩ := rest_eq_advance s h
  exact ⟨hpeek, rfl, hrest⟩

theorem peek_kind_of_check {kind : Kind} (h : s.check kind = true) :
    s.peek.kind = kind ∧ s.peek.kind ≠ .eof := by
  simpa [State.check, State.atEnd, and_comm] using h

theorem peek_kind_ne_of_check {kind : Kind} (hkind : kind ≠ .eof) (h : s.check kind = false) :
    s.peek.kind ≠ kind := by
  intro heq
  simp [State.check, State.atEnd, heq, hkind] at h

theorem ensures_accept {kind : Kind} (hkind : kind ≠ .eof) : Ensures (accept kind) s fun b s' =>
    if b then s'.previous.kind = kind ∧ s.rest = s'.previous :: s'.rest
    else s.peek.kind ≠ kind ∧ s' = s := by
  unfold Ensures accept
  cases h : s.check kind with
  | true =>
    obtain ⟨hpeek, hne⟩ := peek_kind_of_check s h
    obtain ⟨hrest, hprev⟩ := rest_eq_advance s hne
    exact ⟨by simp, fun _ => ⟨by rw [hprev, hpeek], hrest⟩⟩
  | false => exact ⟨List.prefix_rfl, fun _ => ⟨peek_kind_ne_of_check s hkind h, rfl⟩⟩

theorem ensures_acceptSymbol (symbol : Symbol) : Ensures (acceptSymbol symbol) s fun b s' =>
    if b then s'.previous.kind = .symbol symbol ∧ s.rest = s'.previous :: s'.rest
    else s.peek.kind ≠ .symbol symbol ∧ s' = s :=
  ensures_accept s (by simp)

theorem ensures_acceptKeyword (keyword : Keyword) : Ensures (acceptKeyword keyword) s fun b s' =>
    if b then s'.previous.kind = .keyword keyword ∧ s.rest = s'.previous :: s'.rest
    else s.peek.kind ≠ .keyword keyword ∧ s' = s :=
  ensures_accept s (by simp)

theorem ensures_report (fault : ParseFault) (Q : Unit → State → Prop) :
    Ensures (report fault) s Q := by
  refine ⟨List.prefix_append _ _, fun h => ?_⟩
  exact absurd h (by simp [State.record])

theorem ensures_reportAt (t : Token) (fault : ParseFault) (Q : Unit → State → Prop) :
    Ensures (reportAt t fault) s Q := by
  refine ⟨List.prefix_append _ _, fun h => ?_⟩
  exact absurd h (by simp [State.record])

theorem ensures_fail (what : Expectation) (Q : α → State → Prop) : Ensures (fail what) s Q :=
  List.prefix_rfl

theorem ensures_expect (kind : Kind) (what : Expectation) :
    Ensures (expect kind what) s fun t s' =>
      t.kind = kind ∧ s'.previous = t ∧ s.rest = t :: s'.rest := by
  unfold Ensures expect
  cases h : s.check kind with
  | true =>
    obtain ⟨hpeek, hne⟩ := peek_kind_of_check s h
    obtain ⟨hrest, hprev⟩ := rest_eq_advance s hne
    exact ⟨by simp, fun _ => ⟨by rw [hprev, hpeek], rfl, hrest⟩⟩
  | false => exact List.prefix_rfl

theorem ensures_identifier (what : Expectation) : Ensures (identifier what) s fun name s' =>
    ∃ t : Token, t.kind = .identifier ∧ name = ident t ∧ s'.previous = t ∧
      s.rest = t :: s'.rest := by
  refine .bind (ensures_expect s .identifier what) fun t s' => .pure ?_
  rintro ⟨hkind, hprev, hrest⟩
  exact ⟨t, hkind, rfl, hprev, hrest⟩

end Tokens

/-!
## Rules

A rule that is chosen by a keyword or by an opening brace starts after it.
-/

/-- A statement has been read from these tokens, and an `else` after it does not belong to it. -/
def StatementRead (ts : List Token) (stmt : Stmt) (s' : State) : Prop :=
  ∃ isOpen, Derives true .statement ts (.stmt stmt isOpen) s'.rest ∧
    (isOpen = true → s'.peek.kind ≠ .keyword .elseKw)

/-- The parsers that a rule gets for what it contains yield what derives from the grammar. -/
structure Sound (r : Rules) : Prop where
  expression : ∀ s, Ensures r.expression s fun e s' =>
    Derives true .expression s.rest (.expr e) s'.rest
  unary : ∀ s, Ensures r.unary s fun e s' => Derives true .unary s.rest (.expr e) s'.rest
  statement : ∀ s, Ensures r.statement s fun stmt s' => StatementRead s.rest stmt s'
  declaration : ∀ s, Ensures r.declaration s fun stmt? s' => ∃ stmt isOpen,
    stmt? = some stmt ∧ Derives true .declaration s.rest (.stmt stmt isOpen) s'.rest

section Rules
variable {r : Rules} (h : Sound r)
include h

/-! ### Declarations -/

theorem ensures_declarations (n : Nat) (s : State) : Ensures (declarations r n) s fun ss s' =>
    Derives true .declarations s.rest (.stmts ss) s'.rest := by
  induction n generalizing s with
  | zero => exact .pure .noDeclaration
  | succ n ih =>
    refine .bind (ensures_check s _) fun close s₁ => .bind (ensures_atEnd s₁) fun ending s₂ => ?_
    split
    · refine .pure ?_
      rintro ⟨-, rfl⟩ ⟨-, rfl⟩
      exact .noDeclaration
    · refine .bind (h.declaration s₂) fun first s₃ => .bind (ih s₃) fun others s₄ => .pure ?_
      rintro hothers ⟨stmt, isOpen, rfl, hfirst⟩ ⟨-, rfl⟩ ⟨-, rfl⟩
      exact .moreDeclarations hfirst hothers

theorem ensures_block (s : State) : Ensures (block r) s fun ss s' =>
    ∀ brace : Token, brace.kind = .symbol .leftBrace →
      Derives true .block (brace :: s.rest) (.stmts ss) s'.rest := by
  refine .bind (ensures_declarations h _ s) fun body s₁ =>
    .bind (ensures_expect s₁ _ _) fun close s₂ => .pure ?_
  rintro ⟨hclose, -, hrest⟩ hbody brace hbrace
  rw [hrest] at hbody
  exact .block hbrace hbody hclose

omit h in
theorem ensures_parameters (n count : Nat) (s : State) :
    Ensures (parameters n count) s fun ps s' =>
      Derives true .parameters s.rest (.params ps) s'.rest ∧ count + ps.length ≤ arityLimit := by
  induction n generalizing count s with
  | zero => exact ensures_fail s _ _
  | succ n ih =>
    unfold parameters
    dsimp only
    have tail (s₁ : State) : Ensures (do
        let first ← identifier .parameterName
        if ← acceptSymbol .comma then
          let others ← parameters n (count + 1)
          return first :: others
        return [first]) s₁ fun ps s' => count < arityLimit →
          Derives true .parameters s₁.rest (.params ps) s'.rest ∧
            count + ps.length ≤ arityLimit := by
      refine .bind (ensures_identifier s₁ _) fun first s₂ =>
        .bind (ensures_acceptSymbol s₂ _) fun comma s₃ => ?_
      cases comma with
      | false =>
        refine .pure ?_
        rintro ⟨-, rfl⟩ ⟨t, hkind, rfl, -, hrest⟩ hcount
        rw [hrest]
        exact ⟨.lastParameter hkind, hcount⟩
      | true =>
        refine .bind (ih (count + 1) s₃) fun others s₄ => .pure ?_
        rintro ⟨hothers, hlength⟩ ⟨hcomma, hrest'⟩ ⟨t, hkind, rfl, -, hrest⟩ -
        rw [hrest, hrest']
        refine ⟨.moreParameters hkind hcomma hothers, ?_⟩
        simp only [List.length_cons]
        omega
    split
    · refine .bind (ensures_report s _ (fun _ _ => False)) fun _ s₁ => (tail s₁).mono ?_
      intro ps s' _ hfalse
      exact hfalse.elim
    · rename_i hcount
      exact (tail s).mono fun ps s' hps => hps (by omega)

theorem ensures_functionBody (kind : FunctionKind) (name : Option Ident) (s : State) :
    Ensures (functionBody r kind name) s fun decl s' => ∃ ps body,
      decl = ⟨name, ps, body, (name.map Ident.line).getD s.previous.line⟩ ∧
        Derives true .code s.rest (.code ps body) s'.rest := by
  refine .bind (ensures_previous s) fun keyword s₁ => .bind (ensures_expect s₁ _ _) fun opening s₂ =>
    .bind (ensures_check s₂ _) fun close s₃ => ?_
  have tail (ps : List Ident) (s₄ : State) : Ensures (do
      let _ ← expectSymbol .rightParen .parametersClose
      let _ ← expectSymbol .leftBrace (.bodyOpen kind)
      let body ← block r
      return (⟨name, ps, body, (name.map Ident.line).getD keyword.line⟩ : FunDecl)) s₄
      fun decl s' => ∃ body close ts, decl = ⟨name, ps, body, (name.map Ident.line).getD keyword.line⟩ ∧
        close.kind = .symbol .rightParen ∧ s₄.rest = close :: ts ∧
        Derives true .block ts (.stmts body) s'.rest := by
    refine .bind (ensures_expect s₄ _ _) fun close s₅ => .bind (ensures_expect s₅ _ _) fun brace s₆ =>
      .bind (ensures_block h s₆) fun body s₇ => .pure ?_
    rintro hbody ⟨hbrace, -, hrest'⟩ ⟨hclose, -, hrest⟩
    exact ⟨body, close, s₅.rest, rfl, hclose, hrest, hrest' ▸ hbody brace hbrace⟩
  cases close with
  | true =>
    refine .bind (.pure (Q := fun ps s' => ps = [] ∧ s' = s₃) ⟨rfl, rfl⟩) fun ps s₄ =>
      (tail ps s₄).mono ?_
    rintro decl s' ⟨body, close, ts, rfl, hclose, hrest', hbody⟩ ⟨rfl, rfl⟩ ⟨-, rfl⟩
      ⟨hopening, -, hrest⟩ ⟨rfl, rfl⟩
    refine ⟨[], body, rfl, ?_⟩
    rw [hrest, hrest']
    exact .codeWithout hopening hclose hbody
  | false =>
    refine .bind (ensures_parameters r.bound 0 s₃) fun ps s₄ => (tail ps s₄).mono ?_
    rintro decl s' ⟨body, close, ts, rfl, hclose, hrest', hbody⟩ ⟨hps, hlength⟩ ⟨-, rfl⟩
      ⟨hopening, -, hrest⟩ ⟨rfl, rfl⟩
    refine ⟨ps, body, rfl, ?_⟩
    rw [hrest]
    rw [hrest'] at hps
    exact .codeWith hopening hps (by omega) hclose hbody

theorem ensures_namedFunction (kind : FunctionKind) (s : State) :
    Ensures (namedFunction r kind) s fun decl s' => ∃ (name : Token) (ts : List Token) (ps : List Ident)
      (body : List Stmt), s.rest = name :: ts ∧ name.kind = .identifier ∧
        decl = ⟨some (ident name), ps, body, name.line⟩ ∧
        Derives true .code ts (.code ps body) s'.rest := by
  refine .bind (ensures_identifier s _) fun name s₁ =>
    (ensures_functionBody h kind (some name) s₁).mono ?_
  rintro decl s' ⟨ps, body, rfl, hbody⟩ ⟨t, hkind, rfl, -, hrest⟩
  exact ⟨t, s₁.rest, ps, body, hrest, hkind, rfl, hbody⟩

theorem ensures_methods (n : Nat) (s : State) : Ensures (methods r n) s fun ds s' =>
    Derives true .methods s.rest (.methods ds) s'.rest := by
  induction n generalizing s with
  | zero => exact .pure .noMethod
  | succ n ih =>
    refine .bind (ensures_check s _) fun close s₁ => .bind (ensures_atEnd s₁) fun ending s₂ => ?_
    split
    · refine .pure ?_
      rintro ⟨-, rfl⟩ ⟨-, rfl⟩
      exact .noMethod
    · refine .bind (ensures_namedFunction h _ s₂) fun first s₃ => .bind (ih s₃) fun others s₄ =>
        .pure ?_
      rintro hothers ⟨name, ts, ps, body, hrest, hkind, rfl, hbody⟩ ⟨-, rfl⟩ ⟨-, rfl⟩
      rw [hrest]
      exact .moreMethods hkind hbody hothers

theorem ensures_classDeclaration (s : State) : Ensures (classDeclaration r) s fun stmt s' =>
    ∀ kw : Token, kw.kind = .keyword .classKw →
      Derives true .declaration (kw :: s.rest) (.stmt stmt false) s'.rest := by
  refine .bind (ensures_identifier s _) fun name s₁ =>
    .bind (ensures_acceptSymbol s₁ _) fun less s₂ => ?_
  have tail (superclass : Option (Ident × Slot)) (s₃ : State) : Ensures (do
      let _ ← expectSymbol .leftBrace .classBodyOpen
      let members ← methods r r.bound
      let _ ← expectSymbol .rightBrace .classBodyClose
      return Stmt.classDecl name superclass members) s₃ fun stmt s' => ∃ ds brace ts close,
        stmt = .classDecl name superclass ds ∧ brace.kind = .symbol .leftBrace ∧
        s₃.rest = brace :: ts ∧ Derives true .methods ts (.methods ds) (close :: s'.rest) ∧
        close.kind = .symbol .rightBrace := by
    refine .bind (ensures_expect s₃ _ _) fun brace s₄ => .bind (ensures_methods h _ s₄) fun ds s₅ =>
      .bind (ensures_expect s₅ _ _) fun close s₆ => .pure ?_
    rintro ⟨hclose, -, hrest'⟩ hds ⟨hbrace, -, hrest⟩
    exact ⟨ds, brace, s₄.rest, close, rfl, hbrace, hrest, hrest' ▸ hds, hclose⟩
  cases less with
  | true =>
    refine .bind (ensures_identifier s₂ _) fun parent s₃ =>
      .bind (.pure (Q := fun p s' => p = some (parent, none) ∧ s' = s₃) ⟨rfl, rfl⟩) fun p s₄ =>
        (tail p s₄).mono ?_
    rintro stmt s' ⟨ds, brace, ts, close, rfl, hbrace, hrest₄, hds, hclose⟩ ⟨rfl, rfl⟩
      ⟨t', hkind', rfl, -, hrest₃⟩ ⟨hless, hrest₂⟩ ⟨t, hkind, rfl, -, hrest₁⟩ kw hkw
    rw [hrest₁, hrest₂, hrest₃, hrest₄]
    exact .subclassDecl hkw hkind hless hkind' hbrace hds hclose
  | false =>
    refine .bind (.pure (Q := fun p s' => p = none ∧ s' = s₂) ⟨rfl, rfl⟩) fun p s₃ =>
      (tail p s₃).mono ?_
    rintro stmt s' ⟨ds, brace, ts, close, rfl, hbrace, hrest₃, hds, hclose⟩ ⟨rfl, rfl⟩
      ⟨-, rfl⟩ ⟨t, hkind, rfl, -, hrest₁⟩ kw hkw
    rw [hrest₁, hrest₃]
    exact .classDecl hkw hkind hbrace hds hclose

theorem ensures_varDeclaration (s : State) : Ensures (varDeclaration r) s fun stmt s' =>
    ∀ kw : Token, kw.kind = .keyword .varKw →
      Derives true .varDecl (kw :: s.rest) (.stmt stmt false) s'.rest := by
  refine .bind (ensures_identifier s _) fun name s₁ =>
    .bind (ensures_acceptSymbol s₁ _) fun equal s₂ => ?_
  have tail (initializer : Option Expr) (s₃ : State) : Ensures (do
      let _ ← expectSymbol .semicolon .endOfVariable
      return Stmt.var name initializer) s₃ fun stmt s' => ∃ semicolon : Token,
        stmt = .var name initializer ∧ semicolon.kind = .symbol .semicolon ∧
        s₃.rest = semicolon :: s'.rest := by
    refine .bind (ensures_expect s₃ _ _) fun semicolon s₄ => .pure ?_
    rintro ⟨hkind, -, hrest⟩
    exact ⟨semicolon, rfl, hkind, hrest⟩
  cases equal with
  | true =>
    refine .bind (h.expression s₂) fun value s₃ =>
      .bind (.pure (Q := fun i s' => i = some value ∧ s' = s₃) ⟨rfl, rfl⟩) fun i s₄ =>
        (tail i s₄).mono ?_
    rintro stmt s' ⟨semicolon, rfl, hsemicolon, hrest₄⟩ ⟨rfl, rfl⟩ hvalue ⟨hequal, hrest₂⟩
      ⟨t, hkind, rfl, -, hrest₁⟩ kw hkw
    rw [hrest₁, hrest₂]
    rw [hrest₄] at hvalue
    exact .varWith hkw hkind hequal hvalue hsemicolon
  | false =>
    refine .bind (.pure (Q := fun i s' => i = none ∧ s' = s₂) ⟨rfl, rfl⟩) fun i s₃ =>
      (tail i s₃).mono ?_
    rintro stmt s' ⟨semicolon, rfl, hsemicolon, hrest₃⟩ ⟨rfl, rfl⟩ ⟨-, rfl⟩
      ⟨t, hkind, rfl, -, hrest₁⟩ kw hkw
    rw [hrest₁, hrest₃]
    exact .var hkw hkind hsemicolon

/-! ### Statements -/

theorem ensures_expressionStatement (s : State) : Ensures (expressionStatement r) s fun stmt s' =>
    Derives true .exprStmt s.rest (.stmt stmt false) s'.rest := by
  refine .bind (h.expression s) fun value s₁ => .bind (ensures_expect s₁ _ _) fun semicolon s₂ =>
    .pure ?_
  rintro ⟨hkind, -, hrest⟩ hvalue
  rw [hrest] at hvalue
  exact .exprStmt hvalue hkind

theorem ensures_optionalExpression (terminator : Symbol) (s : State) :
    Ensures (optionalExpression r terminator) s fun e s' =>
      Derives true .optional s.rest (.optional e) s'.rest := by
  refine .bind (ensures_check s _) fun close s₁ => ?_
  cases close with
  | true =>
    refine .pure ?_
    rintro ⟨-, rfl⟩
    exact .absent
  | false =>
    refine .bind (h.expression s₁) fun value s₂ => .pure ?_
    rintro hvalue ⟨-, rfl⟩
    exact .present hvalue

theorem ensures_forInitializer (s : State) : Ensures (forInitializer r) s fun init s' =>
    Derives true .forInit s.rest (.init init) s'.rest := by
  refine .bind (ensures_acceptSymbol s _) fun semicolon s₁ => ?_
  cases semicolon with
  | true =>
    refine .pure ?_
    rintro ⟨hkind, hrest⟩
    rw [hrest]
    exact .noInit hkind
  | false =>
    refine .bind (ensures_acceptKeyword s₁ _) fun kw s₂ => ?_
    cases kw with
    | true =>
      refine .bind (ensures_varDeclaration h s₂) fun declared s₃ => .pure ?_
      rintro hdeclared ⟨hkind, hrest⟩ ⟨-, rfl⟩
      rw [hrest]
      exact .varInit (hdeclared s₂.previous hkind)
    | false =>
      refine .bind (ensures_expressionStatement h s₂) fun evaluated s₃ => .pure ?_
      rintro hevaluated ⟨-, rfl⟩ ⟨-, rfl⟩
      exact .exprInit hevaluated

theorem ensures_forStatement (s : State) : Ensures (forStatement r) s fun stmt s' =>
    s.previous.kind = .keyword .forKw → StatementRead (s.previous :: s.rest) stmt s' := by
  refine .bind (ensures_previous s) fun kw s₁ => .bind (ensures_expect s₁ _ _) fun opening s₂ =>
    .bind (ensures_forInitializer h s₂) fun init s₃ =>
    .bind (ensures_optionalExpression h _ s₃) fun condition s₄ =>
    .bind (ensures_expect s₄ _ _) fun semicolon s₅ =>
    .bind (ensures_optionalExpression h _ s₅) fun increment s₆ =>
    .bind (ensures_expect s₆ _ _) fun close s₇ => .bind (h.statement s₇) fun body s₈ => .pure ?_
  rintro ⟨isOpen, hbody, helse⟩ ⟨hclose, -, hrest₇⟩ hincrement ⟨hsemicolon, -, hrest₅⟩ hcondition
    hinit ⟨hopening, -, hrest₂⟩ ⟨rfl, rfl⟩ hkw
  rw [hrest₅] at hcondition
  rw [hrest₇] at hincrement
  rw [forLoop_eq_forTree, StatementRead, hrest₂]
  exact ⟨isOpen, .forStmt hkw hopening hinit hcondition hsemicolon hincrement hclose hbody, helse⟩

theorem ensures_ifStatement (s : State) : Ensures (ifStatement r) s fun stmt s' =>
    ∀ kw : Token, kw.kind = .keyword .ifKw → StatementRead (kw :: s.rest) stmt s' := by
  refine .bind (ensures_expect s _ _) fun opening s₁ => .bind (h.expression s₁) fun e s₂ =>
    .bind (ensures_expect s₂ _ _) fun close s₃ => .bind (h.statement s₃) fun thenBranch s₄ =>
    .bind (ensures_acceptKeyword s₄ _) fun elseKw s₅ => ?_
  cases elseKw with
  | true =>
    refine .bind (h.statement s₅) fun elseBranch s₆ => .pure ?_
    rintro ⟨isOpen, helseBranch, helse⟩ ⟨hkind, hrest₅⟩ ⟨thenOpen, hthen, hthenElse⟩
      ⟨hclose, -, hrest₃⟩ he ⟨hopening, -, hrest₁⟩ kw hkw
    rw [hrest₃] at he
    rw [StatementRead, hrest₁]
    -- An open branch would have taken the `else`.
    have hclosed : thenOpen = false := by
      cases thenOpen with
      | false => rfl
      | true => exact absurd (by simpa [State.peek, hrest₅] using hkind) (hthenElse rfl)
    rw [hrest₅] at hthen
    exact ⟨isOpen, .ifElse hkw hopening he hclose hthen hkind (fun _ => hclosed) helseBranch, helse⟩
  | false =>
    refine .pure ?_
    rintro ⟨hkind, rfl⟩ ⟨thenOpen, hthen, -⟩ ⟨hclose, -, hrest₃⟩ he ⟨hopening, -, hrest₁⟩ kw hkw
    rw [hrest₃] at he
    rw [StatementRead, hrest₁]
    exact ⟨true, .ifThen hkw hopening he hclose hthen, fun _ => hkind⟩

theorem ensures_whileStatement (s : State) : Ensures (whileStatement r) s fun stmt s' =>
    ∀ kw : Token, kw.kind = .keyword .whileKw → StatementRead (kw :: s.rest) stmt s' := by
  refine .bind (ensures_expect s _ _) fun opening s₁ => .bind (h.expression s₁) fun e s₂ =>
    .bind (ensures_expect s₂ _ _) fun close s₃ => .bind (h.statement s₃) fun body s₄ => .pure ?_
  rintro ⟨isOpen, hbody, helse⟩ ⟨hclose, -, hrest₃⟩ he ⟨hopening, -, hrest₁⟩ kw hkw
  rw [hrest₃] at he
  rw [StatementRead, hrest₁]
  exact ⟨isOpen, .whileStmt hkw hopening he hclose hbody, helse⟩

theorem ensures_returnStatement (s : State) : Ensures (returnStatement r) s fun stmt s' =>
    s.previous.kind = .keyword .returnKw → StatementRead (s.previous :: s.rest) stmt s' := by
  refine .bind (ensures_previous s) fun kw s₁ => .bind (ensures_optionalExpression h _ s₁)
    fun value s₂ => .bind (ensures_expect s₂ _ _) fun semicolon s₃ => .pure ?_
  rintro ⟨hsemicolon, -, hrest₃⟩ hvalue ⟨rfl, rfl⟩ hkw
  rw [hrest₃] at hvalue
  exact ⟨false, .returnStmt hkw hvalue hsemicolon, by simp⟩

omit h in
theorem ensures_breakStatement (s : State) : Ensures breakStatement s fun stmt s' =>
    s.previous.kind = .keyword .breakKw → StatementRead (s.previous :: s.rest) stmt s' := by
  refine .bind (ensures_previous s) fun kw s₁ => .bind (ensures_expect s₁ _ _) fun semicolon s₂ =>
    .pure ?_
  rintro ⟨hsemicolon, -, hrest₂⟩ ⟨rfl, rfl⟩ hkw
  rw [StatementRead, hrest₂]
  exact ⟨false, .breakStmt hkw hsemicolon, by simp⟩

theorem ensures_printStatement (s : State) : Ensures (printStatement r) s fun stmt s' =>
    ∀ kw : Token, kw.kind = .keyword .printKw → StatementRead (kw :: s.rest) stmt s' := by
  refine .bind (h.expression s) fun e s₁ => .bind (ensures_expect s₁ _ _) fun semicolon s₂ => .pure ?_
  rintro ⟨hsemicolon, -, hrest₂⟩ he kw hkw
  rw [hrest₂] at he
  exact ⟨false, .printStmt hkw he hsemicolon, by simp⟩

theorem ensures_statement (s : State) : Ensures (statement r) s fun stmt s' =>
    StatementRead s.rest stmt s' := by
  refine .bind (ensures_acceptKeyword s _) fun b s₁ => ?_
  cases b with
  | true =>
    refine (ensures_forStatement h s₁).mono ?_
    rintro stmt s' hstmt ⟨hkind, hrest⟩
    exact hrest ▸ hstmt hkind
  | false =>
  refine .bind (ensures_acceptKeyword s₁ _) fun b s₂ => ?_
  cases b with
  | true =>
    refine (ensures_ifStatement h s₂).mono ?_
    rintro stmt s' hstmt ⟨hkind, hrest⟩ ⟨-, rfl⟩
    exact hrest ▸ hstmt _ hkind
  | false =>
  refine .bind (ensures_acceptKeyword s₂ _) fun b s₃ => ?_
  cases b with
  | true =>
    refine (ensures_whileStatement h s₃).mono ?_
    rintro stmt s' hstmt ⟨hkind, hrest⟩ ⟨-, rfl⟩ ⟨-, rfl⟩
    exact hrest ▸ hstmt _ hkind
  | false =>
  refine .bind (ensures_acceptKeyword s₃ _) fun b s₄ => ?_
  cases b with
  | true =>
    refine (ensures_returnStatement h s₄).mono ?_
    rintro stmt s' hstmt ⟨hkind, hrest⟩ ⟨-, rfl⟩ ⟨-, rfl⟩ ⟨-, rfl⟩
    exact hrest ▸ hstmt hkind
  | false =>
  refine .bind (ensures_acceptKeyword s₄ _) fun b s₅ => ?_
  cases b with
  | true =>
    refine (ensures_breakStatement s₅).mono ?_
    rintro stmt s' hstmt ⟨hkind, hrest⟩ ⟨-, rfl⟩ ⟨-, rfl⟩ ⟨-, rfl⟩ ⟨-, rfl⟩
    exact hrest ▸ hstmt hkind
  | false =>
  refine .bind (ensures_acceptSymbol s₅ _) fun b s₆ => ?_
  cases b with
  | true =>
    refine .bind (ensures_block h s₆) fun body s₇ => .pure ?_
    rintro hbody ⟨hkind, hrest⟩ ⟨-, rfl⟩ ⟨-, rfl⟩ ⟨-, rfl⟩ ⟨-, rfl⟩ ⟨-, rfl⟩
    exact ⟨false, .blockStmt (hrest ▸ hbody _ hkind), by simp⟩
  | false =>
  refine .bind (ensures_acceptKeyword s₆ _) fun b s₇ => ?_
  cases b with
  | true =>
    refine (ensures_printStatement h s₇).mono ?_
    rintro stmt s' hstmt ⟨hkind, hrest⟩ ⟨-, rfl⟩ ⟨-, rfl⟩ ⟨-, rfl⟩ ⟨-, rfl⟩ ⟨-, rfl⟩ ⟨-, rfl⟩
    exact hrest ▸ hstmt _ hkind
  | false =>
    refine (ensures_expressionStatement h s₇).mono ?_
    rintro stmt s' hstmt ⟨-, rfl⟩ ⟨-, rfl⟩ ⟨-, rfl⟩ ⟨-, rfl⟩ ⟨-, rfl⟩ ⟨-, rfl⟩ ⟨-, rfl⟩
    exact ⟨false, .expressed hstmt, by simp⟩

theorem ensures_declarationRule (s : State) : Ensures (declarationRule r) s fun stmt s' =>
    ∃ isOpen, Derives true .declaration s.rest (.stmt stmt isOpen) s'.rest := by
  refine .bind (ensures_acceptKeyword s _) fun b s₁ => ?_
  cases b with
  | true =>
    refine (ensures_classDeclaration h s₁).mono ?_
    rintro stmt s' hstmt ⟨hkind, hrest⟩
    exact ⟨false, hrest ▸ hstmt _ hkind⟩
  | false =>
  refine .bind (ensures_check s₁ _) fun b s₂ => .bind (ensures_checkSecond s₂ _) fun c s₃ => ?_
  cases hbc : b && c with
  | true =>
    refine .bind (ensures_advance s₃) fun kw s₄ => .bind (ensures_namedFunction h _ s₄)
      fun decl s₅ => .pure ?_
    rintro ⟨name, ts, ps, body, hrest', hname, rfl, hbody⟩ hadvance rfl ⟨hcheck, rfl⟩ ⟨-, rfl⟩
    have hkind := hcheck (by simp_all)
    obtain ⟨rfl, -, hrest⟩ := hadvance (by simp [hkind])
    rw [hrest, hrest']
    exact ⟨false, .funDecl hkind hname hbody⟩
  | false =>
  refine .bind (ensures_acceptKeyword s₃ _) fun b s₄ => ?_
  cases b with
  | true =>
    refine (ensures_varDeclaration h s₄).mono ?_
    rintro stmt s' hstmt ⟨hkind, hrest⟩ rfl ⟨-, rfl⟩ ⟨-, rfl⟩
    exact ⟨false, .declaredVar (hrest ▸ hstmt _ hkind)⟩
  | false =>
    refine (ensures_statement h s₄).mono ?_
    rintro stmt s' ⟨isOpen, hstmt, -⟩ ⟨-, rfl⟩ rfl ⟨-, rfl⟩ ⟨-, rfl⟩
    exact ⟨isOpen, .statement hstmt⟩

/-! ### Expressions -/

theorem ensures_arguments (n count : Nat) (s : State) :
    Ensures (arguments r n count) s fun es s' =>
      Derives true (.arguments es.length) s.rest (.exprs es) s'.rest ∧
        count + es.length ≤ arityLimit := by
  induction n generalizing count s with
  | zero => exact ensures_fail s _ _
  | succ n ih =>
    unfold arguments
    dsimp only
    have tail (s₁ : State) : Ensures (do
        let first ← r.expression
        if ← acceptSymbol .comma then
          let others ← arguments r n (count + 1)
          return first :: others
        return [first]) s₁ fun es s' => count < arityLimit →
          Derives true (.arguments es.length) s₁.rest (.exprs es) s'.rest ∧
            count + es.length ≤ arityLimit := by
      refine .bind (h.expression s₁) fun first s₂ =>
        .bind (ensures_acceptSymbol s₂ _) fun comma s₃ => ?_
      cases comma with
      | false =>
        refine .pure ?_
        rintro ⟨-, rfl⟩ hfirst hcount
        exact ⟨.lastArgument hfirst, hcount⟩
      | true =>
        refine .bind (ih (count + 1) s₃) fun others s₄ => .pure ?_
        rintro ⟨hothers, hlength⟩ ⟨hcomma, hrest⟩ hfirst -
        rw [hrest] at hfirst
        refine ⟨.moreArguments hfirst hcomma hothers, ?_⟩
        simp only [List.length_cons]
        omega
    split
    · refine .bind (ensures_report s _ (fun _ _ => False)) fun _ s₁ => (tail s₁).mono ?_
      intro es s' _ hfalse
      exact hfalse.elim
    · rename_i hcount
      exact (tail s).mono fun es s' hes => hes (by omega)

theorem ensures_primary (s : State) : Ensures (primary r) s fun e s' =>
    Derives true .primary s.rest (.expr e) s'.rest := by
  refine .bind (ensures_peek s) fun t s₁ => ?_
  have literal (value : Literal) (ht : LiteralToken t.kind value) : Ensures (do
      let _ ← advance
      return Expr.literal value t.line) s₁ fun e s' => t = s.peek ∧ s₁ = s →
        Derives true .primary s.rest (.expr e) s'.rest := by
    refine .bind (ensures_advance s₁) fun t' s₂ => .pure ?_
    rintro hadvance ⟨rfl, rfl⟩
    obtain ⟨rfl, -, hrest⟩ := hadvance (by intro he; rw [he] at ht; cases ht)
    rw [hrest]
    exact .literal ht
  split
  · rename_i hkind
    exact literal _ (hkind ▸ .false)
  · rename_i hkind
    exact literal _ (hkind ▸ .true)
  · rename_i hkind
    exact literal _ (hkind ▸ .nil)
  · rename_i x hkind
    exact literal _ (hkind ▸ .number x)
  · rename_i x hkind
    exact literal _ (hkind ▸ .string x)
  · rename_i hkind
    refine .bind (ensures_advance s₁) fun t' s₂ => .pure ?_
    rintro hadvance ⟨rfl, rfl⟩
    obtain ⟨rfl, -, hrest⟩ := hadvance (by simp [hkind])
    rw [hrest]
    exact .this hkind
  · rename_i hkind
    refine .bind (ensures_advance s₁) fun t' s₂ => .bind (ensures_expect s₂ _ _) fun dot s₃ =>
      .bind (ensures_identifier s₃ _) fun method s₄ => .pure ?_
    rintro ⟨name, hname, rfl, -, hrest₃⟩ ⟨hdot, -, hrest₂⟩ hadvance ⟨rfl, rfl⟩
    obtain ⟨rfl, -, hrest⟩ := hadvance (by simp [hkind])
    rw [hrest, hrest₂, hrest₃]
    exact .super hkind hdot hname
  · rename_i hkind
    refine .bind (ensures_advance s₁) fun t' s₂ => .pure ?_
    rintro hadvance ⟨rfl, rfl⟩
    obtain ⟨rfl, -, hrest⟩ := hadvance (by simp [hkind])
    rw [hrest]
    exact .name hkind
  · rename_i hkind
    refine .bind (ensures_advance s₁) fun t' s₂ => .bind (ensures_functionBody h _ _ s₂)
      fun decl s₃ => .pure ?_
    rintro ⟨ps, body, rfl, hbody⟩ hadvance ⟨rfl, rfl⟩
    obtain ⟨rfl, hprevious, hrest⟩ := hadvance (by simp [hkind])
    rw [hrest, hprevious]
    exact .lambda hkind hbody
  · rename_i hkind
    refine .bind (ensures_advance s₁) fun t' s₂ => .bind (h.expression s₂) fun inner s₃ =>
      .bind (ensures_expect s₃ _ _) fun close s₄ => .pure ?_
    rintro ⟨hclose, -, hrest₃⟩ hinner hadvance ⟨rfl, rfl⟩
    obtain ⟨rfl, -, hrest⟩ := hadvance (by simp [hkind])
    rw [hrest₃] at hinner
    rw [hrest]
    exact .group hkind hinner hclose
  · exact ensures_fail s₁ _ _

theorem ensures_callSuffixes (n : Nat) (callee : Expr) (s : State) :
    Ensures (callSuffixes r n callee) s fun e s' => ∃ fs, e = applySuffixes callee fs ∧
      Derives true .suffixes s.rest (.suffixes fs) s'.rest := by
  induction n generalizing callee s with
  | zero => exact .pure ⟨[], rfl, .noSuffix⟩
  | succ n ih =>
    refine .bind (ensures_acceptSymbol s _) fun opening s₁ => ?_
    cases opening with
    | true =>
      refine .bind (ensures_check s₁ _) fun close s₂ => ?_
      have tail (es : List Expr) (s₃ : State) : Ensures (do
          let close ← expectSymbol .rightParen .argumentsClose
          callSuffixes r n (.call callee es close.line)) s₃ fun e s' => ∃ close fs ts,
            close.kind = .symbol .rightParen ∧ s₃.rest = close :: ts ∧
            e = applySuffixes (.call callee es close.line) fs ∧
            Derives true .suffixes ts (.suffixes fs) s'.rest := by
        refine .bind (ensures_expect s₃ _ _) fun close s₄ => (ih _ s₄).mono ?_
        rintro e s' ⟨fs, rfl, hfs⟩ ⟨hclose, -, hrest⟩
        exact ⟨close, fs, s₄.rest, hclose, hrest, rfl, hfs⟩
      cases close with
      | true =>
        refine .bind (.pure (Q := fun es s' => es = [] ∧ s' = s₂) ⟨rfl, rfl⟩) fun es s₃ =>
          (tail es s₃).mono ?_
        rintro e s' ⟨close, fs, ts, hclose, hrest', rfl, hfs⟩ ⟨rfl, rfl⟩ ⟨-, rfl⟩ ⟨hopening, hrest⟩
        refine ⟨(fun callee => .call callee [] close.line) :: fs, rfl, ?_⟩
        rw [hrest, hrest']
        exact .callWithout hopening hclose hfs
      | false =>
        refine .bind (ensures_arguments h r.bound 0 s₂) fun es s₃ => (tail es s₃).mono ?_
        rintro e s' ⟨close, fs, ts, hclose, hrest', rfl, hfs⟩ ⟨hes, hcount⟩ ⟨-, rfl⟩
          ⟨hopening, hrest⟩
        refine ⟨(fun callee => .call callee es close.line) :: fs, rfl, ?_⟩
        rw [hrest]
        rw [hrest'] at hes
        exact .callWith hopening hes (by omega) hclose hfs
    | false =>
      refine .bind (ensures_acceptSymbol s₁ _) fun dot s₂ => ?_
      cases dot with
      | true =>
        refine .bind (ensures_identifier s₂ _) fun name s₃ => (ih _ s₃).mono ?_
        rintro e s' ⟨fs, rfl, hfs⟩ ⟨t, hname, rfl, -, hrest'⟩ ⟨hdot, hrest⟩ ⟨-, rfl⟩
        refine ⟨(fun object => .get object (ident t)) :: fs, rfl, ?_⟩
        rw [hrest, hrest']
        exact .get hdot hname hfs
      | false =>
        refine .pure ?_
        rintro ⟨-, rfl⟩ ⟨-, rfl⟩
        exact ⟨[], rfl, .noSuffix⟩

theorem ensures_call (s : State) : Ensures (call r) s fun e s' =>
    Derives true .call s.rest (.expr e) s'.rest := by
  refine .bind (ensures_primary h s) fun first s₁ => (ensures_callSuffixes h _ first s₁).mono ?_
  rintro e s' ⟨fs, rfl, hfs⟩ hfirst
  exact .call hfirst hfs

theorem ensures_unary (s : State) : Ensures (unary r) s fun e s' =>
    Derives true .unary s.rest (.expr e) s'.rest := by
  refine .bind (ensures_peek s) fun t s₁ => ?_
  have operator (op : UnaryOp) (ht : UnaryOperator t.kind op) : Ensures (do
      let line := (← advance).line
      return Expr.unary op (← r.unary) line) s₁ fun e s' => t = s.peek ∧ s₁ = s →
        Derives true .unary s.rest (.expr e) s'.rest := by
    refine .bind (ensures_advance s₁) fun t' s₂ => .bind (h.unary s₂) fun operand s₃ => .pure ?_
    rintro hoperand hadvance ⟨rfl, rfl⟩
    obtain ⟨rfl, -, hrest⟩ := hadvance (by intro he; rw [he] at ht; cases ht)
    rw [hrest]
    exact .unary ht hoperand
  split
  · rename_i hkind
    exact operator _ (hkind ▸ .not)
  · rename_i hkind
    exact operator _ (hkind ▸ .negate)
  · refine (ensures_call h s₁).mono ?_
    rintro e s' he ⟨-, rfl⟩
    exact .called he

omit h in
theorem ensures_operands {p : Precedence} {operand : Parser Expr}
    (hoperand : ∀ s, Ensures operand s fun e s' => Derives true p.operand s.rest (.expr e) s'.rest)
    (n : Nat) (left : Expr) (s : State) :
    Ensures (operands p.level operand n left) s fun e s' => ∃ fs, e = applySuffixes left fs ∧
      Derives true (.operations p) s.rest (.suffixes fs) s'.rest := by
  induction n generalizing left s with
  | zero => exact .pure ⟨[], rfl, .noOperation⟩
  | succ n ih =>
    refine .bind (ensures_peek s) fun t s₁ => ?_
    cases hlevel : p.level t.kind with
    | none =>
      refine .pure ?_
      rintro ⟨-, rfl⟩
      exact ⟨[], rfl, .noOperation⟩
    | some node =>
      have hop := Precedence.level_eq_some.1 hlevel
      refine .bind (ensures_advance s₁) fun t' s₂ => .bind (hoperand s₂) fun right s₃ =>
        (ih _ s₃).mono ?_
      rintro e s' ⟨fs, rfl, hfs⟩ hright hadvance ⟨rfl, rfl⟩
      obtain ⟨rfl, -, hrest⟩ := hadvance hop.ne_eof
      refine ⟨(fun left => node left right s₁.peek.line) :: fs, rfl, ?_⟩
      rw [hrest]
      exact .moreOperations hop hright hfs

omit h in
theorem ensures_operation_cons {p : Precedence} {tighter : List Level}
    (hoperand : ∀ s, Ensures (operation r tighter) s fun e s' =>
      Derives true p.operand s.rest (.expr e) s'.rest) (s : State) :
    Ensures (operation r (p.level :: tighter)) s fun e s' =>
      Derives true (.binary p) s.rest (.expr e) s'.rest := by
  refine .bind (hoperand s) fun left s₁ => (ensures_operands hoperand _ left s₁).mono ?_
  rintro e s' ⟨fs, rfl, hfs⟩ hleft
  exact .binary hleft hfs

theorem ensures_operation (s : State) : Ensures (operation r levels) s fun e s' =>
    Derives true (.binary .or) s.rest (.expr e) s'.rest := by
  have hunary : ∀ s, Ensures (operation r []) s fun e s' =>
    Derives true Precedence.factor.operand s.rest (.expr e) s'.rest := ensures_unary h
  have hfactor := ensures_operation_cons hunary
  have hterm := ensures_operation_cons (p := .term) hfactor
  have hcomparison := ensures_operation_cons (p := .comparison) hterm
  have hequality := ensures_operation_cons (p := .equality) hcomparison
  have hand := ensures_operation_cons (p := .and) hequality
  exact ensures_operation_cons (p := .or) hand s

theorem ensures_assignment (s : State) : Ensures (assignment r) s fun e s' =>
    Derives true .expression s.rest (.expr e) s'.rest := by
  refine .bind (ensures_operation h s) fun target s₁ =>
    .bind (ensures_acceptSymbol s₁ _) fun equal s₂ => ?_
  cases equal with
  | false =>
    refine .pure ?_
    rintro ⟨-, rfl⟩ htarget
    exact .operation htarget
  | true =>
    refine .bind (ensures_previous s₂) fun equal s₃ => .bind (h.expression s₃) fun value s₄ => ?_
    cases hassign : assignment? target value with
    | none =>
      refine .bind (ensures_reportAt s₄ _ _ (fun _ _ => False)) fun _ s₅ => .pure ?_
      intro hfalse
      exact hfalse.elim
    | some e =>
      refine .pure ?_
      rintro hvalue ⟨rfl, rfl⟩ ⟨hequal, hrest⟩ htarget
      rw [hrest] at htarget
      -- What can be assigned to is a name or ends with the name of a property.
      unfold assignment? at hassign
      split at hassign
      · obtain rfl := Option.some.inj hassign
        obtain ⟨t, hts, ht, rfl⟩ := htarget.of_variable
        rw [hts]
        exact .assign ht hequal hvalue
      · obtain rfl := Option.some.inj hassign
        obtain ⟨dot, t, hobject, hdot, ht, rfl⟩ := htarget.of_get
        exact .set hobject hdot ht hequal hvalue
      · cases hassign

end Rules

/-! ## All rules together -/

theorem errors_skipToStatement (s : State) : s.skipToStatement.errors = s.errors := by
  simp [State.skipToStatement]

theorem ensures_recovering {p : Parser Stmt} {s : State} {Q : Stmt → State → Prop}
    (h : Ensures p s Q) :
    Ensures (recovering p) s fun stmt? s' => ∃ stmt, stmt? = some stmt ∧ Q stmt s' := by
  unfold Ensures recovering at *
  cases hp : p s with
  | ok stmt s' =>
    simp only [hp] at h ⊢
    exact ⟨h.1, fun he => ⟨stmt, rfl, h.2 he⟩⟩
  | error e s' =>
    simp only [hp] at h ⊢
    rw [errors_skipToStatement]
    refine ⟨h.trans (List.prefix_append _ _), fun he => ?_⟩
    -- The recorded error is one more than there were.
    have hlength := congrArg List.length he
    have hle := h.length_le
    simp only [State.record, List.length_append, List.length_singleton] at hlength
    omega

/-- The rules that a rule at depth `n + 1` contains. -/
def rulesAt (n : Nat) : Rules :=
  ⟨n, expression n, unaryExpression n, nestedStatement n, declaration n⟩

theorem sound_rulesAt (n : Nat) : Sound (rulesAt n) := by
  induction n with
  | zero =>
    refine ⟨fun s => ensures_fail s _ _, fun s => ensures_fail s _ _, fun s => ensures_fail s _ _,
      fun s => (ensures_recovering (ensures_fail s _ (fun _ _ => False))).mono ?_⟩
    rintro _ _ ⟨_, _, hfalse⟩
    exact hfalse.elim
  | succ n ih =>
    refine ⟨ensures_assignment ih, ensures_unary ih, ensures_statement ih,
      fun s => (ensures_recovering (ensures_declarationRule ih s)).mono ?_⟩
    rintro stmt? s' ⟨stmt, rfl, isOpen, hstmt⟩
    exact ⟨stmt, isOpen, rfl, hstmt⟩

theorem atEnd_of_rest_nil {s : State} (h : s.rest = []) : s.atEnd = true := by
  simp [State.atEnd, State.peek, h, endToken]

theorem ensures_toEnd {one : Parser (Option Stmt)}
    (hone : ∀ s, Ensures one s fun stmt? s' => ∃ stmt isOpen,
      stmt? = some stmt ∧ Derives true .declaration s.rest (.stmt stmt isOpen) s'.rest)
    (n : Nat) (s : State) :
    Ensures (toEnd one n) s fun ss s' => s.rest.length ≤ n →
      Derives true .declarations s.rest (.stmts ss) s'.rest ∧ s'.atEnd = true := by
  induction n generalizing s with
  | zero =>
    refine .pure fun hlength => ⟨.noDeclaration, atEnd_of_rest_nil ?_⟩
    exact List.eq_nil_of_length_eq_zero (by omega)
  | succ n ih =>
    refine .bind (ensures_atEnd s) fun ending s₁ => ?_
    cases ending with
    | true =>
      refine .pure ?_
      rintro ⟨hend, rfl⟩ -
      exact ⟨.noDeclaration, hend.symm⟩
    | false =>
      refine .bind (hone s₁) fun first s₂ => .bind (ih s₂) fun others s₃ => .pure ?_
      rintro hothers ⟨stmt, isOpen, rfl, hfirst⟩ ⟨-, rfl⟩ hlength
      -- A declaration passes a token, so the bound still covers what is left.
      have hless := hfirst.length_lt (by decide)
      obtain ⟨hothers, hend⟩ := hothers (by omega)
      exact ⟨.moreDeclarations hfirst hothers, hend⟩

/-- Where only the last token ends the input, the end is reached when only that token is left. -/
theorem rest_of_atEnd {k : Nat} {ts rest : List Token} {eof : Token} {s : State}
    (hts : ∀ t ∈ ts, t.kind ≠ .eof) (heof : eof.kind = .eof) (hpasses : Passes k (ts ++ [eof]) rest)
    (hrest : s.rest = rest) (hend : s.atEnd = true) : rest = [eof] := by
  obtain ⟨passed, happend, -, hpassed⟩ := hpasses
  rcases List.append_eq_append_iff.1 happend with ⟨left, rfl, hleft⟩ | ⟨left, rfl, rfl⟩
  · cases left with
    | nil => exact hleft.symm
    | cons t left =>
      obtain ⟨rfl, -⟩ := List.cons.inj hleft
      exact absurd heof (hpassed eof (by simp))
  · cases left with
    | nil => rfl
    | cons t left =>
      have ht := hts t (by simp)
      simp [State.atEnd, State.peek, hrest, ht] at hend

theorem ok_of_result {p : Parser α} {s : State} {a : α} {Q : α → State → Prop}
    (h : Ensures p s Q) (hs : s.errors = []) (hresult : result (p s) = .ok a) :
    ∃ s', Q a s' := by
  unfold Ensures at h
  cases hp : p s with
  | error e s' => simp [hp, result] at hresult
  | ok b s' =>
    simp only [hp] at h
    simp only [hp, result] at hresult
    split at hresult
    · rename_i hempty
      obtain rfl := Except.ok.inj hresult
      exact ⟨s', h.2 (by rw [List.isEmpty_iff.1 hempty, hs])⟩
    · cases hresult

section Whole
variable {ts : List Token} {eof : Token} (hts : ∀ t ∈ ts, t.kind ≠ .eof) (heof : eof.kind = .eof)
include hts heof

theorem derives_of_parseProgram {p : Program} (h : parseProgram (ts ++ [eof]) = .ok p) :
    Derives true .program (ts ++ [eof]) (.stmts p) [] := by
  have hall := ensures_toEnd (sound_rulesAt (depthBound (ts ++ [eof]))).declaration
    (depthBound (ts ++ [eof])) (.start (ts ++ [eof]))
  obtain ⟨s', hs'⟩ := ok_of_result hall rfl h
  obtain ⟨hp, hend⟩ := hs' (by simp [State.start, depthBound])
  rw [rest_of_atEnd hts heof (hp.passes (by simp)) rfl hend] at hp
  exact .program hp heof

theorem derives_of_parseExpression {e : Expr} (h : parseExpression (ts ++ [eof]) = .ok e) :
    Derives true .expression (ts ++ [eof]) (.expr e) [eof] := by
  have hwhole : Ensures (do
      let e ← expression (depthBound (ts ++ [eof]))
      if !(← atEnd) then
        report (.expected .endOfExpression)
      return e) (.start (ts ++ [eof])) fun e s' =>
        Derives true .expression (ts ++ [eof]) (.expr e) s'.rest ∧ s'.atEnd = true := by
    refine .bind ((sound_rulesAt (depthBound (ts ++ [eof]))).expression (.start (ts ++ [eof])))
      fun e s₁ => .bind (ensures_atEnd s₁) fun ending s₂ => ?_
    cases ending with
    | true =>
      refine .pure ?_
      rintro ⟨hend, rfl⟩ he
      exact ⟨he, hend.symm⟩
    | false =>
      refine .bind (ensures_report s₂ _ (fun _ _ => False)) fun _ s₃ => .pure ?_
      intro hfalse
      exact hfalse.elim
  obtain ⟨s', he, hend⟩ := ok_of_result hwhole rfl h
  rwa [rest_of_atEnd hts heof (he.passes (by simp)) rfl hend] at he

end Whole

end Lox.Grammar
