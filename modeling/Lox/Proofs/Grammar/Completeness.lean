import Lox.Proofs.Grammar.Lookahead
import Lox.Proofs.Grammar.Soundness

/-!
# The parser accepts what derives from the grammar

`Accepts p previous tokens a rest` says that the parser `p` reads `a` from the front of `tokens`
without an error and leaves `rest`. One lemma for each rule shows that it accepts what derives from
it, if the token after the derivation cannot continue it and the nesting depth covers the tokens
passed. The rules are tied together by induction on that depth.
-/

set_option autoImplicit false

namespace Lox.Grammar

variable {α β : Type}

def Accepts (p : Parser α) (previous : Token) (ts : List Token) (a : α) (rest : List Token) : Prop :=
  ∀ errors, ∃ previous', p ⟨previous, ts, errors⟩ = .ok a ⟨previous', rest, errors⟩

namespace Accepts

variable {p : Parser α} {f : α → Parser β} {t previous : Token} {ts mid rest : List Token}
  {a : α} {b : β}

theorem pure : Accepts (Pure.pure a) previous ts a ts :=
  fun _ => ⟨previous, rfl⟩

theorem bind (hp : Accepts p previous ts a mid)
    (hf : ∀ previous', Accepts (f a) previous' mid b rest) :
    Accepts (p >>= f) previous ts b rest := by
  intro errors
  obtain ⟨previous', hps⟩ := hp errors
  obtain ⟨previous'', hfs⟩ := hf previous' errors
  exact ⟨previous'', by simp [Bind.bind, EStateM.bind, hps, hfs]⟩

/-- A parser that does not stop may be followed from the state it leaves. -/
theorem bind_ok {previous' : Token}
    (hp : ∀ errors, p ⟨previous, ts, errors⟩ = .ok a ⟨previous', mid, errors⟩)
    (hf : Accepts (f a) previous' mid b rest) : Accepts (p >>= f) previous ts b rest := by
  intro errors
  obtain ⟨previous'', hfs⟩ := hf errors
  exact ⟨previous'', by simp [Bind.bind, EStateM.bind, hp, hfs]⟩

end Accepts

/-! ## Reading tokens -/

section Tokens
variable {f : Token → Parser β} {g : Bool → Parser β} {t previous : Token} {ts rest : List Token}
  {b : β} {k : Kind}

theorem accepts_previous (h : Accepts (f previous) previous ts b rest) :
    Accepts (Grammar.previous >>= f) previous ts b rest :=
  .bind_ok (fun _ => rfl) h

theorem accepts_peek (h : Accepts (f t) previous (t :: ts) b rest) :
    Accepts (peek >>= f) previous (t :: ts) b rest :=
  .bind_ok (fun _ => rfl) h

theorem accepts_peek_head (h : Accepts (f (ts.headD endToken)) previous ts b rest) :
    Accepts (peek >>= f) previous ts b rest :=
  .bind_ok (fun _ => rfl) h

theorem advance_eq (ht : t.kind ≠ .eof) (errors : List ParseError) :
    State.advance ⟨previous, t :: ts, errors⟩ = ⟨t, ts, errors⟩ := by
  have hne : (t.kind == .eof) = false := by simpa using ht
  simp [State.advance, hne]

theorem check_eq_true (hk : k ≠ .eof) (ht : t.kind = k) (errors : List ParseError) :
    State.check ⟨previous, t :: ts, errors⟩ k = true := by
  simp [State.check, State.atEnd, State.peek, ht, hk]

theorem check_eq_false (ht : nextKind ts ≠ k) (errors : List ParseError) :
    State.check ⟨previous, ts, errors⟩ k = false := by
  simp only [State.check, Bool.and_eq_false_imp, beq_eq_false_iff_ne]
  exact fun _ => ht

theorem accepts_advance (ht : t.kind ≠ .eof) (h : Accepts (f t) t ts b rest) :
    Accepts (advance >>= f) previous (t :: ts) b rest :=
  .bind_ok (fun errors => by simp [advance, advance_eq ht]) h

theorem accepts_expect {what : Expectation} (hk : k ≠ .eof) (ht : t.kind = k)
    (h : Accepts (f t) t ts b rest) : Accepts (expect k what >>= f) previous (t :: ts) b rest :=
  .bind_ok (fun errors => by simp [expect, check_eq_true hk ht, advance_eq (ht ▸ hk)]) h

theorem accepts_expectSymbol {symbol : Symbol} {what : Expectation} (ht : t.kind = .symbol symbol)
    (h : Accepts (f t) t ts b rest) :
    Accepts (expectSymbol symbol what >>= f) previous (t :: ts) b rest :=
  accepts_expect (by simp) ht h

theorem accepts_identifier {f : Ident → Parser β} {what : Expectation} (ht : t.kind = .identifier)
    (h : Accepts (f (ident t)) t ts b rest) :
    Accepts (identifier what >>= f) previous (t :: ts) b rest := by
  refine .bind_ok (fun errors => ?_) h
  simp [identifier, expect, check_eq_true, advance_eq, ht, Bind.bind, EStateM.bind, Pure.pure,
    EStateM.pure, ident]

theorem accepts_check (hk : k ≠ .eof) (ht : t.kind = k)
    (h : Accepts (g true) previous (t :: ts) b rest) :
    Accepts (check k >>= g) previous (t :: ts) b rest :=
  .bind_ok (fun errors => by simp [check, check_eq_true hk ht]) h

theorem accepts_check_false (ht : nextKind ts ≠ k) (h : Accepts (g false) previous ts b rest) :
    Accepts (check k >>= g) previous ts b rest :=
  .bind_ok (fun errors => by simp [check, check_eq_false ht]) h

theorem accepts_accept (hk : k ≠ .eof) (ht : t.kind = k) (h : Accepts (g true) t ts b rest) :
    Accepts (accept k >>= g) previous (t :: ts) b rest :=
  .bind_ok (fun errors => by simp [accept, check_eq_true hk ht, advance_eq (ht ▸ hk)]) h

theorem accepts_accept_false (ht : nextKind ts ≠ k) (h : Accepts (g false) previous ts b rest) :
    Accepts (accept k >>= g) previous ts b rest :=
  .bind_ok (fun errors => by simp [accept, check_eq_false ht]) h

theorem accepts_checkSecond {c : Bool} (hc : ∀ errors, State.checkSecond ⟨previous, ts, errors⟩ k = c)
    (h : Accepts (g c) previous ts b rest) : Accepts (checkSecond k >>= g) previous ts b rest :=
  .bind_ok (fun errors => by simp [checkSecond, hc errors]) h

theorem accepts_checkSecond_any (h : ∀ c, Accepts (g c) previous ts b rest) :
    Accepts (checkSecond k >>= g) previous ts b rest :=
  .bind_ok (fun _ => rfl) (h (State.checkSecond ⟨previous, ts, []⟩ k))

theorem accepts_atEnd (ht : t.kind = .eof) (h : Accepts (g true) previous (t :: ts) b rest) :
    Accepts (atEnd >>= g) previous (t :: ts) b rest :=
  .bind_ok (fun errors => by simp [atEnd, State.atEnd, State.peek, ht]) h

theorem accepts_atEnd_false (ht : nextKind ts ≠ .eof) (h : Accepts (g false) previous ts b rest) :
    Accepts (atEnd >>= g) previous ts b rest := by
  refine .bind_ok (fun errors => ?_) h
  have hne : State.atEnd ⟨previous, ts, errors⟩ = false := by
    simp only [State.atEnd, beq_eq_false_iff_ne]
    exact ht
  simp [atEnd, hne]

end Tokens

/-!
## Rules

A rule that is chosen by a keyword or by an opening brace starts after it.
-/

/-- The parsers that a rule gets for what it contains accept what derives from the grammar. -/
structure Complete (r : Rules) : Prop where
  expression : ∀ {ts rest : List Token} {e : Expr} {previous : Token},
    Derives true .expression ts (.expr e) rest → rank (nextKind rest) = 0 →
    ts.length ≤ r.bound + rest.length → Accepts r.expression previous ts e rest
  unary : ∀ {ts rest : List Token} {e : Expr} {previous : Token},
    Derives true .unary ts (.expr e) rest → rank (nextKind rest) < 8 →
    ts.length ≤ r.bound + rest.length → Accepts r.unary previous ts e rest
  statement : ∀ {ts rest : List Token} {s : Stmt} {isOpen : Bool} {previous : Token},
    Derives true .statement ts (.stmt s isOpen) rest →
    (isOpen = true → nextKind rest ≠ .keyword .elseKw) →
    ts.length ≤ r.bound + rest.length → Accepts r.statement previous ts s rest
  declaration : ∀ {ts rest : List Token} {s : Stmt} {isOpen : Bool} {previous : Token},
    Derives true .declaration ts (.stmt s isOpen) rest →
    (isOpen = true → nextKind rest ≠ .keyword .elseKw) →
    ts.length ≤ r.bound + rest.length → Accepts r.declaration previous ts (some s) rest

section Rules
variable {r : Rules} (h : Complete r) {ts rest : List Token} {previous : Token}
include h

/-! ### Declarations -/

theorem accepts_declarations {n : Nat} {ss : List Stmt} {close : Token}
    (hd : Derives true .declarations ts (.stmts ss) (close :: rest))
    (hclose : close.kind = .symbol .rightBrace) (hbound : ts.length ≤ r.bound + rest.length + 1)
    (hn : ts.length ≤ n + rest.length + 1) :
    Accepts (declarations r n) previous ts ss (close :: rest) := by
  induction n generalizing ts ss previous with
  | zero =>
    cases hd with
    | noDeclaration => exact .pure
    | moreDeclarations hfirst hothers =>
      have hless := hfirst.length_lt (by decide)
      have hle := hothers.length_le (by decide)
      simp only [List.length_cons] at hle
      omega
  | succ n ih =>
    cases hd with
    | noDeclaration =>
      have hend : nextKind (close :: rest) ≠ .eof := by simp [hclose]
      exact accepts_check (by simp) hclose (accepts_atEnd_false hend .pure)
    | moreDeclarations hfirst hothers =>
      have hless := hfirst.length_lt (by decide)
      have hle := hothers.length_le (by decide)
      simp only [List.length_cons] at hle
      obtain ⟨hbrace, heof, -⟩ := hfirst.declaration_first
      have helse := hothers.declarations_first (by simp [hclose])
      refine accepts_check_false hbrace (accepts_atEnd_false heof ?_)
      refine .bind (h.declaration hfirst (fun _ => helse) (by omega)) fun _ => ?_
      exact .bind (ih hothers (by omega) (by omega)) fun _ => .pure

theorem accepts_block {close : Token} {ss : List Stmt}
    (hd : Derives true .declarations ts (.stmts ss) (close :: rest))
    (hclose : close.kind = .symbol .rightBrace) (hbound : ts.length ≤ r.bound + rest.length + 1) :
    Accepts (block r) previous ts ss rest :=
  .bind (accepts_declarations h hd hclose hbound hbound) fun _ =>
    accepts_expectSymbol hclose .pure

omit h in
theorem accepts_parameters {n count : Nat} {ps : List Ident}
    (hd : Derives true .parameters ts (.params ps) rest) (hrest : nextKind rest ≠ .symbol .comma)
    (hcount : count + ps.length ≤ arityLimit) (hn : ts.length ≤ n + rest.length) :
    Accepts (parameters n count) previous ts ps rest := by
  induction n generalizing ts ps count previous with
  | zero =>
    have hless := hd.length_lt (by decide)
    omega
  | succ n ih =>
    have hfew : ¬ arityLimit ≤ count := by
      cases hd <;> simp only [List.length_cons] at hcount <;> omega
    simp only [parameters, ge_iff_le, hfew, if_false]
    cases hd with
    | lastParameter hname =>
      exact accepts_identifier hname (accepts_accept_false hrest .pure)
    | moreParameters hname hcomma hps =>
      refine accepts_identifier hname (accepts_accept (by simp) hcomma ?_)
      simp only [List.length_cons] at hcount hn
      exact .bind (ih hps (by omega) (by omega)) fun _ => .pure

theorem accepts_functionBody {kind : FunctionKind} {name : Option Ident} {ps : List Ident}
    {body : List Stmt} (hd : Derives true .code ts (.code ps body) rest)
    (hbound : ts.length ≤ r.bound + rest.length + 1) :
    Accepts (functionBody r kind name) previous ts
      ⟨name, ps, body, (name.map Ident.line).getD previous.line⟩ rest := by
  have tail {close previous' : Token} {mid : List Token} (hclose : close.kind = .symbol .rightParen)
      (hblock : Derives true .block mid (.stmts body) rest)
      (hmid : mid.length ≤ r.bound + rest.length + 1) : Accepts (do
        let _ ← expectSymbol .rightParen .parametersClose
        let _ ← expectSymbol .leftBrace (.bodyOpen kind)
        let body ← block r
        return (⟨name, ps, body, (name.map Ident.line).getD previous.line⟩ : FunDecl))
        previous' (close :: mid) ⟨name, ps, body, (name.map Ident.line).getD previous.line⟩ rest := by
    cases hblock with
    | block hbrace hbody hclose' =>
      simp only [List.length_cons] at hmid
      refine accepts_expectSymbol hclose (accepts_expectSymbol hbrace ?_)
      exact .bind (accepts_block h hbody hclose' (by omega)) fun _ => .pure
  refine accepts_previous ?_
  cases hd with
  | codeWithout hopening hclose hblock =>
    simp only [List.length_cons] at hbound
    refine accepts_expectSymbol hopening (accepts_check (by simp) hclose ?_)
    exact .bind .pure fun _ => tail hclose hblock (by omega)
  | codeWith hopening hps hcount hclose hblock =>
    have hle := hps.length_le (by decide)
    have hle' := hblock.length_le (by decide)
    simp only [List.length_cons] at hbound hle
    refine accepts_expectSymbol hopening (accepts_check_false (by simp [hps.parameters_first]) ?_)
    refine .bind (accepts_parameters hps (by simp [hclose]) (by omega) ?_) fun _ =>
      tail hclose hblock (by omega)
    simp only [List.length_cons]
    omega

theorem accepts_namedFunction {kind : FunctionKind} {name : Token} {ps : List Ident}
    {body : List Stmt} (hname : name.kind = .identifier)
    (hd : Derives true .code ts (.code ps body) rest)
    (hbound : ts.length ≤ r.bound + rest.length + 1) :
    Accepts (namedFunction r kind) previous (name :: ts) ⟨some (ident name), ps, body, name.line⟩
      rest :=
  accepts_identifier hname (accepts_functionBody h hd hbound)

theorem accepts_methods {n : Nat} {ds : List FunDecl} {close : Token}
    (hd : Derives true .methods ts (.methods ds) (close :: rest))
    (hclose : close.kind = .symbol .rightBrace) (hbound : ts.length ≤ r.bound + rest.length + 1)
    (hn : ts.length ≤ n + rest.length + 1) :
    Accepts (methods r n) previous ts ds (close :: rest) := by
  induction n generalizing ts ds previous with
  | zero =>
    cases hd with
    | noMethod => exact .pure
    | moreMethods _ hbody hothers =>
      have hless := hbody.length_lt (by decide)
      have hle := hothers.length_le (by decide)
      simp only [List.length_cons] at hle hn
      omega
  | succ n ih =>
    cases hd with
    | noMethod =>
      have hend : nextKind (close :: rest) ≠ .eof := by simp [hclose]
      exact accepts_check (by simp) hclose (accepts_atEnd_false hend .pure)
    | moreMethods hname hbody hothers =>
      have hless := hbody.length_lt (by decide)
      have hle := hothers.length_le (by decide)
      simp only [List.length_cons] at hle hn hbound
      refine accepts_check_false (by simp [hname]) (accepts_atEnd_false (by simp [hname]) ?_)
      refine .bind (accepts_namedFunction h hname hbody (by omega)) fun _ => ?_
      exact .bind (ih hothers (by omega) (by omega)) fun _ => .pure

theorem accepts_classDeclaration {name brace close : Token} {ds : List FunDecl}
    (hname : name.kind = .identifier) (hbrace : brace.kind = .symbol .leftBrace)
    (hds : Derives true .methods ts (.methods ds) (close :: rest))
    (hclose : close.kind = .symbol .rightBrace) (hbound : ts.length ≤ r.bound + rest.length + 1) :
    Accepts (classDeclaration r) previous (name :: brace :: ts) (.classDecl (ident name) none ds)
      rest := by
  refine accepts_identifier hname (accepts_accept_false (by simp [hbrace]) ?_)
  refine .bind .pure fun _ => accepts_expectSymbol hbrace ?_
  refine .bind (accepts_methods h hds hclose hbound hbound) fun _ => ?_
  exact accepts_expectSymbol hclose .pure

theorem accepts_subclassDeclaration {name less parent brace close : Token} {ds : List FunDecl}
    (hname : name.kind = .identifier) (hless : less.kind = .symbol .less)
    (hparent : parent.kind = .identifier) (hbrace : brace.kind = .symbol .leftBrace)
    (hds : Derives true .methods ts (.methods ds) (close :: rest))
    (hclose : close.kind = .symbol .rightBrace) (hbound : ts.length ≤ r.bound + rest.length + 1) :
    Accepts (classDeclaration r) previous (name :: less :: parent :: brace :: ts)
      (.classDecl (ident name) (some (ident parent, none)) ds) rest := by
  refine accepts_identifier hname (accepts_accept (by simp) hless ?_)
  refine accepts_identifier hparent (.bind .pure fun _ => accepts_expectSymbol hbrace ?_)
  refine .bind (accepts_methods h hds hclose hbound hbound) fun _ => ?_
  exact accepts_expectSymbol hclose .pure

theorem accepts_varDeclaration {kw : Token} {s : Stmt} {isOpen : Bool}
    (hd : Derives true .varDecl (kw :: ts) (.stmt s isOpen) rest)
    (hbound : ts.length ≤ r.bound + rest.length) :
    Accepts (varDeclaration r) previous ts s rest := by
  cases hd with
  | var _ hname hsemicolon =>
    refine accepts_identifier hname (accepts_accept_false (by simp [hsemicolon]) ?_)
    exact .bind .pure fun _ => accepts_expectSymbol hsemicolon .pure
  | varWith _ hname hequal he hsemicolon =>
    simp only [List.length_cons] at hbound
    refine accepts_identifier hname (accepts_accept (by simp) hequal ?_)
    refine .bind (h.expression he (by simp [hsemicolon, rank]) ?_) fun _ => ?_
    · simp only [List.length_cons]
      omega
    · exact .bind .pure fun _ => accepts_expectSymbol hsemicolon .pure

/-! ### Statements -/

theorem accepts_expressionStatement {s : Stmt} {isOpen : Bool}
    (hd : Derives true .exprStmt ts (.stmt s isOpen) rest)
    (hbound : ts.length ≤ r.bound + rest.length + 1) :
    Accepts (expressionStatement r) previous ts s rest := by
  cases hd with
  | exprStmt he hsemicolon =>
    refine .bind (h.expression he (by simp [hsemicolon, rank]) ?_) fun _ =>
      accepts_expectSymbol hsemicolon .pure
    simp only [List.length_cons]
    omega

/-- The next token after the expression is the symbol that ends it. -/
theorem accepts_optionalExpression {e : Option Expr} {t : Token} {terminator : Symbol}
    (hd : Derives true .optional ts (.optional e) (t :: rest)) (ht : t.kind = .symbol terminator)
    (hrank : rank (.symbol terminator) = 0) (hopens : opensExpression (.symbol terminator) = false)
    (hbound : ts.length ≤ r.bound + rest.length + 1) :
    Accepts (optionalExpression r terminator) previous ts e (t :: rest) := by
  cases hd with
  | absent => exact accepts_check (by simp) ht .pure
  | present he =>
    refine accepts_check_false ((he.opens rfl).ne hopens) ?_
    refine .bind (h.expression he (by simp [ht, hrank]) ?_) fun _ => .pure
    simp only [List.length_cons]
    omega

theorem accepts_forInitializer {init : Option Stmt}
    (hd : Derives true .forInit ts (.init init) rest)
    (hbound : ts.length ≤ r.bound + rest.length + 1) :
    Accepts (forInitializer r) previous ts init rest := by
  cases hd with
  | noInit hsemicolon => exact accepts_accept (by simp) hsemicolon .pure
  | varInit hvar =>
    have hfirst := hvar.varDecl_first
    cases ts with
    | nil => simp [nextKind, endToken] at hfirst
    | cons kw ts =>
      simp only [List.length_cons] at hbound
      refine accepts_accept_false (by simp [hfirst]) (accepts_accept (by simp) hfirst ?_)
      exact .bind (accepts_varDeclaration h hvar (by omega)) fun _ => .pure
  | exprInit he =>
    refine accepts_accept_false (he.exprStmt_first.ne rfl)
      (accepts_accept_false (he.exprStmt_first.ne rfl) ?_)
    exact .bind (accepts_expressionStatement h he hbound) fun _ => .pure

theorem accepts_forStatement {opening semicolon close : Token} {ts₁ ts₂ ts₃ : List Token}
    {init : Option Stmt} {condition increment : Option Expr} {body : Stmt} {isOpen : Bool}
    (hopening : opening.kind = .symbol .leftParen) (hinit : Derives true .forInit ts (.init init) ts₁)
    (hcondition : Derives true .optional ts₁ (.optional condition) (semicolon :: ts₂))
    (hsemicolon : semicolon.kind = .symbol .semicolon)
    (hincrement : Derives true .optional ts₂ (.optional increment) (close :: ts₃))
    (hclose : close.kind = .symbol .rightParen)
    (hbody : Derives true .statement ts₃ (.stmt body isOpen) rest)
    (hrest : isOpen = true → nextKind rest ≠ .keyword .elseKw)
    (hbound : ts.length ≤ r.bound + rest.length) :
    Accepts (forStatement r) previous (opening :: ts)
      (forTree previous.line init condition increment body) rest := by
  have hle₁ := hinit.length_le (by decide)
  have hle₂ := hcondition.length_le (by decide)
  have hle₃ := hincrement.length_le (by decide)
  have hle₄ := hbody.length_le (by decide)
  simp only [List.length_cons] at hle₂ hle₃
  refine accepts_previous (accepts_expectSymbol hopening ?_)
  refine .bind (accepts_forInitializer h hinit (by omega)) fun _ => ?_
  refine .bind (accepts_optionalExpression h hcondition hsemicolon rfl rfl (by omega)) fun _ => ?_
  refine accepts_expectSymbol hsemicolon ?_
  refine .bind (accepts_optionalExpression h hincrement hclose rfl rfl (by omega)) fun _ => ?_
  refine accepts_expectSymbol hclose (.bind (h.statement hbody hrest (by omega)) fun _ => ?_)
  rw [← forLoop_eq_forTree]
  exact .pure

theorem accepts_statement {s : Stmt} {isOpen : Bool}
    (hd : Derives true .statement ts (.stmt s isOpen) rest)
    (hrest : isOpen = true → nextKind rest ≠ .keyword .elseKw)
    (hbound : ts.length ≤ r.bound + rest.length + 1) : Accepts (statement r) previous ts s rest := by
  cases hd with
  | forStmt hkw hopening hinit hcondition hsemicolon hincrement hclose hbody =>
    simp only [List.length_cons] at hbound
    exact accepts_accept (by simp) hkw (accepts_forStatement h hopening hinit hcondition hsemicolon
      hincrement hclose hbody hrest (by omega))
  | ifThen hkw hopening he hclose hthen =>
    have hle := he.length_le (by decide)
    have hle' := hthen.length_le (by decide)
    simp only [List.length_cons] at hbound hle
    refine accepts_accept_false (by simp [hkw]) (accepts_accept (by simp) hkw ?_)
    refine accepts_expectSymbol hopening (.bind (h.expression he (by simp [hclose, rank]) ?_)
      fun _ => accepts_expectSymbol hclose ?_)
    · simp only [List.length_cons]
      omega
    · refine .bind (h.statement hthen (fun _ => hrest rfl) (by omega)) fun _ => ?_
      exact accepts_accept_false (hrest rfl) .pure
  | ifElse hkw hopening he hclose hthen helse hnearest helseBranch =>
    have hle := he.length_le (by decide)
    have hle' := hthen.length_le (by decide)
    have hle'' := helseBranch.length_le (by decide)
    simp only [List.length_cons] at hbound hle hle'
    refine accepts_accept_false (by simp [hkw]) (accepts_accept (by simp) hkw ?_)
    refine accepts_expectSymbol hopening (.bind (h.expression he (by simp [hclose, rank]) ?_)
      fun _ => accepts_expectSymbol hclose ?_)
    · simp only [List.length_cons]
      omega
    · refine .bind (h.statement hthen (by simp [hnearest rfl]) ?_) fun _ => ?_
      · simp only [List.length_cons]
        omega
      · refine accepts_accept (by simp) helse ?_
        exact .bind (h.statement helseBranch hrest (by omega)) fun _ => .pure
  | whileStmt hkw hopening he hclose hbody =>
    have hle := he.length_le (by decide)
    have hle' := hbody.length_le (by decide)
    simp only [List.length_cons] at hbound hle
    refine accepts_accept_false (by simp [hkw]) (accepts_accept_false (by simp [hkw])
      (accepts_accept (by simp) hkw ?_))
    refine accepts_expectSymbol hopening (.bind (h.expression he (by simp [hclose, rank]) ?_)
      fun _ => accepts_expectSymbol hclose ?_)
    · simp only [List.length_cons]
      omega
    · exact .bind (h.statement hbody hrest (by omega)) fun _ => .pure
  | returnStmt hkw he hsemicolon =>
    simp only [List.length_cons] at hbound
    refine accepts_accept_false (by simp [hkw]) (accepts_accept_false (by simp [hkw])
      (accepts_accept_false (by simp [hkw]) (accepts_accept (by simp) hkw ?_)))
    refine accepts_previous (.bind (accepts_optionalExpression h he hsemicolon rfl rfl (by omega))
      fun _ => ?_)
    exact accepts_expectSymbol hsemicolon .pure
  | breakStmt hkw hsemicolon =>
    refine accepts_accept_false (by simp [hkw]) (accepts_accept_false (by simp [hkw])
      (accepts_accept_false (by simp [hkw]) (accepts_accept_false (by simp [hkw])
        (accepts_accept (by simp) hkw ?_))))
    exact accepts_previous (accepts_expectSymbol hsemicolon .pure)
  | blockStmt hblock =>
    cases hblock with
    | block hbrace hss hclose =>
      simp only [List.length_cons] at hbound
      refine accepts_accept_false (by simp [hbrace]) (accepts_accept_false (by simp [hbrace])
        (accepts_accept_false (by simp [hbrace]) (accepts_accept_false (by simp [hbrace])
          (accepts_accept_false (by simp [hbrace]) (accepts_accept (by simp) hbrace ?_)))))
      exact .bind (accepts_block h hss hclose (by omega)) fun _ => .pure
  | printStmt hkw he hsemicolon =>
    simp only [List.length_cons] at hbound
    refine accepts_accept_false (by simp [hkw]) (accepts_accept_false (by simp [hkw])
      (accepts_accept_false (by simp [hkw]) (accepts_accept_false (by simp [hkw])
        (accepts_accept_false (by simp [hkw]) (accepts_accept_false (by simp [hkw])
          (accepts_accept (by simp) hkw ?_))))))
    refine .bind (h.expression he (by simp [hsemicolon, rank]) ?_) fun _ =>
      accepts_expectSymbol hsemicolon .pure
    simp only [List.length_cons]
    omega
  | expressed he =>
    have hfirst := he.exprStmt_first
    refine accepts_accept_false (hfirst.ne rfl) (accepts_accept_false (hfirst.ne rfl)
      (accepts_accept_false (hfirst.ne rfl) (accepts_accept_false (hfirst.ne rfl)
        (accepts_accept_false (hfirst.ne rfl) (accepts_accept_false (hfirst.ne rfl)
          (accepts_accept_false (hfirst.ne rfl) ?_))))))
    exact accepts_expressionStatement h he hbound

theorem accepts_declarationRule {s : Stmt} {isOpen : Bool}
    (hd : Derives true .declaration ts (.stmt s isOpen) rest)
    (hrest : isOpen = true → nextKind rest ≠ .keyword .elseKw)
    (hbound : ts.length ≤ r.bound + rest.length + 1) :
    Accepts (declarationRule r) previous ts s rest := by
  cases hd with
  | classDecl hkw hname hbrace hds hclose =>
    simp only [List.length_cons] at hbound
    exact accepts_accept (by simp) hkw
      (accepts_classDeclaration h hname hbrace hds hclose (by omega))
  | subclassDecl hkw hname hless hparent hbrace hds hclose =>
    simp only [List.length_cons] at hbound
    exact accepts_accept (by simp) hkw
      (accepts_subclassDeclaration h hname hless hparent hbrace hds hclose (by omega))
  | funDecl hkw hname hbody =>
    simp only [List.length_cons] at hbound
    refine accepts_accept_false (by simp [hkw]) (accepts_check (by simp) hkw ?_)
    refine accepts_checkSecond (c := true) (fun _ => by simp [State.checkSecond, hname]) ?_
    refine accepts_advance (by simp [hkw]) ?_
    exact .bind (accepts_namedFunction h hname hbody (by omega)) fun _ => .pure
  | declaredVar hvar =>
    have hfirst := hvar.varDecl_first
    cases ts with
    | nil => simp [nextKind, endToken] at hfirst
    | cons kw ts =>
      simp only [List.length_cons] at hbound
      refine accepts_accept_false (by simp [hfirst]) (accepts_check_false (by simp [hfirst]) ?_)
      refine accepts_checkSecond_any fun _ => accepts_accept (by simp) hfirst ?_
      exact accepts_varDeclaration h hvar (by omega)
  | statement hs =>
    obtain ⟨hclass, hvar, hfun⟩ := hs.statement_first
    refine accepts_accept_false hclass ?_
    have tail {previous : Token} : Accepts (do
        if ← acceptKeyword .varKw then varDeclaration r
        else statement r) previous ts s rest :=
      accepts_accept_false hvar (accepts_statement h hs hrest hbound)
    by_cases hkw : nextKind ts = .keyword .funKw
    · -- `fun` starts an expression here, and no name follows it.
      have hsecond := hfun hkw
      rcases ts with _ | ⟨kw, _ | ⟨opening, ts⟩⟩
      · simp [nextKind, endToken] at hkw
      · simp [nextKind, endToken] at hsecond
      · have hopening : opening.kind = .symbol .leftParen := hsecond
        refine accepts_check (by simp) hkw ?_
        exact accepts_checkSecond (c := false) (fun _ => by simp [State.checkSecond, hopening]) tail
    · exact accepts_check_false hkw (accepts_checkSecond_any fun _ => tail)

/-! ### Expressions -/

theorem accepts_arguments {n count more : Nat} {es : List Expr} {close : Token}
    (hd : Derives true (.arguments more) ts (.exprs es) (close :: rest))
    (hclose : close.kind = .symbol .rightParen) (hcount : count + more ≤ arityLimit)
    (hbound : ts.length ≤ r.bound + rest.length + 1) (hn : ts.length ≤ n + rest.length + 1) :
    Accepts (arguments r n count) previous ts es (close :: rest) := by
  induction n generalizing ts es count more previous with
  | zero =>
    have hless := hd.length_lt (by simp [Nonterminal.least])
    simp only [List.length_cons] at hless
    omega
  | succ n ih =>
    have hfew : ¬ arityLimit ≤ count := by
      cases hd <;> omega
    simp only [arguments, ge_iff_le, hfew, if_false]
    cases hd with
    | lastArgument he =>
      refine .bind (h.expression he (by simp [hclose, rank]) ?_) fun _ =>
        accepts_accept_false (by simp [hclose]) .pure
      simp only [List.length_cons]
      omega
    | moreArguments he hcomma hes =>
      have hle := he.length_lt (by decide)
      have hle' := hes.length_le (by simp)
      simp only [List.length_cons] at hle hle'
      refine .bind (h.expression he (by simp [hcomma, rank]) ?_) fun _ =>
        accepts_accept (by simp) hcomma ?_
      · simp only [List.length_cons]
        omega
      · exact .bind (ih hes (by omega) (by omega) (by omega)) fun _ => .pure

theorem accepts_primary {e : Expr} (hd : Derives true .primary ts (.expr e) rest)
    (hbound : ts.length ≤ r.bound + rest.length + 1) : Accepts (primary r) previous ts e rest := by
  cases hd with
  | @literal t value _ ht =>
    refine accepts_peek ?_
    have hliteral : Accepts (do
        let _ ← advance
        return Expr.literal value t.line) previous (t :: rest) (.literal value t.line) rest :=
      accepts_advance ht.ne_eof .pure
    obtain ⟨kind, lexeme, line⟩ := t
    cases ht <;> exact hliteral
  | this ht =>
    refine accepts_peek ?_
    simp only [ht]
    exact accepts_advance (by simp [ht]) .pure
  | name ht =>
    refine accepts_peek ?_
    simp only [ht]
    exact accepts_advance (by simp [ht]) .pure
  | group ht he hclose =>
    simp only [List.length_cons] at hbound
    refine accepts_peek ?_
    simp only [ht]
    refine accepts_advance (by simp [ht]) (.bind (h.expression he (by simp [hclose, rank]) ?_)
      fun _ => accepts_expectSymbol hclose .pure)
    simp only [List.length_cons]
    omega
  | super ht hdot hmethod =>
    refine accepts_peek ?_
    simp only [ht]
    exact accepts_advance (by simp [ht]) (accepts_expectSymbol hdot (accepts_identifier hmethod .pure))
  | lambda ht hcode =>
    simp only [List.length_cons] at hbound
    refine accepts_peek ?_
    simp only [ht]
    exact accepts_advance (by simp [ht]) (.bind (accepts_functionBody h hcode (by omega))
      fun _ => .pure)

theorem accepts_callSuffixes {n : Nat} {callee : Expr} {fs : List (Expr → Expr)}
    (hd : Derives true .suffixes ts (.suffixes fs) rest) (hrest : rank (nextKind rest) < 8)
    (hbound : ts.length ≤ r.bound + rest.length + 1) (hn : ts.length ≤ n + rest.length) :
    Accepts (callSuffixes r n callee) previous ts (applySuffixes callee fs) rest := by
  induction n generalizing ts fs callee previous with
  | zero =>
    cases hd with
    | noSuffix => exact .pure
    | callWithout _ _ hfs | get _ _ hfs =>
      have hle := hfs.length_le (by decide)
      simp only [List.length_cons] at hn
      omega
    | callWith _ hes _ _ hfs =>
      have hle := hes.length_le (by simp)
      have hle' := hfs.length_le (by decide)
      simp only [List.length_cons] at hn hle
      omega
  | succ n ih =>
    have tail {es : List Expr} {close previous : Token} {mid : List Token}
        {fs : List (Expr → Expr)} (hclose : close.kind = .symbol .rightParen)
        (hfs : Derives true .suffixes mid (.suffixes fs) rest)
        (hmid : mid.length ≤ r.bound + rest.length + 1) (hn : mid.length ≤ n + rest.length) :
        Accepts (do
          let close ← expectSymbol .rightParen .argumentsClose
          callSuffixes r n (.call callee es close.line)) previous (close :: mid)
          (applySuffixes (.call callee es close.line) fs) rest :=
      accepts_expectSymbol hclose (ih hfs hmid hn)
    cases hd with
    | noSuffix =>
      refine accepts_accept_false ?_ (accepts_accept_false ?_ .pure)
      · rintro heq
        simp [heq, rank] at hrest
      · rintro heq
        simp [heq, rank] at hrest
    | callWithout hopening hclose hfs =>
      simp only [List.length_cons] at hn hbound
      refine accepts_accept (by simp) hopening (accepts_check (by simp) hclose ?_)
      exact .bind .pure fun _ => tail hclose hfs (by omega) (by omega)
    | callWith hopening hes hcount hclose hfs =>
      have hle := hes.length_le (by simp)
      have hle' := hfs.length_le (by decide)
      simp only [List.length_cons] at hn hbound hle
      refine accepts_accept (by simp) hopening (accepts_check_false ((hes.opens rfl).ne rfl) ?_)
      exact .bind (accepts_arguments h hes hclose (by omega) (by omega) (by omega)) fun _ =>
        tail hclose hfs (by omega) (by omega)
    | get hdot hname hfs =>
      simp only [List.length_cons] at hn hbound
      refine accepts_accept_false (by simp [hdot]) (accepts_accept (by simp) hdot ?_)
      exact accepts_identifier hname (ih hfs (by omega) (by omega))

theorem accepts_call {e : Expr} (hd : Derives true .call ts (.expr e) rest)
    (hrest : rank (nextKind rest) < 8) (hbound : ts.length ≤ r.bound + rest.length + 1) :
    Accepts (call r) previous ts e rest := by
  cases hd with
  | call hprimary hfs =>
    have hle := hprimary.length_lt (by decide)
    have hle' := hfs.length_le (by decide)
    exact .bind (accepts_primary h hprimary (by omega)) fun _ =>
      accepts_callSuffixes h hfs hrest (by omega) (by omega)

theorem accepts_unary {e : Expr} (hd : Derives true .unary ts (.expr e) rest)
    (hrest : rank (nextKind rest) < 8) (hbound : ts.length ≤ r.bound + rest.length + 1) :
    Accepts (unary r) previous ts e rest := by
  cases hd with
  | @unary t op ts _ e ht he =>
    simp only [List.length_cons] at hbound
    refine accepts_peek ?_
    have hoperator : Accepts (do
        let line := (← advance).line
        return Expr.unary op (← r.unary) line) previous (t :: ts) (.unary op e t.line) rest :=
      accepts_advance ht.ne_eof (.bind (h.unary he hrest (by omega)) fun _ => .pure)
    obtain ⟨kind, lexeme, line⟩ := t
    cases ht <;> exact hoperator
  | called hcall =>
    have hfirst := hcall.opens_call
    cases ts with
    | nil => exact absurd hfirst.first (by simp [nextKind, endToken, opensPrimary])
    | cons t ts =>
      refine accepts_peek ?_
      have hbang : t.kind ≠ .symbol .bang := hfirst.ne rfl
      have hminus : t.kind ≠ .symbol .minus := hfirst.ne rfl
      split
      · contradiction
      · contradiction
      · exact accepts_call h hcall hrest hbound

omit h in
/-- `operand` has to accept only what `bound` covers. -/
theorem accepts_operands {p : Precedence} {operand : Parser Expr} {bound : Nat}
    (hoperand : ∀ {ts rest : List Token} {e : Expr} {previous : Token},
      Derives true p.operand ts (.expr e) rest → rank (nextKind rest) ≤ p.rank →
      ts.length ≤ bound + rest.length → Accepts operand previous ts e rest)
    {n : Nat} {left : Expr} {fs : List (Expr → Expr)}
    (hd : Derives true (.operations p) ts (.suffixes fs) rest)
    (hrest : rank (nextKind rest) < p.rank) (hbound : ts.length ≤ bound + rest.length)
    (hn : ts.length ≤ n + rest.length) :
    Accepts (operands p.level operand n left) previous ts (applySuffixes left fs) rest := by
  induction n generalizing ts fs left previous with
  | zero =>
    cases hd with
    | noOperation => exact .pure
    | moreOperations _ hright hfs =>
      have hle := hright.length_le p.operand_ne_program
      have hle' := hfs.length_le (by simp)
      simp only [List.length_cons] at hn
      omega
  | succ n ih =>
    cases hd with
    | noOperation =>
      have hnone : p.level (rest.headD endToken).kind = none := Precedence.level_eq_none hrest
      refine accepts_peek_head ?_
      simp only [hnone]
      exact .pure
    | moreOperations hop hright hfs =>
      have hle := hright.length_le p.operand_ne_program
      have hle' := hfs.length_le (by simp)
      simp only [List.length_cons] at hn hbound
      refine accepts_peek ?_
      simp only [Precedence.level_eq_some.2 hop]
      refine accepts_advance hop.ne_eof ?_
      refine .bind (hoperand hright (rank_operations hfs hrest) (by omega)) fun _ => ?_
      exact ih hfs (by omega) (by omega)

omit h in
theorem accepts_operation_cons {p : Precedence} {tighter : List Level} {e : Expr}
    (hoperand : ∀ {ts rest : List Token} {e : Expr} {previous : Token},
      Derives true p.operand ts (.expr e) rest → rank (nextKind rest) ≤ p.rank →
      ts.length ≤ r.bound + 1 + rest.length → Accepts (operation r tighter) previous ts e rest)
    (hd : Derives true (.binary p) ts (.expr e) rest) (hrest : rank (nextKind rest) < p.rank)
    (hbound : ts.length ≤ r.bound + 1 + rest.length) :
    Accepts (operation r (p.level :: tighter)) previous ts e rest := by
  cases hd with
  | binary hleft hfs =>
    have hless := hleft.length_lt ⟨p.operand_ne_program, p.least_operand⟩
    have hle := hfs.length_le (by simp)
    refine .bind (hoperand hleft (rank_operations hfs hrest) (by omega)) fun _ => ?_
    exact accepts_operands hoperand hfs hrest (by omega) (by omega)

theorem accepts_operation {e : Expr} (hd : Derives true (.binary .or) ts (.expr e) rest)
    (hrest : rank (nextKind rest) < 2) (hbound : ts.length ≤ r.bound + 1 + rest.length) :
    Accepts (operation r levels) previous ts e rest := by
  refine accepts_operation_cons (p := .or) (fun hd hrest hbound => ?_) hd hrest hbound
  refine accepts_operation_cons (p := .and) (fun hd hrest hbound => ?_) hd
    (Nat.lt_succ_of_le hrest) hbound
  refine accepts_operation_cons (p := .equality) (fun hd hrest hbound => ?_) hd
    (Nat.lt_succ_of_le hrest) hbound
  refine accepts_operation_cons (p := .comparison) (fun hd hrest hbound => ?_) hd
    (Nat.lt_succ_of_le hrest) hbound
  refine accepts_operation_cons (p := .term) (fun hd hrest hbound => ?_) hd
    (Nat.lt_succ_of_le hrest) hbound
  refine accepts_operation_cons (p := .factor) (fun hd hrest hbound => ?_) hd
    (Nat.lt_succ_of_le hrest) hbound
  exact accepts_unary h hd (Nat.lt_succ_of_le hrest) (by omega)

theorem accepts_assignment {e : Expr} (hd : Derives true .expression ts (.expr e) rest)
    (hrest : rank (nextKind rest) = 0) (hbound : ts.length ≤ r.bound + 1 + rest.length) :
    Accepts (assignment r) previous ts e rest := by
  -- The target is read as an operation, and the value after the equals sign as an expression.
  have hassigned {target value e : Expr} {ts mid : List Token} {equal previous : Token}
      (htarget : Derives true (.binary .or) ts (.expr target) (equal :: mid))
      (hequal : equal.kind = .symbol .equal) (hvalue : Derives true .expression mid (.expr value) rest)
      (hassign : assignment? target value = some e)
      (hbound : ts.length ≤ r.bound + 1 + rest.length) :
      Accepts (assignment r) previous ts e rest := by
    have hless := htarget.length_lt (by decide)
    have hle := hvalue.length_le (by decide)
    simp only [List.length_cons] at hless
    refine .bind (accepts_operation h htarget (by simp [hequal, rank]) ?_) fun _ => ?_
    · simp only [List.length_cons]
      omega
    · refine accepts_accept (by simp) hequal (accepts_previous ?_)
      refine .bind (h.expression hvalue hrest (by omega)) fun _ => ?_
      simp only [hassign]
      exact .pure
  cases hd with
  | assign hname hequal hvalue =>
    exact hassigned (Derives.or_of_call (.call (.name hname) .noSuffix)) hequal hvalue rfl hbound
  | set hobject hdot hname hequal hvalue =>
    exact hassigned (hobject.call_get hdot hname).or_of_call hequal hvalue rfl hbound
  | operation hoperation =>
    refine .bind (accepts_operation h hoperation (by omega) hbound) fun _ => ?_
    refine accepts_accept_false ?_ .pure
    intro hequal
    simp [hequal, rank] at hrest

end Rules

/-! ## All rules together -/

theorem accepts_recovering {p : Parser Stmt} {previous : Token} {ts rest : List Token} {s : Stmt}
    (h : Accepts p previous ts s rest) : Accepts (recovering p) previous ts (some s) rest := by
  intro errors
  obtain ⟨previous', hp⟩ := h errors
  exact ⟨previous', by simp [recovering, hp]⟩

theorem complete_rulesAt (n : Nat) : Complete (rulesAt n) := by
  induction n with
  | zero =>
    -- Each of these derivations passes a token.
    have hnone {N : Nonterminal} {ts rest : List Token} {tree : Tree}
        (hd : Derives true N ts tree rest) (hN : N ≠ .program ∧ N.least = 1)
        (hbound : ts.length ≤ (rulesAt 0).bound + rest.length) : False := by
      have hless := hd.length_lt hN
      simp only [rulesAt] at hbound
      omega
    exact ⟨fun hd _ hbound => (hnone hd (by decide) hbound).elim,
      fun hd _ hbound => (hnone hd (by decide) hbound).elim,
      fun hd _ hbound => (hnone hd (by decide) hbound).elim,
      fun hd _ hbound => (hnone hd (by decide) hbound).elim⟩
  | succ n ih =>
    have hbounds {k l : Nat} (hbound : k ≤ (rulesAt (n + 1)).bound + l) :
        k ≤ (rulesAt n).bound + 1 + l ∧ k ≤ (rulesAt n).bound + l + 1 := by
      simp only [rulesAt] at hbound ⊢
      omega
    exact ⟨fun hd hrest hbound => accepts_assignment ih hd hrest (hbounds hbound).1,
      fun hd hrest hbound => accepts_unary ih hd hrest (hbounds hbound).2,
      fun hd hrest hbound => accepts_statement ih hd hrest (hbounds hbound).2,
      fun hd hrest hbound => accepts_recovering
        (accepts_declarationRule ih hd hrest (hbounds hbound).2)⟩

theorem accepts_toEnd {m n : Nat} {ss : List Stmt} {ts : List Token} {eof previous : Token}
    (hd : Derives true .declarations ts (.stmts ss) [eof]) (heof : eof.kind = .eof)
    (hbound : ts.length ≤ m + 1) (hn : ts.length ≤ n + 1) :
    Accepts (toEnd (declaration m) n) previous ts ss [eof] := by
  induction n generalizing ts ss previous with
  | zero =>
    cases hd with
    | noDeclaration => exact .pure
    | moreDeclarations hfirst hothers =>
      have hless := hfirst.length_lt (by decide)
      have hle := hothers.length_le (by decide)
      simp only [List.length_singleton] at hle
      omega
  | succ n ih =>
    cases hd with
    | noDeclaration => exact accepts_atEnd heof .pure
    | moreDeclarations hfirst hothers =>
      have hless := hfirst.length_lt (by decide)
      have hle := hothers.length_le (by decide)
      simp only [List.length_singleton] at hle
      have helse := hothers.declarations_first (by simp [heof])
      refine accepts_atEnd_false hfirst.declaration_first.2.1 ?_
      refine .bind ((complete_rulesAt m).declaration hfirst (fun _ => helse) ?_) fun _ => ?_
      · simp only [rulesAt]
        omega
      · exact .bind (ih hothers (by omega) (by omega)) fun _ => .pure

theorem result_of_accepts {p : Parser α} {ts rest : List Token} {a : α}
    (h : Accepts p endToken ts a rest) : result (p (.start ts)) = .ok a := by
  obtain ⟨previous, hp⟩ := h []
  simp [State.start, hp, result]

theorem parseProgram_of_derives {ts : List Token} {p : Program}
    (h : Derives true .program ts (.stmts p) []) : parseProgram ts = .ok p := by
  cases h with
  | program hp heof =>
    exact result_of_accepts (accepts_toEnd hp heof (by simp only [depthBound]; omega)
      (by simp only [depthBound]; omega))

theorem parseExpression_of_derives {ts : List Token} {e : Expr} {eof : Token}
    (h : Derives true .expression ts (.expr e) [eof]) (heof : eof.kind = .eof) :
    parseExpression ts = .ok e := by
  have he : Accepts (expression (depthBound ts)) endToken ts e [eof] := by
    refine (complete_rulesAt (depthBound ts)).expression h (by simp [heof, rank]) ?_
    simp only [rulesAt, depthBound]
    omega
  exact result_of_accepts (.bind he fun _ => accepts_atEnd heof .pure)

end Lox.Grammar
