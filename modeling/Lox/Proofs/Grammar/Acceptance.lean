import Lox.Proofs.Grammar.Completeness

/-!
# The parser accepts exactly the grammar

An `else` may be moved to the innermost `if` that is still open without changing the tokens, so
what derives from the grammar at all also has a derivation in which every `else` belongs to the
nearest `if`. That derivation is the one the parser finds.
-/

set_option autoImplicit false

namespace Lox.Grammar

/-- Two trees stand for the same sort of thing. -/
inductive SameSort : Tree → Tree → Prop where
  | expr {e e' : Expr} : SameSort (.expr e) (.expr e')
  | exprs {es es' : List Expr} : SameSort (.exprs es) (.exprs es')
  | optional {e e' : Option Expr} : SameSort (.optional e) (.optional e')
  | suffixes {fs fs' : List (Expr → Expr)} : SameSort (.suffixes fs) (.suffixes fs')
  | stmt {s s' : Stmt} {isOpen isOpen' : Bool} : SameSort (.stmt s isOpen) (.stmt s' isOpen')
  | stmts {ss ss' : List Stmt} : SameSort (.stmts ss) (.stmts ss')
  | init {s s' : Option Stmt} : SameSort (.init s) (.init s')
  | code {ps ps' : List Ident} {body body' : List Stmt} : SameSort (.code ps body) (.code ps' body')
  | params {ps ps' : List Ident} : SameSort (.params ps) (.params ps')
  | methods {ds ds' : List FunDecl} : SameSort (.methods ds) (.methods ds')

/-- An `else` after an open statement can belong to the innermost `if` that is open in it. -/
theorem Derives.take_else {nearest : Bool} {ts mid rest : List Token} {s s' : Stmt} {isOpen : Bool}
    {elseKw : Token}
    (h : Derives nearest .statement ts (.stmt s true) (elseKw :: mid))
    (helse : elseKw.kind = .keyword .elseKw)
    (h' : Derives nearest .statement mid (.stmt s' isOpen) rest) :
    ∃ s'' isOpen', Derives nearest .statement ts (.stmt s'' isOpen') rest := by
  induction hn : ts.length using Nat.strongRecOn generalizing ts s with
  | _ n ih =>
    subst hn
    cases h with
    | expressed he => cases he
    | @ifThen _ _ _ _ _ _ _ _ thenOpen hkw hopening he hclose hthen =>
      have hless := he.length_lt (by decide)
      cases thenOpen with
      | false => exact ⟨_, _, .ifElse hkw hopening he hclose hthen helse (fun _ => rfl) h'⟩
      | true =>
        obtain ⟨_, _, hthen'⟩ := ih _ (by simp only [List.length_cons] at *; omega) hthen rfl
        exact ⟨_, _, .ifThen hkw hopening he hclose hthen'⟩
    | ifElse hkw hopening he hclose hthen helse' hnearest helseBranch =>
      have hless := he.length_lt (by decide)
      have hless' := hthen.length_lt (by decide)
      obtain ⟨_, _, helseBranch'⟩ :=
        ih _ (by simp only [List.length_cons] at *; omega) helseBranch rfl
      exact ⟨_, _, .ifElse hkw hopening he hclose hthen helse' hnearest helseBranch'⟩
    | whileStmt hkw hopening he hclose hbody =>
      have hless := he.length_lt (by decide)
      obtain ⟨_, _, hbody'⟩ := ih _ (by simp only [List.length_cons] at *; omega) hbody rfl
      exact ⟨_, _, .whileStmt hkw hopening he hclose hbody'⟩
    | forStmt hkw hopening hinit hcondition hsemicolon hincrement hclose hbody =>
      have hle := hinit.length_le (by decide)
      have hle' := hcondition.length_le (by decide)
      have hle'' := hincrement.length_le (by decide)
      obtain ⟨_, _, hbody'⟩ := ih _ (by simp only [List.length_cons] at *; omega) hbody rfl
      exact ⟨_, _, .forStmt hkw hopening hinit hcondition hsemicolon hincrement hclose hbody'⟩

theorem Derives.parameters_nearest {nearest nearest' : Bool} {ts rest : List Token} {ps : List Ident}
    (h : Derives nearest .parameters ts (.params ps) rest) :
    Derives nearest' .parameters ts (.params ps) rest := by
  induction ps generalizing ts with
  | nil => cases h
  | cons p ps ih =>
    cases h with
    | lastParameter hname => exact .lastParameter hname
    | moreParameters hname hcomma hps => exact .moreParameters hname hcomma (ih hps)

/-- Whether every `else` has to belong to the nearest `if` makes no difference to which tokens
derive from a nonterminal. -/
theorem Derives.change_nearest {nearest : Bool} {N : Nonterminal} {ts rest : List Token} {tree : Tree}
    (h : Derives nearest N ts tree rest) (nearest' : Bool) :
    ∃ tree', SameSort tree tree' ∧ Derives nearest' N ts tree' rest := by
  induction h with
  | program _ heof ih =>
    obtain ⟨_, ⟨⟩, h⟩ := ih
    exact ⟨_, .stmts, .program h heof⟩
  | noDeclaration => exact ⟨_, .stmts, .noDeclaration⟩
  | moreDeclarations _ _ ih ih' =>
    obtain ⟨_, ⟨⟩, h⟩ := ih
    obtain ⟨_, ⟨⟩, h'⟩ := ih'
    exact ⟨_, .stmts, .moreDeclarations h h'⟩
  | classDecl hkw hname hbrace _ hclose ih =>
    obtain ⟨_, ⟨⟩, h⟩ := ih
    exact ⟨_, .stmt, .classDecl hkw hname hbrace h hclose⟩
  | subclassDecl hkw hname hless hparent hbrace _ hclose ih =>
    obtain ⟨_, ⟨⟩, h⟩ := ih
    exact ⟨_, .stmt, .subclassDecl hkw hname hless hparent hbrace h hclose⟩
  | noMethod => exact ⟨_, .methods, .noMethod⟩
  | moreMethods hname _ _ ih ih' =>
    obtain ⟨_, ⟨⟩, h⟩ := ih
    obtain ⟨_, ⟨⟩, h'⟩ := ih'
    exact ⟨_, .methods, .moreMethods hname h h'⟩
  | funDecl hkw hname _ ih =>
    obtain ⟨_, ⟨⟩, h⟩ := ih
    exact ⟨_, .stmt, .funDecl hkw hname h⟩
  | codeWithout hopening hclose _ ih =>
    obtain ⟨_, ⟨⟩, h⟩ := ih
    exact ⟨_, .code, .codeWithout hopening hclose h⟩
  | codeWith hopening hps hcount hclose _ _ ih =>
    obtain ⟨_, ⟨⟩, h⟩ := ih
    exact ⟨_, .code, .codeWith hopening hps.parameters_nearest hcount hclose h⟩
  | lastParameter hname => exact ⟨_, .params, .lastParameter hname⟩
  | moreParameters hname hcomma _ ih =>
    obtain ⟨_, ⟨⟩, h⟩ := ih
    exact ⟨_, .params, .moreParameters hname hcomma h⟩
  | declaredVar _ ih =>
    obtain ⟨_, ⟨⟩, h⟩ := ih
    exact ⟨_, .stmt, .declaredVar h⟩
  | var hkw hname hsemicolon => exact ⟨_, .stmt, .var hkw hname hsemicolon⟩
  | varWith hkw hname hequal _ hsemicolon ih =>
    obtain ⟨_, ⟨⟩, h⟩ := ih
    exact ⟨_, .stmt, .varWith hkw hname hequal h hsemicolon⟩
  | statement _ ih =>
    obtain ⟨_, ⟨⟩, h⟩ := ih
    exact ⟨_, .stmt, .statement h⟩
  | exprStmt _ hsemicolon ih =>
    obtain ⟨_, ⟨⟩, h⟩ := ih
    exact ⟨_, .stmt, .exprStmt h hsemicolon⟩
  | expressed _ ih =>
    obtain ⟨_, ⟨⟩, h⟩ := ih
    exact ⟨_, .stmt, .expressed h⟩
  | forStmt hkw hopening _ _ hsemicolon _ hclose _ ih₁ ih₂ ih₃ ih₄ =>
    obtain ⟨_, ⟨⟩, h₁⟩ := ih₁
    obtain ⟨_, ⟨⟩, h₂⟩ := ih₂
    obtain ⟨_, ⟨⟩, h₃⟩ := ih₃
    obtain ⟨_, ⟨⟩, h₄⟩ := ih₄
    exact ⟨_, .stmt, .forStmt hkw hopening h₁ h₂ hsemicolon h₃ hclose h₄⟩
  | noInit hsemicolon => exact ⟨_, .init, .noInit hsemicolon⟩
  | varInit _ ih =>
    obtain ⟨_, ⟨⟩, h⟩ := ih
    exact ⟨_, .init, .varInit h⟩
  | exprInit _ ih =>
    obtain ⟨_, ⟨⟩, h⟩ := ih
    exact ⟨_, .init, .exprInit h⟩
  | ifThen hkw hopening _ hclose _ ih ih' =>
    obtain ⟨_, ⟨⟩, h⟩ := ih
    obtain ⟨_, ⟨⟩, h'⟩ := ih'
    exact ⟨_, .stmt, .ifThen hkw hopening h hclose h'⟩
  | ifElse hkw hopening _ hclose _ helse _ _ ih ih' ih'' =>
    obtain ⟨_, ⟨⟩, h⟩ := ih
    obtain ⟨_, ⟨⟩, h''⟩ := ih''
    obtain ⟨_, hsort, h'⟩ := ih'
    cases hsort with
    | @stmt _ _ _ thenOpen =>
      cases thenOpen with
      | false => exact ⟨_, .stmt, .ifElse hkw hopening h hclose h' helse (fun _ => rfl) h''⟩
      | true =>
        -- The `else` goes to an `if` inside the branch, and this one stays without.
        obtain ⟨_, _, hthen⟩ := h'.take_else helse h''
        exact ⟨_, .stmt, .ifThen hkw hopening h hclose hthen⟩
  | printStmt hkw _ hsemicolon ih =>
    obtain ⟨_, ⟨⟩, h⟩ := ih
    exact ⟨_, .stmt, .printStmt hkw h hsemicolon⟩
  | returnStmt hkw _ hsemicolon ih =>
    obtain ⟨_, ⟨⟩, h⟩ := ih
    exact ⟨_, .stmt, .returnStmt hkw h hsemicolon⟩
  | breakStmt hkw hsemicolon => exact ⟨_, .stmt, .breakStmt hkw hsemicolon⟩
  | whileStmt hkw hopening _ hclose _ ih ih' =>
    obtain ⟨_, ⟨⟩, h⟩ := ih
    obtain ⟨_, ⟨⟩, h'⟩ := ih'
    exact ⟨_, .stmt, .whileStmt hkw hopening h hclose h'⟩
  | blockStmt _ ih =>
    obtain ⟨_, ⟨⟩, h⟩ := ih
    exact ⟨_, .stmt, .blockStmt h⟩
  | block hbrace _ hclose ih =>
    obtain ⟨_, ⟨⟩, h⟩ := ih
    exact ⟨_, .stmts, .block hbrace h hclose⟩
  | absent => exact ⟨_, .optional, .absent⟩
  | present _ ih =>
    obtain ⟨_, ⟨⟩, h⟩ := ih
    exact ⟨_, .optional, .present h⟩
  | assign hname hequal _ ih =>
    obtain ⟨_, ⟨⟩, h⟩ := ih
    exact ⟨_, .expr, .assign hname hequal h⟩
  | set _ hdot hname hequal _ ih ih' =>
    obtain ⟨_, ⟨⟩, h⟩ := ih
    obtain ⟨_, ⟨⟩, h'⟩ := ih'
    exact ⟨_, .expr, .set h hdot hname hequal h'⟩
  | operation _ ih =>
    obtain ⟨_, ⟨⟩, h⟩ := ih
    exact ⟨_, .expr, .operation h⟩
  | binary _ _ ih ih' =>
    obtain ⟨_, ⟨⟩, h⟩ := ih
    obtain ⟨_, ⟨⟩, h'⟩ := ih'
    exact ⟨_, .expr, .binary h h'⟩
  | noOperation => exact ⟨_, .suffixes, .noOperation⟩
  | moreOperations hop _ _ ih ih' =>
    obtain ⟨_, ⟨⟩, h⟩ := ih
    obtain ⟨_, ⟨⟩, h'⟩ := ih'
    exact ⟨_, .suffixes, .moreOperations hop h h'⟩
  | unary hop _ ih =>
    obtain ⟨_, ⟨⟩, h⟩ := ih
    exact ⟨_, .expr, .unary hop h⟩
  | called _ ih =>
    obtain ⟨_, ⟨⟩, h⟩ := ih
    exact ⟨_, .expr, .called h⟩
  | call _ _ ih ih' =>
    obtain ⟨_, ⟨⟩, h⟩ := ih
    obtain ⟨_, ⟨⟩, h'⟩ := ih'
    exact ⟨_, .expr, .call h h'⟩
  | noSuffix => exact ⟨_, .suffixes, .noSuffix⟩
  | callWithout hopening hclose _ ih =>
    obtain ⟨_, ⟨⟩, h⟩ := ih
    exact ⟨_, .suffixes, .callWithout hopening hclose h⟩
  | callWith hopening _ hcount hclose _ ih ih' =>
    obtain ⟨_, ⟨⟩, h⟩ := ih
    obtain ⟨_, ⟨⟩, h'⟩ := ih'
    exact ⟨_, .suffixes, .callWith hopening h hcount hclose h'⟩
  | get hdot hname _ ih =>
    obtain ⟨_, ⟨⟩, h⟩ := ih
    exact ⟨_, .suffixes, .get hdot hname h⟩
  | lastArgument _ ih =>
    obtain ⟨_, ⟨⟩, h⟩ := ih
    exact ⟨_, .exprs, .lastArgument h⟩
  | moreArguments _ hcomma _ ih ih' =>
    obtain ⟨_, ⟨⟩, h⟩ := ih
    obtain ⟨_, ⟨⟩, h'⟩ := ih'
    exact ⟨_, .exprs, .moreArguments h hcomma h'⟩
  | literal ht => exact ⟨_, .expr, .literal ht⟩
  | this ht => exact ⟨_, .expr, .this ht⟩
  | name ht => exact ⟨_, .expr, .name ht⟩
  | group hopening _ hclose ih =>
    obtain ⟨_, ⟨⟩, h⟩ := ih
    exact ⟨_, .expr, .group hopening h hclose⟩
  | super ht hdot hmethod => exact ⟨_, .expr, .super ht hdot hmethod⟩
  | lambda hkw _ ih =>
    obtain ⟨_, ⟨⟩, h⟩ := ih
    exact ⟨_, .expr, .lambda hkw h⟩

/-- A list of tokens that ends with its only end of input is read as a program exactly if it
derives from the grammar of programs, and the result is the tree of the derivation in which every
`else` belongs to the nearest `if`. The same holds for a single expression. -/
theorem parse_iff_derives (ts : List Token) (eof : Token) (hts : ∀ t ∈ ts, t.kind ≠ .eof)
    (heof : eof.kind = .eof) :
    (∀ p, parseProgram (ts ++ [eof]) = .ok p ↔
        Derives true .program (ts ++ [eof]) (.stmts p) []) ∧
      ((∃ p, parseProgram (ts ++ [eof]) = .ok p) ↔
        ∃ p, Derives false .program (ts ++ [eof]) (.stmts p) []) ∧
      (∀ e, parseExpression (ts ++ [eof]) = .ok e ↔
        Derives true .expression (ts ++ [eof]) (.expr e) [eof]) ∧
      ((∃ e, parseExpression (ts ++ [eof]) = .ok e) ↔
        ∃ e, Derives false .expression (ts ++ [eof]) (.expr e) [eof]) := by
  have hprogram (p : Program) : parseProgram (ts ++ [eof]) = .ok p ↔
      Derives true .program (ts ++ [eof]) (.stmts p) [] :=
    ⟨derives_of_parseProgram hts heof, parseProgram_of_derives⟩
  have hexpression (e : Expr) : parseExpression (ts ++ [eof]) = .ok e ↔
      Derives true .expression (ts ++ [eof]) (.expr e) [eof] :=
    ⟨derives_of_parseExpression hts heof, fun h => parseExpression_of_derives h heof⟩
  refine ⟨hprogram, ⟨?_, ?_⟩, hexpression, ⟨?_, ?_⟩⟩
  · rintro ⟨p, hp⟩
    obtain ⟨_, ⟨⟩, h⟩ := ((hprogram p).1 hp).change_nearest false
    exact ⟨_, h⟩
  · rintro ⟨p, hp⟩
    obtain ⟨_, ⟨⟩, h⟩ := hp.change_nearest true
    exact ⟨_, (hprogram _).2 h⟩
  · rintro ⟨e, he⟩
    obtain ⟨_, ⟨⟩, h⟩ := ((hexpression e).1 he).change_nearest false
    exact ⟨_, h⟩
  · rintro ⟨e, he⟩
    obtain ⟨_, ⟨⟩, h⟩ := he.change_nearest true
    exact ⟨_, (hexpression _).2 h⟩

/-- In `if (a) if (b) c; else d;` the `else` belongs to the second `if`. -/
theorem parse_iff_derives_dangling :
    let ts : List Token := [⟨.keyword .ifKw, "if", 1⟩, ⟨.symbol .leftParen, "(", 1⟩,
      ⟨.identifier, "a", 1⟩, ⟨.symbol .rightParen, ")", 1⟩, ⟨.keyword .ifKw, "if", 1⟩,
      ⟨.symbol .leftParen, "(", 1⟩, ⟨.identifier, "b", 1⟩, ⟨.symbol .rightParen, ")", 1⟩,
      ⟨.identifier, "c", 1⟩, ⟨.symbol .semicolon, ";", 1⟩, ⟨.keyword .elseKw, "else", 1⟩,
      ⟨.identifier, "d", 1⟩, ⟨.symbol .semicolon, ";", 1⟩]
    let eof : Token := ⟨.eof, "", 1⟩
    let occurrence (x : String) : Expr := .variable ⟨x, 1⟩ none
    (∀ t ∈ ts, t.kind ≠ .eof) ∧ eof.kind = .eof ∧ Derives true .program (ts ++ [eof])
      (.stmts [.cond (occurrence "a") (.cond (occurrence "b") (.expression (occurrence "c"))
        (some (.expression (occurrence "d")))) none]) [] :=
  ⟨by decide, rfl, ((parse_iff_derives _ _ (by decide) rfl).1 _).1 rfl⟩

end Lox.Grammar
