import Lox.Proofs.Grammar.Completeness
import Lox.Proofs.Lines.Syntax
import Lox.Proofs.Lines.Tokens

/-!
# Moving derivations

A derivation looks only at the tokens that it passes, and at their lines only to write them into
its tree. So its tokens may be moved to other lines and before another rest, and they derive from
the same nonterminal there.
-/

set_option autoImplicit false

namespace Lox.Grammar

/-- The tokens of `ts` before `rest` are, moved by `f`, those of `ts'` before `rest'`. -/
inductive Moved (f : Nat → Nat) (rest rest' : List Token) : List Token → List Token → Prop where
  | here : Moved f rest rest' rest rest'
  | token {t : Token} {ts ts' : List Token} :
      Moved f rest rest' ts ts' → Moved f rest rest' (t :: ts) (t.mapLine f :: ts')

theorem Moved.trans {f : Nat → Nat} {ts mid rest ts' mid' rest' : List Token}
    (h : Moved f mid mid' ts ts') (h' : Moved f rest rest' mid mid') :
    Moved f rest rest' ts ts' := by
  induction h with
  | here => exact h'
  | token _ ih => exact .token ih

/-- One more token is passed. -/
theorem Moved.close {f : Nat → Nat} {t : Token} {ts rest ts' rest' : List Token}
    (h : Moved f (t :: rest) (t.mapLine f :: rest') ts ts') : Moved f rest rest' ts ts' :=
  h.trans (.token .here)

theorem Moved.eq_append {f : Nat → Nat} {ts ts' rest rest' : List Token}
    (h : Moved f rest rest' ts ts') :
    ∃ passed, ts = passed ++ rest ∧ ts' = passed.map (Token.mapLine f) ++ rest' := by
  induction h with
  | here => exact ⟨[], rfl, rfl⟩
  | @token t _ _ _ ih =>
    obtain ⟨passed, rfl, rfl⟩ := ih
    exact ⟨t :: passed, rfl, rfl⟩

/-- What is built around an expression is the same on other lines. -/
def SuffixesMoved (f : Nat → Nat) (gs gs' : List (Expr → Expr)) : Prop :=
  ∀ e, applySuffixes (e.mapLines f) gs' = (applySuffixes e gs).mapLines f

theorem SuffixesMoved.nil (f : Nat → Nat) : SuffixesMoved f [] [] := fun _ => rfl

theorem SuffixesMoved.cons {f : Nat → Nat} {g g' : Expr → Expr} {gs gs' : List (Expr → Expr)}
    (hg : ∀ e, g' (e.mapLines f) = (g e).mapLines f) (h : SuffixesMoved f gs gs') :
    SuffixesMoved f (g :: gs) (g' :: gs') := by
  intro e
  change applySuffixes (g' (e.mapLines f)) gs' = (applySuffixes (g e) gs).mapLines f
  rw [hg, h]

/-- The trees stand for the same on other lines. -/
inductive TreeMoved (f : Nat → Nat) : Tree → Tree → Prop where
  | expr (e : Expr) : TreeMoved f (.expr e) (.expr (e.mapLines f))
  | exprs (es : List Expr) : TreeMoved f (.exprs es) (.exprs (mapLinesInArguments f es))
  | optional (e : Option Expr) : TreeMoved f (.optional e) (.optional (e.map (Expr.mapLines f)))
  | suffixes {gs gs' : List (Expr → Expr)} :
      SuffixesMoved f gs gs' → TreeMoved f (.suffixes gs) (.suffixes gs')
  | stmt (s : Stmt) (isOpen : Bool) : TreeMoved f (.stmt s isOpen) (.stmt (s.mapLines f) isOpen)
  | stmts (ss : List Stmt) : TreeMoved f (.stmts ss) (.stmts (mapLinesInBody f ss))
  | init (s : Option Stmt) : TreeMoved f (.init s) (.init (s.map (Stmt.mapLines f)))
  | code (ps : List Ident) (body : List Stmt) :
      TreeMoved f (.code ps body) (.code (ps.map (Ident.mapLine f)) (mapLinesInBody f body))
  | params (ps : List Ident) : TreeMoved f (.params ps) (.params (ps.map (Ident.mapLine f)))
  | methods (ds : List FunDecl) : TreeMoved f (.methods ds) (.methods (mapLinesInMethods f ds))

theorem TreeMoved.of_suffixes {f : Nat → Nat} {gs : List (Expr → Expr)} {tree : Tree}
    (h : TreeMoved f (.suffixes gs) tree) :
    ∃ gs', tree = .suffixes gs' ∧ SuffixesMoved f gs gs' := by
  cases h with
  | suffixes hgs => exact ⟨_, rfl, hgs⟩

theorem forTree_mapLines (f : Nat → Nat) (line : Nat) (init : Option Stmt)
    (condition increment : Option Expr) (body : Stmt) :
    forTree (f line) (init.map (Stmt.mapLines f)) (condition.map (Expr.mapLines f))
      (increment.map (Expr.mapLines f)) (body.mapLines f) =
      (forTree line init condition increment body).mapLines f := by
  cases init <;> cases condition <;> cases increment <;> rfl

theorem Operator.mapLines (f : Nat → Nat) {p : Precedence} {k : Kind}
    {node : Expr → Expr → Nat → Expr} (h : Operator p k node) (left right : Expr) (line : Nat) :
    node (left.mapLines f) (right.mapLines f) (f line) = (node left right line).mapLines f := by
  cases h <;> rfl

/-- A derivation can be moved to other lines and before another rest. -/
theorem Derives.move (f : Nat → Nat) {nearest : Bool} {N : Nonterminal} {ts rest : List Token}
    {tree : Tree} (h : Derives nearest N ts tree rest) (hN : N ≠ .program) (rest' : List Token) :
    ∃ ts' tree', Moved f rest rest' ts ts' ∧ TreeMoved f tree tree' ∧
      Derives nearest N ts' tree' rest' := by
  -- What comes last is moved first, because it is the rest of what comes before it.
  induction h generalizing rest' with
  | program => exact absurd rfl hN
  | noDeclaration => exact ⟨_, _, .here, .stmts [], .noDeclaration⟩
  | moreDeclarations _ _ ih ih' =>
    obtain ⟨mid', _, hmoved', ⟨⟩, h'⟩ := ih' (by simp) rest'
    obtain ⟨_, _, hmoved, ⟨⟩, h⟩ := ih (by simp) mid'
    exact ⟨_, _, hmoved.trans hmoved', .stmts _, .moreDeclarations h h'⟩
  | @classDecl _ _ _ close _ _ _ hkw hname hbrace _ hclose ih =>
    obtain ⟨_, _, hmoved, ⟨⟩, h⟩ := ih (by simp) (close.mapLine f :: rest')
    exact ⟨_, _, .token (.token (.token hmoved.close)), .stmt _ _,
      .classDecl hkw hname hbrace h hclose⟩
  | @subclassDecl _ _ _ _ _ close _ _ _ hkw hname hless hparent hbrace _ hclose ih =>
    obtain ⟨_, _, hmoved, ⟨⟩, h⟩ := ih (by simp) (close.mapLine f :: rest')
    exact ⟨_, _, .token (.token (.token (.token (.token hmoved.close)))), .stmt _ _,
      .subclassDecl hkw hname hless hparent hbrace h hclose⟩
  | noMethod => exact ⟨_, _, .here, .methods [], .noMethod⟩
  | moreMethods hname _ _ ih ih' =>
    obtain ⟨mid', _, hmoved', ⟨⟩, h'⟩ := ih' (by simp) rest'
    obtain ⟨_, _, hmoved, ⟨⟩, h⟩ := ih (by simp) mid'
    exact ⟨_, _, .token (hmoved.trans hmoved'), .methods _, .moreMethods hname h h'⟩
  | funDecl hkw hname _ ih =>
    obtain ⟨_, _, hmoved, ⟨⟩, h⟩ := ih (by simp) rest'
    exact ⟨_, _, .token (.token hmoved), .stmt _ _, .funDecl hkw hname h⟩
  | codeWithout hopening hclose _ ih =>
    obtain ⟨_, _, hmoved, ⟨⟩, h⟩ := ih (by simp) rest'
    exact ⟨_, _, .token (.token hmoved), .code [] _, .codeWithout hopening hclose h⟩
  | @codeWith _ close _ _ _ ps _ hopening _ hcount hclose _ ih ih' =>
    obtain ⟨mid', _, hmoved', ⟨⟩, h'⟩ := ih' (by simp) rest'
    obtain ⟨_, _, hmoved, ⟨⟩, h⟩ := ih (by simp) (close.mapLine f :: mid')
    have hcount' : (ps.map (Ident.mapLine f)).length ≤ arityLimit := by
      rw [List.length_map]
      exact hcount
    exact ⟨_, _, .token (hmoved.close.trans hmoved'), .code _ _,
      .codeWith hopening h hcount' hclose h'⟩
  | lastParameter hname => exact ⟨_, _, .token .here, .params [_], .lastParameter hname⟩
  | moreParameters hname hcomma _ ih =>
    obtain ⟨_, _, hmoved, ⟨⟩, h⟩ := ih (by simp) rest'
    exact ⟨_, _, .token (.token hmoved), .params _, .moreParameters hname hcomma h⟩
  | declaredVar _ ih =>
    obtain ⟨_, _, hmoved, ⟨⟩, h⟩ := ih (by simp) rest'
    exact ⟨_, _, hmoved, .stmt _ _, .declaredVar h⟩
  | var hkw hname hsemicolon =>
    exact ⟨_, _, .token (.token (.token .here)), .stmt _ _, .var hkw hname hsemicolon⟩
  | @varWith _ _ _ semicolon _ _ _ hkw hname hequal _ hsemicolon ih =>
    obtain ⟨_, _, hmoved, ⟨⟩, h⟩ := ih (by simp) (semicolon.mapLine f :: rest')
    exact ⟨_, _, .token (.token (.token hmoved.close)), .stmt _ _,
      .varWith hkw hname hequal h hsemicolon⟩
  | statement _ ih =>
    obtain ⟨_, _, hmoved, ⟨⟩, h⟩ := ih (by simp) rest'
    exact ⟨_, _, hmoved, .stmt _ _, .statement h⟩
  | @exprStmt _ _ _ semicolon _ hsemicolon ih =>
    obtain ⟨_, _, hmoved, ⟨⟩, h⟩ := ih (by simp) (semicolon.mapLine f :: rest')
    exact ⟨_, _, hmoved.close, .stmt _ _, .exprStmt h hsemicolon⟩
  | expressed _ ih =>
    obtain ⟨_, _, hmoved, ⟨⟩, h⟩ := ih (by simp) rest'
    exact ⟨_, _, hmoved, .stmt _ _, .expressed h⟩
  | @forStmt kw _ semicolon close _ _ _ _ _ init condition increment body isOpen hkw hopening _ _
      hsemicolon _ hclose _ ih₁ ih₂ ih₃ ih₄ =>
    obtain ⟨ts₃, _, hmoved₄, ⟨⟩, h₄⟩ := ih₄ (by simp) rest'
    obtain ⟨ts₂, _, hmoved₃, ⟨⟩, h₃⟩ := ih₃ (by simp) (close.mapLine f :: ts₃)
    obtain ⟨ts₁, _, hmoved₂, ⟨⟩, h₂⟩ := ih₂ (by simp) (semicolon.mapLine f :: ts₂)
    obtain ⟨_, _, hmoved₁, ⟨⟩, h₁⟩ := ih₁ (by simp) ts₁
    have htree := TreeMoved.stmt (f := f) (forTree kw.line init condition increment body) isOpen
    rw [← forTree_mapLines] at htree
    have hmoved := hmoved₁.trans (hmoved₂.close.trans (hmoved₃.close.trans hmoved₄))
    exact ⟨_, _, .token (.token hmoved), htree,
      .forStmt hkw hopening h₁ h₂ hsemicolon h₃ hclose h₄⟩
  | noInit hsemicolon => exact ⟨_, _, .token .here, .init none, .noInit hsemicolon⟩
  | varInit _ ih =>
    obtain ⟨_, _, hmoved, ⟨⟩, h⟩ := ih (by simp) rest'
    exact ⟨_, _, hmoved, .init (some _), .varInit h⟩
  | exprInit _ ih =>
    obtain ⟨_, _, hmoved, ⟨⟩, h⟩ := ih (by simp) rest'
    exact ⟨_, _, hmoved, .init (some _), .exprInit h⟩
  | @ifThen _ _ close _ _ _ _ _ _ hkw hopening _ hclose _ ih ih' =>
    obtain ⟨mid', _, hmoved', ⟨⟩, h'⟩ := ih' (by simp) rest'
    obtain ⟨_, _, hmoved, ⟨⟩, h⟩ := ih (by simp) (close.mapLine f :: mid')
    exact ⟨_, _, .token (.token (hmoved.close.trans hmoved')), .stmt _ _,
      .ifThen hkw hopening h hclose h'⟩
  | @ifElse _ _ close elseKw _ _ _ _ _ _ _ _ _ hkw hopening _ hclose _ helse hnearest _ ih ih'
      ih'' =>
    obtain ⟨mid'', _, hmoved'', ⟨⟩, h''⟩ := ih'' (by simp) rest'
    obtain ⟨mid', _, hmoved', ⟨⟩, h'⟩ := ih' (by simp) (elseKw.mapLine f :: mid'')
    obtain ⟨_, _, hmoved, ⟨⟩, h⟩ := ih (by simp) (close.mapLine f :: mid')
    exact ⟨_, _, .token (.token (hmoved.close.trans (hmoved'.close.trans hmoved''))), .stmt _ _,
      .ifElse hkw hopening h hclose h' helse hnearest h''⟩
  | @printStmt _ semicolon _ _ _ hkw _ hsemicolon ih =>
    obtain ⟨_, _, hmoved, ⟨⟩, h⟩ := ih (by simp) (semicolon.mapLine f :: rest')
    exact ⟨_, _, .token hmoved.close, .stmt _ _, .printStmt hkw h hsemicolon⟩
  | @returnStmt kw semicolon _ _ e hkw _ hsemicolon ih =>
    obtain ⟨_, _, hmoved, ⟨⟩, h⟩ := ih (by simp) (semicolon.mapLine f :: rest')
    have htree := TreeMoved.stmt (f := f) (.ret kw.line e) false
    cases e <;> exact ⟨_, _, .token hmoved.close, htree, .returnStmt hkw h hsemicolon⟩
  | breakStmt hkw hsemicolon =>
    exact ⟨_, _, .token (.token .here), .stmt _ _, .breakStmt hkw hsemicolon⟩
  | @whileStmt _ _ close _ _ _ _ _ _ hkw hopening _ hclose _ ih ih' =>
    obtain ⟨mid', _, hmoved', ⟨⟩, h'⟩ := ih' (by simp) rest'
    obtain ⟨_, _, hmoved, ⟨⟩, h⟩ := ih (by simp) (close.mapLine f :: mid')
    exact ⟨_, _, .token (.token (hmoved.close.trans hmoved')), .stmt _ _,
      .whileStmt hkw hopening h hclose h'⟩
  | blockStmt _ ih =>
    obtain ⟨_, _, hmoved, ⟨⟩, h⟩ := ih (by simp) rest'
    exact ⟨_, _, hmoved, .stmt _ _, .blockStmt h⟩
  | @block _ close _ _ _ hbrace _ hclose ih =>
    obtain ⟨_, _, hmoved, ⟨⟩, h⟩ := ih (by simp) (close.mapLine f :: rest')
    exact ⟨_, _, .token hmoved.close, .stmts _, .block hbrace h hclose⟩
  | absent => exact ⟨_, _, .here, .optional none, .absent⟩
  | present _ ih =>
    obtain ⟨_, _, hmoved, ⟨⟩, h⟩ := ih (by simp) rest'
    exact ⟨_, _, hmoved, .optional (some _), .present h⟩
  | assign hname hequal _ ih =>
    obtain ⟨_, _, hmoved, ⟨⟩, h⟩ := ih (by simp) rest'
    exact ⟨_, _, .token (.token hmoved), .expr _, .assign hname hequal h⟩
  | @set dot name equal _ _ _ _ _ _ hdot hname hequal _ ih ih' =>
    obtain ⟨mid', _, hmoved', ⟨⟩, h'⟩ := ih' (by simp) rest'
    obtain ⟨_, _, hmoved, ⟨⟩, h⟩ :=
      ih (by simp) (dot.mapLine f :: name.mapLine f :: equal.mapLine f :: mid')
    exact ⟨_, _, hmoved.close.close.close.trans hmoved', .expr _, .set h hdot hname hequal h'⟩
  | operation _ ih =>
    obtain ⟨_, _, hmoved, ⟨⟩, h⟩ := ih (by simp) rest'
    exact ⟨_, _, hmoved, .expr _, .operation h⟩
  | @binary p _ _ _ e gs _ _ ih ih' =>
    obtain ⟨mid', _, hmoved', hsuffixes, h'⟩ := ih' (by simp) rest'
    obtain ⟨_, rfl, hgs⟩ := hsuffixes.of_suffixes
    obtain ⟨_, _, hmoved, ⟨⟩, h⟩ := ih p.operand_ne_program mid'
    have htree := TreeMoved.expr (f := f) (applySuffixes e gs)
    rw [← hgs e] at htree
    exact ⟨_, _, hmoved.trans hmoved', htree, .binary h h'⟩
  | noOperation => exact ⟨_, _, .here, .suffixes (.nil f), .noOperation⟩
  | @moreOperations p op _ _ _ _ right _ hop _ _ ih ih' =>
    obtain ⟨mid', _, hmoved', hsuffixes, h'⟩ := ih' (by simp) rest'
    obtain ⟨_, rfl, hgs⟩ := hsuffixes.of_suffixes
    obtain ⟨_, _, hmoved, ⟨⟩, h⟩ := ih p.operand_ne_program mid'
    exact ⟨_, _, .token (hmoved.trans hmoved'),
      .suffixes (.cons (fun left => hop.mapLines f left right op.line) hgs),
      .moreOperations hop h h'⟩
  | unary hop _ ih =>
    obtain ⟨_, _, hmoved, ⟨⟩, h⟩ := ih (by simp) rest'
    exact ⟨_, _, .token hmoved, .expr _, .unary hop h⟩
  | called _ ih =>
    obtain ⟨_, _, hmoved, ⟨⟩, h⟩ := ih (by simp) rest'
    exact ⟨_, _, hmoved, .expr _, .called h⟩
  | @call _ _ _ e gs _ _ ih ih' =>
    obtain ⟨mid', _, hmoved', hsuffixes, h'⟩ := ih' (by simp) rest'
    obtain ⟨_, rfl, hgs⟩ := hsuffixes.of_suffixes
    obtain ⟨_, _, hmoved, ⟨⟩, h⟩ := ih (by simp) mid'
    have htree := TreeMoved.expr (f := f) (applySuffixes e gs)
    rw [← hgs e] at htree
    exact ⟨_, _, hmoved.trans hmoved', htree, .call h h'⟩
  | noSuffix => exact ⟨_, _, .here, .suffixes (.nil f), .noSuffix⟩
  | callWithout hopening hclose _ ih =>
    obtain ⟨_, _, hmoved, hsuffixes, h⟩ := ih (by simp) rest'
    obtain ⟨_, rfl, hgs⟩ := hsuffixes.of_suffixes
    exact ⟨_, _, .token (.token hmoved), .suffixes (.cons (fun _ => rfl) hgs),
      .callWithout hopening hclose h⟩
  | @callWith _ close _ _ _ _ _ _ hopening _ hcount hclose _ ih ih' =>
    obtain ⟨mid', _, hmoved', hsuffixes, h'⟩ := ih' (by simp) rest'
    obtain ⟨_, rfl, hgs⟩ := hsuffixes.of_suffixes
    obtain ⟨_, _, hmoved, ⟨⟩, h⟩ := ih (by simp) (close.mapLine f :: mid')
    exact ⟨_, _, .token (hmoved.close.trans hmoved'), .suffixes (.cons (fun _ => rfl) hgs),
      .callWith hopening h hcount hclose h'⟩
  | get hdot hname _ ih =>
    obtain ⟨_, _, hmoved, hsuffixes, h⟩ := ih (by simp) rest'
    obtain ⟨_, rfl, hgs⟩ := hsuffixes.of_suffixes
    exact ⟨_, _, .token (.token hmoved), .suffixes (.cons (fun _ => rfl) hgs), .get hdot hname h⟩
  | lastArgument _ ih =>
    obtain ⟨_, _, hmoved, ⟨⟩, h⟩ := ih (by simp) rest'
    exact ⟨_, _, hmoved, .exprs [_], .lastArgument h⟩
  | @moreArguments comma _ _ _ _ _ _ _ hcomma _ ih ih' =>
    obtain ⟨mid', _, hmoved', ⟨⟩, h'⟩ := ih' (by simp) rest'
    obtain ⟨_, _, hmoved, ⟨⟩, h⟩ := ih (by simp) (comma.mapLine f :: mid')
    exact ⟨_, _, hmoved.close.trans hmoved', .exprs _, .moreArguments h hcomma h'⟩
  | literal ht => exact ⟨_, _, .token .here, .expr _, .literal ht⟩
  | this ht => exact ⟨_, _, .token .here, .expr _, .this ht⟩
  | name ht => exact ⟨_, _, .token .here, .expr _, .name ht⟩
  | @group _ close _ _ _ hopening _ hclose ih =>
    obtain ⟨_, _, hmoved, ⟨⟩, h⟩ := ih (by simp) (close.mapLine f :: rest')
    exact ⟨_, _, .token hmoved.close, .expr _, .group hopening h hclose⟩
  | super ht hdot hmethod =>
    exact ⟨_, _, .token (.token (.token .here)), .expr _, .super ht hdot hmethod⟩
  | lambda hkw _ ih =>
    obtain ⟨_, _, hmoved, ⟨⟩, h⟩ := ih (by simp) rest'
    exact ⟨_, _, .token hmoved, .expr _, .lambda hkw h⟩

/-! ## One program after the other -/

theorem Derives.append {nearest : Bool} {ts mid rest : List Token} {p q : List Stmt}
    (h : Derives nearest .declarations ts (.stmts p) mid)
    (h' : Derives nearest .declarations mid (.stmts q) rest) :
    Derives nearest .declarations ts (.stmts (p ++ q)) rest := by
  induction p generalizing ts with
  | nil =>
    cases h
    exact h'
  | cons s p ih =>
    cases h with
    | moreDeclarations hs hp => exact .moreDeclarations hs (ih hp)

/-- What the tokens of a program derive without the end of the input can be moved. -/
theorem Derives.move_program (f : Nat → Nat) {nearest : Bool} {ts : List Token} {eof : Token}
    {p : Program} (h : Derives nearest .program (ts ++ [eof]) (.stmts p) []) (rest : List Token) :
    Derives nearest .declarations (ts.map (Token.mapLine f) ++ rest) (.stmts (p.mapLines f))
      rest := by
  obtain ⟨hp, -⟩ := h
  obtain ⟨ts', _, hmoved, ⟨⟩, h⟩ := hp.move f (by simp) rest
  obtain ⟨passed, hpassed, rfl⟩ := hmoved.eq_append
  obtain ⟨rfl, -⟩ := List.append_inj' hpassed rfl
  exact h

section Programs
variable {ts ts' : List Token} {eof eof' : Token} (hts : ∀ t ∈ ts, t.kind ≠ .eof)
  (heof : eof.kind = .eof) (hts' : ∀ t ∈ ts', t.kind ≠ .eof) (heof' : eof'.kind = .eof)
include hts heof hts' heof'

/-- The tokens of one program before those of another, on whatever lines these are then, are read
as one program after the other. -/
theorem parseProgram_append {p q : Program} (hp : parseProgram (ts ++ [eof]) = .ok p)
    (hq : parseProgram (ts' ++ [eof']) = .ok q) (f : Nat → Nat) :
    parseProgram (ts ++ (ts' ++ [eof']).map (Token.mapLine f)) = .ok (p ++ q.mapLines f) := by
  have hfirst := (derives_of_parseProgram hts heof hp).move_program id
    ((ts' ++ [eof']).map (Token.mapLine f))
  have hsecond := (derives_of_parseProgram hts' heof' hq).move_program f [eof'.mapLine f]
  rw [Token.mapLine_id, List.map_id, p.mapLines_id] at hfirst
  rw [List.map_append] at hfirst ⊢
  exact parseProgram_of_derives (.program (hfirst.append hsecond) heof')

end Programs

end Lox.Grammar
