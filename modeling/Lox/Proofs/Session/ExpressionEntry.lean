import Lox.Proofs.Lines.Grammar
import Lox.Proofs.Session.Agreement

/-!
# Single expressions

A text that is a single expression is no program, because a program's statements end with a
semicolon or a brace, and with a semicolon after it it is a program of one statement, unless it ends
with a comment that takes the semicolon in. So there is one meaning to such a text, whether it is
handed over as an expression or as a line, with a semicolon or without.
-/

set_option autoImplicit false

namespace Lox

open Piece

/-! ## A semicolon after a text -/

section Semicolon
variable {source : String} (hquiet : lexErrors source = [])
include hquiet

/-- A semicolon after a text is a token of its own, unless a comment takes it in. -/
theorem scan_semicolon :
    scan (source ++ ";") = scan source ∨
      scan (source ++ ";") = items 1 (split source.toList) ++
        [.token ⟨.symbol .semicolon, ";", linesBefore source⟩,
          .token ⟨.eof, "", linesBefore source⟩] := by
  have htext : (source ++ ";").toList = source.toList ++ [';'] := by simp
  have hlines : (source.toList ++ [';']).count '\n' = source.toList.count '\n' := by
    rw [List.count_append]
    rfl
  have hstring := openString_not_mem hquiet
  have hafter : lineAfter 1 (split source.toList) = linesBefore source := by
    rw [lineAfter, flatMap_chars_split, linesBefore]
  rw [scan_eq, scan_eq, htext, hlines]
  cases hlast : (split source.toList).getLast?.any (absorbs ';') with
  | false =>
    right
    have hpiece : split [';'] = [.token (.symbol .semicolon) [';']] :=
      (split_cons ';' []).trans (congrArg _ split_nil)
    have hpieces : split (source.toList ++ [';']) =
        split source.toList ++ [.token (.symbol .semicolon) [';']] := by
      rw [← hpiece]
      apply split_separated separates_semicolon [] hstring
      intro p hp
      rw [hp] at hlast
      exact hlast
    rw [hpieces, items_append, hafter, List.append_assoc]
    rfl
  | true =>
    left
    obtain ⟨p, hp, habsorbs⟩ := (Option.any_eq_true _ _).1 hlast
    obtain ⟨ps, hps⟩ := List.getLast?_eq_some_iff.1 hp
    have hcomment (line : Nat) : items line [p] = [] := by
      cases p with
      | comment chars => rfl
      | _ => cases habsorbs
    rw [split_absorbed separates_semicolon hps habsorbs hstring, hps, items_append, items_append,
      hcomment]
    rfl

theorem tokens_semicolon :
    lexErrors (source ++ ";") = [] ∧ (tokens (source ++ ";") = tokens source ∨
      ∃ ts eof semicolon, tokens source = ts ++ [eof] ∧ semicolon.kind = .symbol .semicolon ∧
        tokens (source ++ ";") = ts ++ [semicolon, eof]) := by
  rcases scan_semicolon hquiet with hscan | hscan
  · exact ⟨by rw [lexErrors, hscan]; exact hquiet, Or.inl (by rw [tokens, hscan]; rfl)⟩
  · have hnone : (items 1 (split source.toList)).filterMap Item.error? = [] := by
      rw [lexErrors, scan_eq, List.filterMap_append] at hquiet
      exact (List.append_eq_nil_iff.1 hquiet).1
    refine ⟨?_, Or.inr ⟨(items 1 (split source.toList)).filterMap Item.token?,
      ⟨.eof, "", linesBefore source⟩, ⟨.symbol .semicolon, ";", linesBefore source⟩, ?_, rfl, ?_⟩⟩
    · rw [lexErrors, hscan, List.filterMap_append, hnone]
      rfl
    · rw [tokens, scan_eq, List.filterMap_append]
      rfl
    · rw [tokens, hscan, List.filterMap_append]
      rfl

end Semicolon

/-! ## Expressions and programs -/

namespace Grammar

/-- An expression that is followed by what cannot go on with it is read in one way only. -/
theorem Derives.expression_unique {ts rest rest' : List Token} {e e' : Expr}
    (h : Derives true .expression ts (.expr e) rest) (hrest : rank (nextKind rest) = 0)
    (h' : Derives true .expression ts (.expr e') rest') (hrest' : rank (nextKind rest') = 0) :
    e = e' ∧ rest = rest' := by
  have haccepts {e : Expr} {rest : List Token} (h : Derives true .expression ts (.expr e) rest)
      (hrest : rank (nextKind rest) = 0) :
      Accepts (rulesAt ts.length).expression endToken ts e rest :=
    (complete_rulesAt ts.length).expression h hrest (Nat.le_add_right _ _)
  obtain ⟨previous, hp⟩ := haccepts h hrest []
  obtain ⟨previous', hp'⟩ := haccepts h' hrest' []
  rw [hp] at hp'
  cases hp'
  exact ⟨rfl, rfl⟩

/-- A declaration that starts as an expression does is an expression with a semicolon. -/
theorem Derives.expression_of_declaration {ts rest : List Token} {s : Stmt} {isOpen : Bool}
    (h : Derives true .declaration ts (.stmt s isOpen) rest) (hopens : Opens opensExpression ts) :
    ∃ e semicolon, semicolon.kind = .symbol .semicolon ∧
      Derives true .expression ts (.expr e) (semicolon :: rest) := by
  cases h with
  | classDecl hkw => exact absurd hkw (hopens.ne rfl)
  | subclassDecl hkw => exact absurd hkw (hopens.ne rfl)
  | funDecl hkw hname =>
    have hparen := hopens.second hkw
    rw [List.tail_cons, nextKind_cons, hname] at hparen
    cases hparen
  | declaredVar h => exact absurd h.varDecl_first (hopens.ne rfl)
  | statement h =>
    cases h with
    | expressed h =>
      cases h with
      | exprStmt he hsemicolon => exact ⟨_, _, hsemicolon, he⟩
    | forStmt hkw | ifThen hkw | ifElse hkw | printStmt hkw | returnStmt hkw | breakStmt hkw
    | whileStmt hkw => exact absurd hkw (hopens.ne rfl)
    | blockStmt h =>
      cases h with
      | block hbrace => exact absurd hbrace (hopens.ne rfl)

/-- A single expression is no program: as a statement it would end with a semicolon. -/
theorem Derives.not_program {ts : List Token} {eof : Token} {e : Expr} (heof : eof.kind = .eof)
    (h : Derives true .expression ts (.expr e) [eof]) (p : Program) :
    ¬ Derives true .program ts (.stmts p) [] := by
  intro hp
  cases hp with
  | program hp heof' =>
    cases hp with
    | noDeclaration =>
      have hless := h.length_lt (by decide)
      simp at hless
    | moreDeclarations hfirst hothers =>
      obtain ⟨e', semicolon, hsemicolon, h'⟩ := hfirst.expression_of_declaration (h.opens rfl)
      have hrest := (h.expression_unique (by simp [heof, rank]) h' (by simp [hsemicolon, rank])).2
      obtain ⟨rfl, -⟩ := List.cons.inj hrest
      rw [heof] at hsemicolon
      cases hsemicolon

/-- A single expression before a semicolon is a program. -/
theorem Derives.program_of_expression {ts : List Token} {eof semicolon : Token} {e : Expr}
    (heof : eof.kind = .eof) (hsemicolon : semicolon.kind = .symbol .semicolon)
    (h : Derives true .expression (ts ++ [eof]) (.expr e) [eof]) :
    Derives true .program (ts ++ [semicolon, eof]) (.stmts [.expression e]) [] := by
  obtain ⟨ts', _, hmoved, ⟨⟩, h'⟩ := h.move id (by simp) [semicolon, eof]
  obtain ⟨passed, hpassed, rfl⟩ := hmoved.eq_append
  obtain ⟨rfl, -⟩ := List.append_inj' hpassed rfl
  rw [Token.mapLine_id, List.map_id, Expr.mapLines_id] at h'
  exact .program (.moreDeclarations (.statement (.expressed (.exprStmt h' hsemicolon)))
    .noDeclaration) heof

end Grammar

/-- A source text that is a single expression. -/
theorem expression_of_parseExpression {source : String} {e : Expr}
    (h : parseExpression source = .ok e) :
    ∃ ts eof, tokens source = ts ++ [eof] ∧ eof.kind = .eof ∧ (∀ t ∈ ts, t.kind ≠ .eof) ∧
      Grammar.Derives true .expression (ts ++ [eof]) (.expr e) [eof] := by
  obtain ⟨ts, eof, htokens, heof, hproper⟩ := tokens_proper source
  have hparsed := (withLexical_eq_ok h).2
  rw [htokens] at hparsed
  have hkinds (t : Token) (ht : t ∈ ts) : t.kind ≠ .eof := (hproper t ht).1
  exact ⟨ts, eof, htokens, heof, hkinds, Grammar.derives_of_parseExpression hkinds heof hparsed⟩

theorem parseProgram_ne_ok_of_expression {source : String} {e : Expr}
    (h : parseExpression source = .ok e) (p : Program) :
    Grammar.parseProgram (tokens source) ≠ .ok p := by
  obtain ⟨ts, eof, htokens, heof, hkinds, hderives⟩ := expression_of_parseExpression h
  intro hp
  rw [htokens] at hp
  exact hderives.not_program heof p (Grammar.derives_of_parseProgram hkinds heof hp)

/-! ## Lines -/

/-- A line that is a single expression is that expression. -/
theorem parseLine_expression {source : String} {e : Expr} (h : parseExpression source = .ok e) :
    Task.parseLine source = .ok [.expression e] := by
  obtain ⟨hquiet, hparsed⟩ := withLexical_eq_ok h
  unfold Task.parseLine
  dsimp only
  rw [hquiet, if_neg (by simp)]
  cases hp : Grammar.parseProgram (tokens source) with
  | ok p => exact absurd hp (parseProgram_ne_ok_of_expression h p)
  | error errors =>
    dsimp only
    rw [hparsed]

/-- So is a line that is a single expression and a semicolon. -/
theorem parseLine_semicolon {source : String} {e : Expr} (h : parseExpression source = .ok e) :
    Task.parseLine (source ++ ";") = .ok [.expression e] := by
  obtain ⟨hquiet, -⟩ := withLexical_eq_ok h
  obtain ⟨hquiet', hsame | ⟨ts, eof, semicolon, htokens, hsemicolon, htokens'⟩⟩ :=
    tokens_semicolon hquiet
  · have hline : Task.parseLine (source ++ ";") = Task.parseLine source := by
      unfold Task.parseLine
      rw [hquiet, hquiet', hsame]
    rw [hline]
    exact parseLine_expression h
  · obtain ⟨ts', eof', htokens₀, heof, -, hderives⟩ := expression_of_parseExpression h
    rw [htokens] at htokens₀
    obtain ⟨rfl, hlast⟩ := List.append_inj' htokens₀ rfl
    obtain rfl := List.singleton_inj.1 hlast
    have hp : Grammar.parseProgram (tokens (source ++ ";")) = .ok [.expression e] := by
      rw [htokens']
      exact Grammar.parseProgram_of_derives (hderives.program_of_expression heof hsemicolon)
    unfold Task.parseLine
    dsimp only
    rw [hquiet', if_neg (by simp), hp]

namespace Session

/-- The answer to an expression as the answer to a line. -/
def asLine (answer : Except Error Value × Session) : Except Error (Option Value) × Session :=
  (answer.1.map some, answer.2)

/-- A line that stands for a single expression has the expression's value. -/
theorem runLine_of_parseLine {source line : String} {e : Expr} (h : parseExpression source = .ok e)
    (hline : Task.parseLine line = .ok [.expression e]) (fuel : Nat) (s : Session) :
    runLine fuel line s = (evaluate fuel source s).map asLine := by
  have htask : Task.ofLine line = (resolveExpression e).map .expression := by
    unfold Task.ofLine
    rw [hline]
    rfl
  have hparsed : parseExpression source >>= resolveExpression = resolveExpression e := by
    rw [h]
    rfl
  unfold runLine evaluate
  rw [htask, hparsed]
  cases resolveExpression e with
  | error error => rfl
  | ok e' => rfl

/-- A text that is a single expression is not a program. Evaluating it, running it as a line, and
running it as a line with a semicolon after it yield the same value or the same error, and leave the
same session. -/
theorem expression_entry_points_agree {source : String} {e : Expr}
    (h : parseExpression source = .ok e) :
    (∀ p, parseProgram source ≠ .ok p) ∧
    ∀ (s : Session) (fuel : Nat),
      runLine fuel source s = (evaluate fuel source s).map asLine ∧
      runLine fuel (source ++ ";") s = (evaluate fuel source s).map asLine := by
  refine ⟨?_, ?_⟩
  · intro p hp
    exact parseProgram_ne_ok_of_expression h p (withLexical_eq_ok hp).2
  · intro s fuel
    exact ⟨runLine_of_parseLine h (parseLine_expression h) fuel s,
      runLine_of_parseLine h (parseLine_semicolon h) fuel s⟩

/-- A call of a function without a name, which starts as a declaration of a function does, and a
comment that takes a semicolon in. -/
theorem expression_entry_points_agree_comment :
    let source := "fun () \x7b return clock; \x7d() // now"
    let s := Session.new .unlimited fun _ => 0
    (parseExpression source).isOk = true ∧ ((evaluate 20 source s).any fun r => r.1.isOk) = true ∧
      (∀ p, parseProgram source ≠ .ok p) ∧
      runLine 20 source s = (evaluate 20 source s).map asLine ∧
      runLine 20 (source ++ ";") s = (evaluate 20 source s).map asLine := by
  intro source s
  have hok : (parseExpression source).isOk = true := by decide +kernel
  have hvalue : ((evaluate 20 source s).any fun r => r.1.isOk) = true := by decide +kernel
  cases he : parseExpression source with
  | error error =>
    rw [he] at hok
    cases hok
  | ok e =>
    obtain ⟨hprogram, hagree⟩ := expression_entry_points_agree he
    exact ⟨rfl, hvalue, hprogram, hagree s 20⟩

end Session

end Lox
