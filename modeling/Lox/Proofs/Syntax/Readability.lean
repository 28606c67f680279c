import Lox.Proofs.Grammar.Provenance
import Lox.Proofs.Syntax.Printing
import Lox.Proofs.Token.Respacing

/-!
# Printed trees of source texts

The names in the tree of a source text are the names of the text, its numbers have no sign, and no
slot is filled yet. So unless there is a string or an infinite number in it, such a tree can be read
back from its printed text, and two trees that are printed alike differ in their lines at most.
-/

set_option autoImplicit false

namespace Lox

open Piece

/-! ## Tokens of a text -/

/-- The token is written as its kind demands, as far as trees depend on it. -/
structure Token.Spelled (t : Token) : Prop where
  name : t.kind = .identifier → IsName t.lexeme
  number : ∀ x, t.kind = .number x → Literal.Genuine (.number x)

theorem Lexeme.spelled {kind : Kind} {chars : List Char} (h : Lexeme kind chars) (line : Nat) :
    Token.Spelled ⟨kind, String.ofList chars, line⟩ := by
  constructor
  · rintro rfl
    rw [IsName, String.toList_ofList]
    exact h
  · rintro x rfl
    obtain ⟨hread, -⟩ := h.number_of_opening rfl
    rw [Kind.number.inj hread]
    exact Number.classify_ofMagnitude _

theorem tokens_spelled (source : String) : ∀ t ∈ tokens source, t.Spelled := by
  intro t ht
  rw [tokens_eq] at ht
  rcases List.mem_append.1 ht with ht | ht
  · have hword := List.mem_map_of_mem (f := fun t => (t.kind, t.lexeme)) ht
    rw [words_items] at hword
    obtain ⟨word, hmem, hword⟩ := List.mem_map.1 hword
    obtain ⟨hkind, hlexeme⟩ := Prod.mk.inj hword
    have hspelled := ((split_wellCut _).lexeme word hmem).spelled t.line
    rw [hkind, hlexeme] at hspelled
    exact hspelled
  · obtain rfl := List.mem_singleton.1 ht
    exact ⟨by simp, by simp⟩

/-! ## Trees of a text -/

/-- The node and all that is in it are as in a source text. -/
abbrev GenuineTree : Node → Prop :=
  Node.Throughout Node.Genuine

theorem Ident.MadeOf.isName {x : Ident} (h : x.MadeOf Token.Spelled) : IsName x.name := by
  obtain ⟨t, ht, hkind, rfl⟩ := h
  exact ht.name hkind

theorem Grammar.LiteralToken.genuine {t : Token} {value : Literal} (h : LiteralToken t.kind value)
    (ht : t.Spelled) : value.Genuine := by
  generalize hkind : t.kind = kind at h
  cases h with
  | number x => exact ht.number x hkind
  | _ => trivial

/-- A node that is made of the tokens of a text is as in a source text. -/
theorem Node.MadeOf.genuine {n : Node} (h : n.MadeOf Token.Spelled) : n.Genuine := by
  cases n with
  | expr e =>
    cases e with
    | literal value line =>
      rcases h with rfl | ⟨t, ht, hliteral⟩
      · trivial
      · exact hliteral.genuine ht
    | «variable» | assign | super => exact ⟨h.1.isName, h.2⟩
    | get | set => exact h.isName
    | this | lambda => exact h
    | _ => trivial
  | stmt s =>
    cases s with
    | var => exact h.isName
    | function => exact h
    | classDecl => exact ⟨h.1.isName, fun parent hparent => ⟨(h.2 parent hparent).1.isName,
        (h.2 parent hparent).2⟩⟩
    | _ => trivial
  | body ss =>
    cases ss with
    | nil => trivial
    | cons s rest =>
      cases s with
      | function => exact h
      | _ => trivial
  | function decl => exact ⟨fun x hx => (h.1 x hx).isName, fun x hx => (h.2 x hx).isName⟩
  | methods ds =>
    cases ds with
    | nil => trivial
    | cons => exact h
  | arguments | top => trivial

theorem genuine_of_parsed_program {source : String} {p : Program}
    (h : Grammar.parseProgram (tokens source) = .ok p) : GenuineTree (.top p) :=
  (madeOf_of_parsed_program (tokens_spelled source) h).mono fun _ hn => hn.genuine

theorem genuine_of_parsed_expression {source : String} {e : Expr}
    (h : Grammar.parseExpression (tokens source) = .ok e) : GenuineTree (.expr e) :=
  (madeOf_of_parsed_expression (tokens_spelled source) h).mono fun _ hn => hn.genuine

/-! ## Trees that are printed alike -/

/-- No literal is a string or infinite. -/
abbrev PlainTree : Node → Prop :=
  Node.Throughout Node.HasPlainLiteral

theorem Program.eq_of_render_eq {p q : Program} (hp : GenuineTree (.top p))
    (hq : GenuineTree (.top q)) (hplain : PlainTree (.top p)) (hplain' : PlainTree (.top q))
    (h : p.render = q.render) : (p.mapLines fun _ => 0) = q.mapLines fun _ => 0 := by
  obtain ⟨hlegible, hread⟩ := Node.readsBack hp hplain
  obtain ⟨hlegible', hread'⟩ := Node.readsBack hq hplain'
  have hlines (ss : List Stmt) : Program.render ss = Form.lines (bodyForms ss) :=
    congrArg "\n".intercalate (Node.printed (.top ss))
  rw [hlines, hlines] at h
  rw [Form.eq_of_lines_eq hlegible hlegible' h, hread'] at hread
  exact (Option.some.inj hread).symm

theorem Expr.eq_of_render_eq {e e' : Expr} (he : GenuineTree (.expr e))
    (he' : GenuineTree (.expr e')) (hplain : PlainTree (.expr e)) (hplain' : PlainTree (.expr e'))
    (h : e.render = e'.render) : (e.mapLines fun _ => 0) = e'.mapLines fun _ => 0 := by
  obtain ⟨hlegible, hread⟩ := Node.readsBack he hplain
  obtain ⟨hlegible', hread'⟩ := Node.readsBack he' hplain'
  have htext (e : Expr) : e.render = e.form.text := Node.printed (.expr e)
  rw [htext, htext] at h
  rw [Form.eq_of_text_eq hlegible hlegible' h, hread'] at hread
  exact (Option.some.inj hread).symm

/-- Two programs, and two expressions, of source texts that are printed alike differ in their lines
at most, unless there is a string or an infinite number in them. -/
theorem printed_alike_up_to_lines (source source' : String) :
    (∀ p q : Program, Grammar.parseProgram (tokens source) = .ok p →
      Grammar.parseProgram (tokens source') = .ok q → PlainTree (.top p) → PlainTree (.top q) →
      p.render = q.render → (p.mapLines fun _ => 0) = q.mapLines fun _ => 0) ∧
    (∀ e e' : Expr, Grammar.parseExpression (tokens source) = .ok e →
      Grammar.parseExpression (tokens source') = .ok e' → PlainTree (.expr e) →
      PlainTree (.expr e') → e.render = e'.render →
      (e.mapLines fun _ => 0) = e'.mapLines fun _ => 0) := by
  constructor
  · intro p q hp hq
    exact Program.eq_of_render_eq (genuine_of_parsed_program hp) (genuine_of_parsed_program hq)
  · intro e e' he he'
    exact Expr.eq_of_render_eq (genuine_of_parsed_expression he) (genuine_of_parsed_expression he')

/-- The names are those of kinds of forms. -/
theorem printed_alike_call_group :
    let tree (line : Nat) (x : Float) : Expr :=
      .binary .subtract (.unary .negate (.variable ⟨"call", 1⟩ none) 1)
        (.call (.variable ⟨"group", line⟩ none) [.literal (.number x) line] line) 1
    let e := tree 1 (Number.read ['1', '.', '5', '0'])
    let e' := tree 2 (Number.read ['1', '.', '5'])
    (Grammar.parseExpression (tokens "-call - group(1.50)") = .ok e ∧
      Grammar.parseExpression (tokens "-call -\n  group(1.5)") = .ok e' ∧
      PlainTree (.expr e) ∧ PlainTree (.expr e') ∧
      e.render = "(- (- call) (call group 1.5))" ∧ e'.render = "(- (- call) (call group 1.5))" ∧
      (e.mapLines fun _ => 0) = e'.mapLines fun _ => 0) ∧
    (Grammar.parseProgram (tokens "-call - group(1.50);") = .ok [.expression e] ∧
      Grammar.parseProgram (tokens "-call -\n  group(1.5);") = .ok [.expression e'] ∧
      (Program.mapLines (fun _ => 0) [.expression e]) =
        Program.mapLines (fun _ => 0) [.expression e']) := by
  intro tree e e'
  let ts (line : Nat) (x : Float) (text : String) : List Token :=
    [⟨.symbol .minus, "-", 1⟩, ⟨.identifier, "call", 1⟩, ⟨.symbol .minus, "-", 1⟩,
      ⟨.identifier, "group", line⟩, ⟨.symbol .leftParen, "(", line⟩, ⟨.number x, text, line⟩,
      ⟨.symbol .rightParen, ")", line⟩]
  have htokens : tokens "-call - group(1.50)" =
      ts 1 (Number.read ['1', '.', '5', '0']) "1.50" ++ [⟨.eof, "", 1⟩] := by decide +kernel
  have htokens' : tokens "-call -\n  group(1.5)" =
      ts 2 (Number.read ['1', '.', '5']) "1.5" ++ [⟨.eof, "", 2⟩] := by decide +kernel
  have hended : tokens "-call - group(1.50);" = ts 1 (Number.read ['1', '.', '5', '0']) "1.50" ++
      [⟨.symbol .semicolon, ";", 1⟩, ⟨.eof, "", 1⟩] := by decide +kernel
  have hended' : tokens "-call -\n  group(1.5);" = ts 2 (Number.read ['1', '.', '5']) "1.5" ++
      [⟨.symbol .semicolon, ";", 2⟩, ⟨.eof, "", 2⟩] := by decide +kernel
  have hplain (line : Nat) (x : Float) (hx : Literal.IsPlain (.number x)) :
      PlainTree (.expr (tree line x)) := by
    have hnumber : PlainTree (.expr (.literal (.number x) line)) := .leaf hx rfl
    have hnone : PlainTree (.arguments []) := .leaf trivial rfl
    have hname (name : Ident) : PlainTree (.expr (.variable name none)) := .leaf trivial rfl
    have harguments : PlainTree (.arguments [.literal (.number x) line]) :=
      .two hnumber hnone trivial rfl
    have hcall : PlainTree (.expr (.call (.variable ⟨"group", line⟩ none)
        [.literal (.number x) line] line)) := .two (hname _) harguments trivial rfl
    have hnegated : PlainTree (.expr (.unary .negate (.variable ⟨"call", 1⟩ none) 1)) :=
      .one (hname _) trivial rfl
    exact .two hnegated hcall trivial rfl
  have he : PlainTree (.expr e) := by
    apply hplain
    rintro (_ | _) <;> decide +kernel
  have he' : PlainTree (.expr e') := by
    apply hplain
    rintro (_ | _) <;> decide +kernel
  have hprogram {e : Expr} (he : PlainTree (.expr e)) : PlainTree (.top [.expression e]) := by
    have hnone : PlainTree (.top []) := .leaf trivial rfl
    have hstmt : PlainTree (.stmt (.expression e)) := .one he trivial rfl
    exact .two hstmt hnone trivial rfl
  have hparsed : Grammar.parseExpression (tokens "-call - group(1.50)") = .ok e := by
    rw [htokens]
    rfl
  have hparsed' : Grammar.parseExpression (tokens "-call -\n  group(1.5)") = .ok e' := by
    rw [htokens']
    rfl
  have hrender : e.render = "(- (- call) (call group 1.5))" := by decide +kernel
  have hrender' : e'.render = "(- (- call) (call group 1.5))" := by decide +kernel
  have hp : Grammar.parseProgram (tokens "-call - group(1.50);") = .ok [.expression e] := by
    rw [hended]
    rfl
  have hp' : Grammar.parseProgram (tokens "-call -\n  group(1.5);") = .ok [.expression e'] := by
    rw [hended']
    rfl
  have hprinted : Program.render [.expression e] = Program.render [.expression e'] := by
    simp [Program.render, Stmt.render, hrender, hrender']
  exact ⟨⟨hparsed, hparsed', he, he', hrender, hrender', (printed_alike_up_to_lines _ _).2 e e'
    hparsed hparsed' he he' (hrender.trans hrender'.symm)⟩, hp, hp',
    (printed_alike_up_to_lines _ _).1 _ _ hp hp' (hprogram he) (hprogram he') hprinted⟩

end Lox
