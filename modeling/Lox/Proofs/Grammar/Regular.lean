import Lox.Proofs.Grammar.Soundness
import Lox.Proofs.Scoping.Walk
import Lox.Session

/-!
# Trees of source texts are regular

A name in a source text is never a reserved word, so it cannot be mistaken for a receiver or a
superclass. The grammar keeps declarations out of branches and loops. Hence every tree that is
derived from the tokens of a text is regular.
-/

set_option autoImplicit false

namespace Lox

/-! ## Tokens of a text -/

/-- The token is neither the end of a text nor a name that is a reserved word. -/
def Token.Proper (t : Token) : Prop :=
  t.kind ≠ .eof ∧ (t.kind = .identifier → Keyword.ofText? t.lexeme = none)

namespace Piece

theorem nameKind_proper (chars : List Char) (line : Nat) :
    Token.Proper ⟨nameKind chars, String.ofList chars, line⟩ := by
  unfold nameKind
  split
  · exact ⟨by simp, by simp⟩
  · rename_i hnone
    exact ⟨by simp, fun _ => hnone⟩

theorem next_proper {c : Char} {rest : List Char} {kind : Kind} {chars : List Char} (line : Nat)
    (h : (next c rest).1 = .token kind chars) : Token.Proper ⟨kind, String.ofList chars, line⟩ := by
  unfold next at h
  split at h
  · cases h
  split at h
  · unfold string at h
    split at h
    · cases h
    · cases h
      exact ⟨by simp, by simp⟩
  split at h
  · cases h
    exact ⟨by simp, by simp⟩
  split at h
  · cases h
    exact nameKind_proper _ line
  split at h
  · cases h
  · cases h
  · split at h
    · cases h
      exact ⟨by simp, by simp⟩
    · cases h

theorem splitFrom_proper (found : List Piece) (cs : List Char) {kind : Kind} {chars : List Char}
    (line : Nat) (h : Piece.token kind chars ∈ splitFrom found cs) :
    Piece.token kind chars ∈ found ∨ Token.Proper ⟨kind, String.ofList chars, line⟩ := by
  fun_induction splitFrom found cs with
  | case1 found => exact Or.inl (List.mem_reverse.1 h)
  | case2 found c rest ih =>
    rcases ih h with hfound | hproper
    · rcases List.mem_cons.1 hfound with hnext | hfound
      · exact Or.inr (next_proper line hnext.symm)
      · exact Or.inl hfound
    · exact Or.inr hproper

end Piece

/-- Only the last item is the end of the text, and all tokens before it are those of pieces. -/
theorem itemsFrom_proper (found : List Item) (line : Nat) {ps : List Piece}
    (hfound : ∀ t, Item.token t ∈ found → t.Proper)
    (hps : ∀ kind chars line, Piece.token kind chars ∈ ps →
      Token.Proper ⟨kind, String.ofList chars, line⟩) :
    ∃ items line', itemsFrom found line ps = items ++ [.token ⟨.eof, "", line'⟩] ∧
      ∀ t, Item.token t ∈ items → t.Proper := by
  induction ps generalizing found line with
  | nil => exact ⟨found.reverse, line, by simp [itemsFrom], fun t ht => hfound t (by simpa using ht)⟩
  | cons p ps ih =>
    refine ih _ _ ?_ fun kind chars line h => hps kind chars line (List.mem_cons_of_mem _ h)
    intro t ht
    rcases List.mem_append.1 ht with ht | ht
    · cases p with
      | token kind chars =>
        simp only [Piece.item?, Option.toList_some, List.mem_singleton, Item.token.injEq] at ht
        subst ht
        exact hps kind chars _ List.mem_cons_self
      | blank | comment | refused | openString => simp [Piece.item?] at ht
    · exact hfound t ht

/-- The tokens of a text end with its only end. -/
theorem tokens_proper (source : String) :
    ∃ ts eof, tokens source = ts ++ [eof] ∧ eof.kind = .eof ∧ ∀ t ∈ ts, t.Proper := by
  have hpieces (kind : Kind) (chars : List Char) (line : Nat)
      (h : Piece.token kind chars ∈ Piece.split source.toList) :
      Token.Proper ⟨kind, String.ofList chars, line⟩ :=
    (Piece.splitFrom_proper [] source.toList line h).resolve_left (by simp)
  obtain ⟨items, line, hitems, hproper⟩ := itemsFrom_proper [] 1 (by simp) hpieces
  refine ⟨items.filterMap Item.token?, ⟨.eof, "", line⟩, ?_, rfl, ?_⟩
  · rw [tokens, scan, hitems, List.filterMap_append]
    rfl
  · intro t ht
    obtain ⟨item, hitem, htoken⟩ := List.mem_filterMap.1 ht
    cases item with
    | token t' =>
      obtain rfl := Option.some.inj htoken
      exact hproper _ hitem
    | error e => cases htoken

/-- Names among the tokens are not reserved. -/
def Named (ts : List Token) : Prop :=
  ∀ t ∈ ts, t.kind = .identifier → Plain t.lexeme

theorem Token.Proper.plain {t : Token} (h : t.Proper) (hkind : t.kind = .identifier) :
    Plain t.lexeme := by
  have hnone := h.2 hkind
  constructor <;> intro heq <;> rw [heq] at hnone <;> cases hnone

namespace Named
variable {t : Token} {ts : List Token}

theorem tail (h : Named (t :: ts)) : Named ts :=
  fun t' ht' => h t' (List.mem_cons_of_mem _ ht')

theorem plain (h : Named (t :: ts)) (hkind : t.kind = .identifier) : Plain (Grammar.ident t).name :=
  h t List.mem_cons_self hkind

end Named

/-! ## Regular trees -/

theorem Regular.body_cons {s : Stmt} {rest : List Stmt} (hs : Regular (.stmt s))
    (hrest : Regular (.body rest)) : Regular (.body (s :: rest)) := by
  cases s with
  | function decl =>
    cases hs with
    | functionDecl hname hdecl => exact .bodyFunction hname hdecl hrest
  | _ => exact .bodyStmt rfl hs hrest

namespace Grammar

theorem Derives.isDeclaration_eq_false {nearest : Bool} {ts rest : List Token} {s : Stmt}
    {isOpen : Bool} (h : Derives nearest .statement ts (.stmt s isOpen) rest) :
    s.isDeclaration = false := by
  cases h with
  | expressed h =>
    cases h
    rfl
  | @forStmt _ _ _ _ _ _ _ _ _ init => cases init <;> rfl
  | _ => rfl

/-- What a tree derived from a nonterminal satisfies. -/
def Tree.IsRegular (N : Nonterminal) : Tree → Prop
  | .expr e => Regular (.expr e)
  | .exprs es => Regular (.arguments es)
  | .optional e => ∀ e' ∈ e, Regular (.expr e')
  | .suffixes fs => ∀ f ∈ fs, ∀ e, Regular (.expr e) → Regular (.expr (f e))
  | .stmt s _ => Regular (.stmt s) ∧ (N = .statement ∨ N = .exprStmt → s.isDeclaration = false)
  | .stmts ss => Regular (.body ss) ∧ Regular (.top ss)
  | .init s => ∀ s' ∈ s, Regular (.stmt s')
  | .code ps body => (∀ param ∈ ps, Plain param.name) ∧ Regular (.body body)
  | .params names => ∀ param ∈ names, Plain param.name
  | .methods ds => Regular (.methods ds)

theorem Operator.regular {p : Precedence} {k : Kind} {node : Expr → Expr → Nat → Expr}
    (h : Operator p k node) {left right : Expr} (hleft : Regular (.expr left))
    (hright : Regular (.expr right)) (line : Nat) : Regular (.expr (node left right line)) := by
  cases h with
  | or | and => exact .logical _ line hleft hright
  | _ => exact .binary _ line hleft hright

theorem regular_applySuffixes {e : Expr} {fs : List (Expr → Expr)} (he : Regular (.expr e))
    (hfs : ∀ f ∈ fs, ∀ e, Regular (.expr e) → Regular (.expr (f e))) :
    Regular (.expr (applySuffixes e fs)) := by
  induction fs generalizing e with
  | nil => exact he
  | cons f fs ih =>
    apply ih
    · exact hfs f List.mem_cons_self e he
    · exact fun f' hf' => hfs f' (List.mem_cons_of_mem _ hf')

theorem regular_withIncrement {body : Stmt} {increment : Option Expr} (hbody : Regular (.stmt body))
    (hdeclares : body.isDeclaration = false) (hincrement : ∀ e ∈ increment, Regular (.expr e)) :
    Regular (.stmt (withIncrement body increment)) ∧
      (withIncrement body increment).isDeclaration = false := by
  cases increment with
  | none => exact ⟨hbody, hdeclares⟩
  | some e =>
    have he : Regular (.stmt (.expression e)) := .expression (hincrement e rfl)
    exact ⟨.block (hbody.body_cons (he.body_cons .noStatement)), rfl⟩

theorem regular_forTree {line : Nat} {init : Option Stmt} {condition increment : Option Expr}
    {body : Stmt} (hinit : ∀ s ∈ init, Regular (.stmt s))
    (hcondition : ∀ e ∈ condition, Regular (.expr e))
    (hincrement : ∀ e ∈ increment, Regular (.expr e)) (hbody : Regular (.stmt body))
    (hdeclares : body.isDeclaration = false) :
    Regular (.stmt (forTree line init condition increment body)) ∧
      (forTree line init condition increment body).isDeclaration = false := by
  obtain ⟨hbody', hdeclares'⟩ := regular_withIncrement hbody hdeclares hincrement
  have hcondition' : Regular (.expr (condition.getD (.literal (.bool true) line))) := by
    cases condition with
    | none => exact .literal _ line
    | some e => exact hcondition e rfl
  have hloop := Regular.loop hcondition' hbody' hdeclares'
  cases init with
  | none => exact ⟨hloop, rfl⟩
  | some s => exact ⟨.block ((hinit s rfl).body_cons (hloop.body_cons .noStatement)), rfl⟩

/-- The trees of a derivation from tokens whose names are not reserved are regular. -/
theorem Derives.regular {nearest : Bool} {N : Nonterminal} {ts rest : List Token} {tree : Tree}
    (h : Derives nearest N ts tree rest) (hts : Named ts) : tree.IsRegular N ∧ Named rest := by
  induction h with
  | program _ _ ih =>
    obtain ⟨hss, -⟩ := ih hts
    exact ⟨hss, by simp [Named]⟩
  | noDeclaration => exact ⟨⟨.noStatement, .noTop⟩, hts⟩
  | moreDeclarations _ _ ih ih' =>
    obtain ⟨hs, hmid⟩ := ih hts
    obtain ⟨hss, hrest⟩ := ih' hmid
    exact ⟨⟨hs.1.body_cons hss.1, .topStmt hs.1 hss.2⟩, hrest⟩
  | classDecl _ hname _ _ _ ih =>
    obtain ⟨hds, hrest⟩ := ih hts.tail.tail.tail
    exact ⟨⟨.classDecl (hts.tail.plain hname) hds, by simp⟩, hrest.tail⟩
  | subclassDecl _ hname _ hparent _ _ _ ih =>
    obtain ⟨hds, hrest⟩ := ih hts.tail.tail.tail.tail.tail
    have hplain := hts.tail.tail.tail.plain hparent
    exact ⟨⟨.subclassDecl _ (hts.tail.plain hname) hplain hds, by simp⟩, hrest.tail⟩
  | noMethod => exact ⟨Regular.noMethod, hts⟩
  | moreMethods _ _ _ ih ih' =>
    obtain ⟨hcode, hmid⟩ := ih hts.tail
    obtain ⟨hds, hrest⟩ := ih' hmid
    exact ⟨Regular.method (.code _ _ hcode.1 hcode.2) hds, hrest⟩
  | funDecl _ hname _ ih =>
    obtain ⟨hcode, hrest⟩ := ih hts.tail.tail
    refine ⟨⟨.functionDecl ?_ (.code _ _ hcode.1 hcode.2), by simp⟩, hrest⟩
    intro name hmem
    obtain rfl := Option.some.inj hmem
    exact hts.tail.plain hname
  | codeWithout _ _ _ ih =>
    obtain ⟨hbody, hrest⟩ := ih hts.tail.tail
    exact ⟨⟨by simp, hbody.1⟩, hrest⟩
  | codeWith _ _ _ _ _ ih ih' =>
    obtain ⟨hparams, hmid⟩ := ih hts.tail
    obtain ⟨hbody, hrest⟩ := ih' hmid.tail
    exact ⟨⟨hparams, hbody.1⟩, hrest⟩
  | lastParameter hname =>
    refine ⟨?_, hts.tail⟩
    intro param hparam
    obtain rfl := List.mem_singleton.1 hparam
    exact hts.plain hname
  | moreParameters hname _ _ ih =>
    obtain ⟨hparams, hrest⟩ := ih hts.tail.tail
    exact ⟨List.forall_mem_cons.2 ⟨hts.plain hname, hparams⟩, hrest⟩
  | declaredVar _ ih | statement _ ih =>
    obtain ⟨hs, hrest⟩ := ih hts
    exact ⟨⟨hs.1, by simp⟩, hrest⟩
  | var _ hname _ => exact ⟨⟨.var (hts.tail.plain hname), by simp⟩, hts.tail.tail.tail⟩
  | varWith _ hname _ _ _ ih =>
    obtain ⟨he, hrest⟩ := ih hts.tail.tail.tail
    exact ⟨⟨.varWith (hts.tail.plain hname) he, by simp⟩, hrest.tail⟩
  | exprStmt _ _ ih =>
    obtain ⟨he, hrest⟩ := ih hts
    exact ⟨⟨.expression he, fun _ => rfl⟩, hrest.tail⟩
  | expressed _ ih =>
    obtain ⟨hs, hrest⟩ := ih hts
    exact ⟨⟨hs.1, fun _ => hs.2 (Or.inr rfl)⟩, hrest⟩
  | forStmt _ _ _ _ _ _ _ _ ih₁ ih₂ ih₃ ih₄ =>
    obtain ⟨hinit, hts₁⟩ := ih₁ hts.tail.tail
    obtain ⟨hcondition, hts₂⟩ := ih₂ hts₁
    obtain ⟨hincrement, hts₃⟩ := ih₃ hts₂.tail
    obtain ⟨hbody, hrest⟩ := ih₄ hts₃.tail
    obtain ⟨hloop, hdeclares⟩ :=
      regular_forTree hinit hcondition hincrement hbody.1 (hbody.2 (Or.inl rfl))
    exact ⟨⟨hloop, fun _ => hdeclares⟩, hrest⟩
  | noInit _ => exact ⟨by simp [Tree.IsRegular], hts.tail⟩
  | varInit _ ih | exprInit _ ih =>
    obtain ⟨hs, hrest⟩ := ih hts
    refine ⟨?_, hrest⟩
    intro s hmem
    obtain rfl := Option.some.inj hmem
    exact hs.1
  | ifThen _ _ _ _ _ ih ih' =>
    obtain ⟨he, hmid⟩ := ih hts.tail.tail
    obtain ⟨hs, hrest⟩ := ih' hmid.tail
    exact ⟨⟨.cond he hs.1 (hs.2 (Or.inl rfl)), fun _ => rfl⟩, hrest⟩
  | ifElse _ _ _ _ _ _ _ _ ih ih' ih'' =>
    obtain ⟨he, hmid⟩ := ih hts.tail.tail
    obtain ⟨hs, hmid'⟩ := ih' hmid.tail
    obtain ⟨hs', hrest⟩ := ih'' hmid'.tail
    exact ⟨⟨.condElse he hs.1 (hs.2 (Or.inl rfl)) hs'.1 (hs'.2 (Or.inl rfl)), fun _ => rfl⟩, hrest⟩
  | printStmt _ _ _ ih =>
    obtain ⟨he, hrest⟩ := ih hts.tail
    exact ⟨⟨.print he, fun _ => rfl⟩, hrest.tail⟩
  | @returnStmt _ _ _ _ e _ _ _ ih =>
    obtain ⟨he, hrest⟩ := ih hts.tail
    refine ⟨⟨?_, fun _ => rfl⟩, hrest.tail⟩
    cases e with
    | none => exact .ret _
    | some e => exact .retWith _ (he e rfl)
  | breakStmt _ _ => exact ⟨⟨.brk _, fun _ => rfl⟩, hts.tail.tail⟩
  | whileStmt _ _ _ _ _ ih ih' =>
    obtain ⟨he, hmid⟩ := ih hts.tail.tail
    obtain ⟨hs, hrest⟩ := ih' hmid.tail
    exact ⟨⟨.loop he hs.1 (hs.2 (Or.inl rfl)), fun _ => rfl⟩, hrest⟩
  | blockStmt _ ih =>
    obtain ⟨hss, hrest⟩ := ih hts
    exact ⟨⟨.block hss.1, fun _ => rfl⟩, hrest⟩
  | block _ _ _ ih =>
    obtain ⟨hss, hrest⟩ := ih hts.tail
    exact ⟨hss, hrest.tail⟩
  | absent => exact ⟨by simp [Tree.IsRegular], hts⟩
  | present _ ih =>
    obtain ⟨he, hrest⟩ := ih hts
    refine ⟨?_, hrest⟩
    intro e hmem
    obtain rfl := Option.some.inj hmem
    exact he
  | assign hname _ _ ih =>
    obtain ⟨he, hrest⟩ := ih hts.tail.tail
    exact ⟨Regular.assign _ (hts.plain hname) he, hrest⟩
  | set _ _ _ _ _ ih ih' =>
    obtain ⟨hobject, hmid⟩ := ih hts
    obtain ⟨he, hrest⟩ := ih' hmid.tail.tail.tail
    exact ⟨Regular.set _ hobject he, hrest⟩
  | operation _ ih | called _ ih => exact ih hts
  | binary _ _ ih ih' | call _ _ ih ih' =>
    obtain ⟨he, hmid⟩ := ih hts
    obtain ⟨hfs, hrest⟩ := ih' hmid
    exact ⟨regular_applySuffixes he hfs, hrest⟩
  | noOperation | noSuffix => exact ⟨by simp [Tree.IsRegular], hts⟩
  | moreOperations hop _ _ ih ih' =>
    obtain ⟨hright, hmid⟩ := ih hts.tail
    obtain ⟨hfs, hrest⟩ := ih' hmid
    exact ⟨List.forall_mem_cons.2 ⟨fun e he => hop.regular he hright _, hfs⟩, hrest⟩
  | unary _ _ ih =>
    obtain ⟨he, hrest⟩ := ih hts.tail
    exact ⟨Regular.unary _ _ he, hrest⟩
  | callWithout _ _ _ ih =>
    obtain ⟨hfs, hrest⟩ := ih hts.tail.tail
    exact ⟨List.forall_mem_cons.2 ⟨fun e he => .call _ he .noArgument, hfs⟩, hrest⟩
  | callWith _ _ _ _ _ ih ih' =>
    obtain ⟨hes, hmid⟩ := ih hts.tail
    obtain ⟨hfs, hrest⟩ := ih' hmid.tail
    exact ⟨List.forall_mem_cons.2 ⟨fun e he => .call _ he hes, hfs⟩, hrest⟩
  | get _ _ _ ih =>
    obtain ⟨hfs, hrest⟩ := ih hts.tail.tail
    exact ⟨List.forall_mem_cons.2 ⟨fun e he => .get _ he, hfs⟩, hrest⟩
  | lastArgument _ ih =>
    obtain ⟨he, hrest⟩ := ih hts
    exact ⟨Regular.argument he .noArgument, hrest⟩
  | moreArguments _ _ _ ih ih' =>
    obtain ⟨he, hmid⟩ := ih hts
    obtain ⟨hes, hrest⟩ := ih' hmid.tail
    exact ⟨Regular.argument he hes, hrest⟩
  | literal _ => exact ⟨Regular.literal _ _, hts.tail⟩
  | this _ => exact ⟨Regular.this _ _, hts.tail⟩
  | name hname => exact ⟨Regular.variable _ (hts.plain hname), hts.tail⟩
  | group _ _ _ ih =>
    obtain ⟨he, hrest⟩ := ih hts.tail
    exact ⟨Regular.group he, hrest.tail⟩
  | super _ _ _ => exact ⟨Regular.super _ _ _, hts.tail.tail.tail⟩
  | lambda _ _ ih =>
    obtain ⟨hcode, hrest⟩ := ih hts.tail
    exact ⟨Regular.lambda (.code _ _ hcode.1 hcode.2), hrest⟩

end Grammar

/-! ## Trees of a text -/

theorem Grammar.derives_of_parsed_program {source : String} {p : Program}
    (h : parseProgram (tokens source) = .ok p) :
    Derives true .program (tokens source) (.stmts p) [] := by
  obtain ⟨ts, eof, htokens, heof, hproper⟩ := tokens_proper source
  rw [htokens] at h ⊢
  exact derives_of_parseProgram (fun t ht => (hproper t ht).1) heof h

theorem Grammar.derives_of_parsed_expression {source : String} {e : Expr}
    (h : parseExpression (tokens source) = .ok e) :
    ∃ eof, Derives true .expression (tokens source) (.expr e) [eof] := by
  obtain ⟨ts, eof, htokens, heof, hproper⟩ := tokens_proper source
  rw [htokens] at h ⊢
  exact ⟨eof, derives_of_parseExpression (fun t ht => (hproper t ht).1) heof h⟩

/-- The end of a text is not a name. -/
theorem tokens_named (source : String) : Named (tokens source) := by
  obtain ⟨ts, eof, htokens, heof, hproper⟩ := tokens_proper source
  rw [htokens]
  intro t ht hkind
  rcases List.mem_append.1 ht with ht | ht
  · exact (hproper t ht).plain hkind
  · obtain rfl := List.mem_singleton.1 ht
    rw [heof] at hkind
    cases hkind

theorem regular_of_parsed_program {source : String} {p : Program}
    (h : Grammar.parseProgram (tokens source) = .ok p) : Regular (.top p) :=
  ((Grammar.derives_of_parsed_program h).regular (tokens_named source)).1.2

theorem regular_of_parsed_expression {source : String} {e : Expr}
    (h : Grammar.parseExpression (tokens source) = .ok e) : Regular (.top [.expression e]) := by
  obtain ⟨eof, hderives⟩ := Grammar.derives_of_parsed_expression h
  exact .topStmt (.expression (hderives.regular (tokens_named source)).1) .noTop

end Lox
