import Lox.Proofs.Grammar.Regular

/-!
# Where trees come from

What a node of a derived tree holds apart from its parts comes from tokens of the derivation: a
name from an identifier, a literal from the token of a literal, and a loop from one of its two
keywords. So what is known of all tokens of a text is known of what each node was made of.
-/

set_option autoImplicit false

namespace Lox

variable {Q : Token → Prop}

/-- All tokens satisfy `Q`. -/
def Consists (Q : Token → Prop) (ts : List Token) : Prop :=
  ∀ t ∈ ts, Q t

/-- The name is that of an identifier that satisfies `Q`. -/
def Ident.MadeOf (Q : Token → Prop) (x : Ident) : Prop :=
  ∃ t, Q t ∧ t.kind = .identifier ∧ x = Grammar.ident t

/-- What the node holds apart from its parts is made of tokens that satisfy `Q`, and no slot is
filled. A loop without a condition is given one that is true. -/
def Node.MadeOf (Q : Token → Prop) : Node → Prop
  | .expr (.literal value _) => value = .bool true ∨ ∃ t, Q t ∧ Grammar.LiteralToken t.kind value
  | .expr (.variable name slot) => name.MadeOf Q ∧ slot = none
  | .expr (.assign name _ slot) => name.MadeOf Q ∧ slot = none
  | .expr (.get _ name) => name.MadeOf Q
  | .expr (.set _ name _) => name.MadeOf Q
  | .expr (.this _ slot) => slot = none
  | .expr (.super _ method slot) => method.MadeOf Q ∧ slot = none
  | .expr (.lambda decl) => decl.name = none
  | .stmt (.var name _) => name.MadeOf Q
  | .stmt (.loop _ _) => ∃ t, Q t ∧ (t.kind = .keyword .whileKw ∨ t.kind = .keyword .forKw)
  | .stmt (.function decl) => decl.name.isSome
  | .stmt (.classDecl name superclass _) =>
    name.MadeOf Q ∧ ∀ parent ∈ superclass, parent.1.MadeOf Q ∧ parent.2 = none
  | .body (.function decl :: _) => decl.name.isSome
  | .function decl => (∀ name ∈ decl.name, name.MadeOf Q) ∧ ∀ x ∈ decl.params, x.MadeOf Q
  | .methods (decl :: _) => decl.name.isSome
  | _ => True

/-- The node and all that is in it are made of tokens that satisfy `Q`. -/
abbrev TreeOf (Q : Token → Prop) : Node → Prop :=
  Node.Throughout (Node.MadeOf Q)

namespace Consists

variable {t : Token} {ts : List Token}

theorem head (h : Consists Q (t :: ts)) : Q t :=
  h t List.mem_cons_self

theorem tail (h : Consists Q (t :: ts)) : Consists Q ts :=
  fun t' ht' => h t' (List.mem_cons_of_mem _ ht')

theorem ident (h : Consists Q (t :: ts)) (hkind : t.kind = .identifier) :
    (Grammar.ident t).MadeOf Q :=
  ⟨t, h.head, hkind, rfl⟩

end Consists

namespace TreeOf

theorem noArgument : TreeOf Q (.arguments []) :=
  .leaf trivial rfl

theorem body_cons {s : Stmt} {rest : List Stmt} (hs : TreeOf Q (.stmt s))
    (hrest : TreeOf Q (.body rest)) : TreeOf Q (.body (s :: rest)) := by
  cases s with
  | function decl => exact .two (hs.part List.mem_cons_self) hrest hs.own rfl
  | _ => exact .two hs hrest trivial rfl

/-- A function with a name. -/
theorem named {name : Ident} {params : List Ident} {body : List Stmt} (line : Nat)
    (hname : name.MadeOf Q) (hcode : (∀ x ∈ params, x.MadeOf Q) ∧ TreeOf Q (.body body)) :
    TreeOf Q (.function ⟨some name, params, body, line⟩) := by
  refine .one hcode.2 ⟨?_, hcode.1⟩ rfl
  intro x hx
  obtain rfl := Option.some.inj hx
  exact hname

/-- A function without a name. -/
theorem unnamed {params : List Ident} {body : List Stmt} (line : Nat)
    (hcode : (∀ x ∈ params, x.MadeOf Q) ∧ TreeOf Q (.body body)) :
    TreeOf Q (.function ⟨none, params, body, line⟩) :=
  .one hcode.2 ⟨by simp, hcode.1⟩ rfl

end TreeOf

namespace Grammar

/-- What a tree derived from tokens that satisfy `Q` satisfies. -/
def Tree.MadeOf (Q : Token → Prop) : Tree → Prop
  | .expr e => TreeOf Q (.expr e)
  | .exprs es => TreeOf Q (.arguments es)
  | .optional e => ∀ e' ∈ e, TreeOf Q (.expr e')
  | .suffixes fs => ∀ f ∈ fs, ∀ e, TreeOf Q (.expr e) → TreeOf Q (.expr (f e))
  | .stmt s _ => TreeOf Q (.stmt s)
  | .stmts ss => TreeOf Q (.body ss) ∧ TreeOf Q (.top ss)
  | .init s => ∀ s' ∈ s, TreeOf Q (.stmt s')
  | .code ps body => (∀ x ∈ ps, x.MadeOf Q) ∧ TreeOf Q (.body body)
  | .params names => ∀ x ∈ names, x.MadeOf Q
  | .methods ds => TreeOf Q (.methods ds)

theorem Operator.madeOf {p : Precedence} {k : Kind} {node : Expr → Expr → Nat → Expr}
    (h : Operator p k node) {left right : Expr} (hleft : TreeOf Q (.expr left))
    (hright : TreeOf Q (.expr right)) (line : Nat) : TreeOf Q (.expr (node left right line)) := by
  cases h <;> exact .two hleft hright trivial rfl

theorem madeOf_applySuffixes {e : Expr} {fs : List (Expr → Expr)} (he : TreeOf Q (.expr e))
    (hfs : ∀ f ∈ fs, ∀ e, TreeOf Q (.expr e) → TreeOf Q (.expr (f e))) :
    TreeOf Q (.expr (applySuffixes e fs)) := by
  induction fs generalizing e with
  | nil => exact he
  | cons f fs ih =>
    apply ih
    · exact hfs f List.mem_cons_self e he
    · exact fun f' hf' => hfs f' (List.mem_cons_of_mem _ hf')

theorem madeOf_forTree {kw : Token} {init : Option Stmt} {condition increment : Option Expr}
    {body : Stmt} (hQ : Q kw) (hkw : kw.kind = .keyword .forKw)
    (hinit : ∀ s ∈ init, TreeOf Q (.stmt s)) (hcondition : ∀ e ∈ condition, TreeOf Q (.expr e))
    (hincrement : ∀ e ∈ increment, TreeOf Q (.expr e)) (hbody : TreeOf Q (.stmt body)) :
    TreeOf Q (.stmt (forTree kw.line init condition increment body)) := by
  have hnil : TreeOf Q (.body []) := .leaf trivial rfl
  have hbody' : TreeOf Q (.stmt (withIncrement body increment)) := by
    cases increment with
    | none => exact hbody
    | some e =>
      have he : TreeOf Q (.stmt (.expression e)) := .one (hincrement e rfl) trivial rfl
      exact .one (TreeOf.body_cons hbody (TreeOf.body_cons he hnil)) trivial rfl
  have hcondition' : TreeOf Q (.expr (condition.getD (.literal (.bool true) kw.line))) := by
    cases condition with
    | none => exact .leaf (Or.inl rfl) rfl
    | some e => exact hcondition e rfl
  have hloop : TreeOf Q (.stmt (.loop (condition.getD (.literal (.bool true) kw.line))
      (withIncrement body increment))) := .two hcondition' hbody' ⟨kw, hQ, Or.inr hkw⟩ rfl
  cases init with
  | none => exact hloop
  | some s =>
    exact .one (TreeOf.body_cons (hinit s rfl) (TreeOf.body_cons hloop hnil)) trivial rfl

/-- The nodes of a derived tree are made of the tokens that it is derived from. -/
theorem Derives.madeOf {nearest : Bool} {N : Nonterminal} {ts rest : List Token} {tree : Tree}
    (h : Derives nearest N ts tree rest) (hts : Consists Q ts) :
    tree.MadeOf Q ∧ Consists Q rest := by
  induction h with
  | program _ _ ih =>
    obtain ⟨hss, -⟩ := ih hts
    exact ⟨hss, by simp [Consists]⟩
  | noDeclaration => exact ⟨⟨.leaf trivial rfl, .leaf trivial rfl⟩, hts⟩
  | moreDeclarations _ _ ih ih' =>
    obtain ⟨hs, hmid⟩ := ih hts
    obtain ⟨hss, hrest⟩ := ih' hmid
    exact ⟨⟨TreeOf.body_cons hs hss.1, .two hs hss.2 trivial rfl⟩, hrest⟩
  | classDecl _ hname _ _ _ ih =>
    obtain ⟨hds, hrest⟩ := ih hts.tail.tail.tail
    exact ⟨.one hds ⟨hts.tail.ident hname, by simp⟩ rfl, hrest.tail⟩
  | subclassDecl _ hname _ hparent _ _ _ ih =>
    obtain ⟨hds, hrest⟩ := ih hts.tail.tail.tail.tail.tail
    refine ⟨.one hds ⟨hts.tail.ident hname, ?_⟩ rfl, hrest.tail⟩
    intro parent hmem
    obtain rfl := Option.some.inj hmem
    exact ⟨hts.tail.tail.tail.ident hparent, rfl⟩
  | noMethod => exact ⟨.leaf trivial rfl, hts⟩
  | moreMethods hname _ _ ih ih' =>
    obtain ⟨hcode, hmid⟩ := ih hts.tail
    obtain ⟨hds, hrest⟩ := ih' hmid
    exact ⟨.two (TreeOf.named _ (hts.ident hname) hcode) hds rfl rfl, hrest⟩
  | funDecl _ hname _ ih =>
    obtain ⟨hcode, hrest⟩ := ih hts.tail.tail
    exact ⟨.one (TreeOf.named _ (hts.tail.ident hname) hcode) rfl rfl, hrest⟩
  | codeWithout _ _ _ ih =>
    obtain ⟨hbody, hrest⟩ := ih hts.tail.tail
    exact ⟨⟨by simp, hbody.1⟩, hrest⟩
  | codeWith _ _ _ _ _ ih ih' =>
    obtain ⟨hparams, hmid⟩ := ih hts.tail
    obtain ⟨hbody, hrest⟩ := ih' hmid.tail
    exact ⟨⟨hparams, hbody.1⟩, hrest⟩
  | lastParameter hname => exact ⟨List.forall_mem_singleton.2 (hts.ident hname), hts.tail⟩
  | moreParameters hname _ _ ih =>
    obtain ⟨hparams, hrest⟩ := ih hts.tail.tail
    exact ⟨List.forall_mem_cons.2 ⟨hts.ident hname, hparams⟩, hrest⟩
  | declaredVar _ ih | statement _ ih | expressed _ ih => exact ih hts
  | var _ hname _ => exact ⟨.leaf (hts.tail.ident hname) rfl, hts.tail.tail.tail⟩
  | varWith _ hname _ _ _ ih =>
    obtain ⟨he, hrest⟩ := ih hts.tail.tail.tail
    exact ⟨.one he (hts.tail.ident hname) rfl, hrest.tail⟩
  | exprStmt _ _ ih =>
    obtain ⟨he, hrest⟩ := ih hts
    exact ⟨.one he trivial rfl, hrest.tail⟩
  | forStmt hkw _ _ _ _ _ _ _ ih₁ ih₂ ih₃ ih₄ =>
    obtain ⟨hinit, hts₁⟩ := ih₁ hts.tail.tail
    obtain ⟨hcondition, hts₂⟩ := ih₂ hts₁
    obtain ⟨hincrement, hts₃⟩ := ih₃ hts₂.tail
    obtain ⟨hbody, hrest⟩ := ih₄ hts₃.tail
    exact ⟨madeOf_forTree hts.head hkw hinit hcondition hincrement hbody, hrest⟩
  | noInit _ => exact ⟨by simp [Tree.MadeOf], hts.tail⟩
  | varInit _ ih | exprInit _ ih =>
    obtain ⟨hs, hrest⟩ := ih hts
    refine ⟨?_, hrest⟩
    intro s hmem
    obtain rfl := Option.some.inj hmem
    exact hs
  | ifThen _ _ _ _ _ ih ih' =>
    obtain ⟨he, hmid⟩ := ih hts.tail.tail
    obtain ⟨hs, hrest⟩ := ih' hmid.tail
    exact ⟨.two he hs trivial rfl, hrest⟩
  | ifElse _ _ _ _ _ _ _ _ ih ih' ih'' =>
    obtain ⟨he, hmid⟩ := ih hts.tail.tail
    obtain ⟨hs, hmid'⟩ := ih' hmid.tail
    obtain ⟨hs', hrest⟩ := ih'' hmid'.tail
    exact ⟨.three he hs hs' trivial rfl, hrest⟩
  | printStmt _ _ _ ih =>
    obtain ⟨he, hrest⟩ := ih hts.tail
    exact ⟨.one he trivial rfl, hrest.tail⟩
  | @returnStmt _ _ _ _ e _ _ _ ih =>
    obtain ⟨he, hrest⟩ := ih hts.tail
    refine ⟨?_, hrest.tail⟩
    cases e with
    | none => exact .leaf trivial rfl
    | some e => exact .one (he e rfl) trivial rfl
  | breakStmt _ _ => exact ⟨.leaf trivial rfl, hts.tail.tail⟩
  | whileStmt hkw _ _ _ _ ih ih' =>
    obtain ⟨he, hmid⟩ := ih hts.tail.tail
    obtain ⟨hs, hrest⟩ := ih' hmid.tail
    exact ⟨.two he hs ⟨_, hts.head, Or.inl hkw⟩ rfl, hrest⟩
  | blockStmt _ ih =>
    obtain ⟨hss, hrest⟩ := ih hts
    exact ⟨.one hss.1 trivial rfl, hrest⟩
  | block _ _ _ ih =>
    obtain ⟨hss, hrest⟩ := ih hts.tail
    exact ⟨hss, hrest.tail⟩
  | absent => exact ⟨by simp [Tree.MadeOf], hts⟩
  | present _ ih =>
    obtain ⟨he, hrest⟩ := ih hts
    refine ⟨?_, hrest⟩
    intro e hmem
    obtain rfl := Option.some.inj hmem
    exact he
  | assign hname _ _ ih =>
    obtain ⟨he, hrest⟩ := ih hts.tail.tail
    exact ⟨.one he ⟨hts.ident hname, rfl⟩ rfl, hrest⟩
  | set _ _ hname _ _ ih ih' =>
    obtain ⟨hobject, hmid⟩ := ih hts
    obtain ⟨he, hrest⟩ := ih' hmid.tail.tail.tail
    exact ⟨.two hobject he (hmid.tail.ident hname) rfl, hrest⟩
  | operation _ ih | called _ ih => exact ih hts
  | binary _ _ ih ih' | call _ _ ih ih' =>
    obtain ⟨he, hmid⟩ := ih hts
    obtain ⟨hfs, hrest⟩ := ih' hmid
    exact ⟨madeOf_applySuffixes he hfs, hrest⟩
  | noOperation | noSuffix => exact ⟨by simp [Tree.MadeOf], hts⟩
  | moreOperations hop _ _ ih ih' =>
    obtain ⟨hright, hmid⟩ := ih hts.tail
    obtain ⟨hfs, hrest⟩ := ih' hmid
    exact ⟨List.forall_mem_cons.2 ⟨fun e he => hop.madeOf he hright _, hfs⟩, hrest⟩
  | unary _ _ ih =>
    obtain ⟨he, hrest⟩ := ih hts.tail
    exact ⟨.one he trivial rfl, hrest⟩
  | callWithout _ _ _ ih =>
    obtain ⟨hfs, hrest⟩ := ih hts.tail.tail
    refine ⟨List.forall_mem_cons.2 ⟨?_, hfs⟩, hrest⟩
    intro e he
    exact .two he TreeOf.noArgument trivial rfl
  | callWith _ _ _ _ _ ih ih' =>
    obtain ⟨hes, hmid⟩ := ih hts.tail
    obtain ⟨hfs, hrest⟩ := ih' hmid.tail
    exact ⟨List.forall_mem_cons.2 ⟨fun e he => .two he hes trivial rfl, hfs⟩, hrest⟩
  | get _ hname _ ih =>
    obtain ⟨hfs, hrest⟩ := ih hts.tail.tail
    exact ⟨List.forall_mem_cons.2 ⟨fun e he => .one he (hts.tail.ident hname) rfl, hfs⟩, hrest⟩
  | lastArgument _ ih =>
    obtain ⟨he, hrest⟩ := ih hts
    exact ⟨.two he TreeOf.noArgument trivial rfl, hrest⟩
  | moreArguments _ _ _ ih ih' =>
    obtain ⟨he, hmid⟩ := ih hts
    obtain ⟨hes, hrest⟩ := ih' hmid.tail
    exact ⟨.two he hes trivial rfl, hrest⟩
  | literal hliteral => exact ⟨.leaf (Or.inr ⟨_, hts.head, hliteral⟩) rfl, hts.tail⟩
  | this _ => exact ⟨.leaf rfl rfl, hts.tail⟩
  | name hname => exact ⟨.leaf ⟨hts.ident hname, rfl⟩ rfl, hts.tail⟩
  | super _ _ hname => exact ⟨.leaf ⟨hts.tail.tail.ident hname, rfl⟩ rfl, hts.tail.tail.tail⟩
  | group _ _ _ ih =>
    obtain ⟨he, hrest⟩ := ih hts.tail
    exact ⟨.one he trivial rfl, hrest.tail⟩
  | lambda _ _ ih =>
    obtain ⟨hcode, hrest⟩ := ih hts.tail
    exact ⟨.one (TreeOf.unnamed _ hcode) rfl rfl, hrest⟩

end Grammar

/-! ## Trees of a text -/

theorem madeOf_of_parsed_program {source : String} {p : Program} (hQ : ∀ t ∈ tokens source, Q t)
    (h : Grammar.parseProgram (tokens source) = .ok p) : TreeOf Q (.top p) :=
  ((Grammar.derives_of_parsed_program h).madeOf hQ).1.2

theorem madeOf_of_parsed_expression {source : String} {e : Expr} (hQ : ∀ t ∈ tokens source, Q t)
    (h : Grammar.parseExpression (tokens source) = .ok e) : TreeOf Q (.expr e) := by
  obtain ⟨eof, hderives⟩ := Grammar.derives_of_parsed_expression h
  exact (hderives.madeOf hQ).1

end Lox
