import Lox.Proofs.Grammar.Derivation

/-!
# Which tokens can start and follow a derivation

A choice between rules is made by the next token or two. What derives from a nonterminal starts
with one of few kinds of tokens, and it is read to its end when the token after it could not have
been taken into it. Both are stated by the kind of that token.
-/

set_option autoImplicit false

namespace Lox.Grammar

/-- The kind of the next token. -/
def nextKind (ts : List Token) : Kind :=
  (ts.headD endToken).kind

@[simp] theorem nextKind_cons (t : Token) (ts : List Token) : nextKind (t :: ts) = t.kind := rfl

section First
variable {nearest : Bool} {ts rest : List Token} {tree : Tree}

/-! ## First tokens -/

def opensPrimary : Kind → Bool
  | .number _ | .string _ | .identifier | .symbol .leftParen => true
  | .keyword k => k ∈ [Keyword.trueKw, .falseKw, .nilKw, .thisKw, .superKw, .funKw]
  | _ => false

def opensExpression (k : Kind) : Bool :=
  opensPrimary k || k = .symbol .bang || k = .symbol .minus

theorem LiteralToken.opens {k : Kind} {value : Literal} (h : LiteralToken k value) :
    opensPrimary k = Bool.true ∧ k ≠ .keyword .funKw := by
  cases h <;> simp [opensPrimary]

theorem UnaryOperator.opens {k : Kind} {op : UnaryOp} (h : UnaryOperator k op) :
    opensExpression k = true ∧ k ≠ .keyword .funKw := by
  cases h <;> simp [opensExpression]

/-- The tokens start with a kind of which `opens` holds, and `fun` does not name a function. -/
structure Opens (opens : Kind → Bool) (ts : List Token) : Prop where
  first : opens (nextKind ts) = true
  second : nextKind ts = .keyword .funKw → nextKind ts.tail = .symbol .leftParen

theorem Opens.ne {opens : Kind → Bool} (h : Opens opens ts) {k : Kind} (hk : opens k = false) :
    nextKind ts ≠ k := by
  rintro rfl
  simp [h.first] at hk

theorem Opens.expression (h : Opens opensPrimary ts) : Opens opensExpression ts :=
  ⟨by simp [opensExpression, h.first], h.second⟩

theorem Derives.opens_primary (h : Derives nearest .primary ts tree rest) :
    Opens opensPrimary ts := by
  cases h with
  | literal ht => exact ⟨ht.opens.1, fun hfun => absurd hfun ht.opens.2⟩
  | this ht => exact ⟨by simp [ht, opensPrimary], by simp [ht]⟩
  | name ht => exact ⟨by simp [ht, opensPrimary], by simp [ht]⟩
  | group hopening => exact ⟨by simp [hopening, opensPrimary], by simp [hopening]⟩
  | super ht => exact ⟨by simp [ht, opensPrimary], by simp [ht]⟩
  | lambda hkw hcode =>
    refine ⟨by simp [hkw, opensPrimary], fun _ => ?_⟩
    cases hcode with
    | codeWithout hopening => exact hopening
    | codeWith hopening => exact hopening

theorem Derives.opens_call (h : Derives nearest .call ts tree rest) : Opens opensPrimary ts := by
  cases h with
  | call hprimary => exact hprimary.opens_primary

def Nonterminal.isExpression : Nonterminal → Bool
  | .expression | .binary _ | .unary | .arguments _ => true
  | _ => false

@[simp] theorem Precedence.isExpression_operand (p : Precedence) : p.operand.isExpression = true := by
  cases p <;> rfl

theorem Derives.opens {N : Nonterminal} (h : Derives nearest N ts tree rest)
    (hN : N.isExpression = true) : Opens opensExpression ts := by
  induction h with
  | assign hname => exact ⟨by simp [hname, opensExpression, opensPrimary], by simp [hname]⟩
  | set hcall => exact hcall.opens_call.expression
  | operation _ ih | lastArgument _ ih | moreArguments _ _ _ ih => exact ih rfl
  | binary _ _ ih => exact ih (Precedence.isExpression_operand _)
  | unary hop => exact ⟨hop.opens.1, fun hfun => absurd hfun hop.opens.2⟩
  | called hcall => exact hcall.opens_call.expression
  | _ => cases hN

theorem Derives.parameters_first (h : Derives nearest .parameters ts tree rest) :
    nextKind ts = .identifier := by
  cases h with
  | lastParameter hname => exact hname
  | moreParameters hname => exact hname

theorem Derives.varDecl_first (h : Derives nearest .varDecl ts tree rest) :
    nextKind ts = .keyword .varKw := by
  cases h with
  | var hkw => exact hkw
  | varWith hkw => exact hkw

theorem Derives.exprStmt_first (h : Derives nearest .exprStmt ts tree rest) :
    Opens opensExpression ts := by
  cases h with
  | exprStmt h => exact h.opens rfl

/-- A statement does not start as another declaration does. -/
theorem Derives.statement_first (h : Derives nearest .statement ts tree rest) :
    nextKind ts ≠ .keyword .classKw ∧ nextKind ts ≠ .keyword .varKw ∧
      (nextKind ts = .keyword .funKw → nextKind ts.tail = .symbol .leftParen) := by
  cases h with
  | expressed h => exact ⟨h.exprStmt_first.ne rfl, h.exprStmt_first.ne rfl, h.exprStmt_first.second⟩
  | forStmt hkw | ifThen hkw | ifElse hkw | printStmt hkw | returnStmt hkw | breakStmt hkw
  | whileStmt hkw => simp [hkw]
  | blockStmt h =>
    cases h with
    | block hbrace => simp [hbrace]

/-- A declaration does not start with a token that ends a list of declarations, nor with `else`. -/
theorem Derives.declaration_first (h : Derives nearest .declaration ts tree rest) :
    nextKind ts ≠ .symbol .rightBrace ∧ nextKind ts ≠ .eof ∧ nextKind ts ≠ .keyword .elseKw := by
  cases h with
  | classDecl hkw | subclassDecl hkw | funDecl hkw => simp [hkw]
  | declaredVar h => simp [h.varDecl_first]
  | statement h =>
    cases h with
    | expressed h => exact ⟨h.exprStmt_first.ne rfl, h.exprStmt_first.ne rfl, h.exprStmt_first.ne rfl⟩
    | forStmt hkw | ifThen hkw | ifElse hkw | printStmt hkw | returnStmt hkw | breakStmt hkw
    | whileStmt hkw => simp [hkw]
    | blockStmt h =>
      cases h with
      | block hbrace => simp [hbrace]

theorem Derives.declarations_first (h : Derives nearest .declarations ts tree rest)
    (hrest : nextKind rest ≠ .keyword .elseKw) : nextKind ts ≠ .keyword .elseKw := by
  cases h with
  | noDeclaration => exact hrest
  | moreDeclarations hfirst => exact hfirst.declaration_first.2.2

end First

/-! ## Tokens that continue an expression -/

/-- How tightly a token binds to an expression before it: 0 if it cannot continue one. -/
def rank : Kind → Nat
  | .symbol .leftParen | .symbol .dot => 8
  | .symbol .star | .symbol .slash => 7
  | .symbol .minus | .symbol .plus => 6
  | .symbol .greater | .symbol .greaterEqual | .symbol .less | .symbol .lessEqual => 5
  | .symbol .bangEqual | .symbol .equalEqual => 4
  | .keyword .andKw => 3
  | .keyword .orKw => 2
  | .symbol .equal => 1
  | _ => 0

def Precedence.rank : Precedence → Nat
  | .or => 2
  | .and => 3
  | .equality => 4
  | .comparison => 5
  | .term => 6
  | .factor => 7

theorem Operator.rank_eq {p : Precedence} {k : Kind} {node : Expr → Expr → Nat → Expr}
    (h : Operator p k node) : Grammar.rank k = p.rank := by
  cases h <;> rfl

theorem Precedence.level_eq_none {p : Precedence} {k : Kind} (h : Grammar.rank k < p.rank) :
    p.level k = none := by
  cases hlevel : p.level k with
  | none => rfl
  | some node =>
    have hrank := (level_eq_some.1 hlevel).rank_eq
    omega

section Follow
variable {nearest : Bool} {ts rest : List Token} {tree : Tree}

theorem rank_operations {p : Precedence} (h : Derives nearest (.operations p) ts tree rest)
    (hrest : rank (nextKind rest) < p.rank) : rank (nextKind ts) ≤ p.rank := by
  cases h with
  | noOperation => omega
  | moreOperations hop => exact Nat.le_of_eq hop.rank_eq

end Follow

end Lox.Grammar
