import Lox.Grammar.Parse

/-!
# The grammar as a relation

`Derives nearest N tokens tree rest` says that the front of `tokens` derives from the nonterminal
`N`, that `tree` is the tree of the derivation, and that `rest` is what follows it. One rule stands
for each alternative of the grammar:

    program        → declaration* EOF
    declaration    → classDecl | funDecl | varDecl | statement
    classDecl      → "class" IDENT ( "<" IDENT )? "{" function* "}"
    funDecl        → "fun" function
    function       → IDENT "(" parameters? ")" block
    varDecl        → "var" IDENT ( "=" expression )? ";"
    statement      → exprStmt | forStmt | ifStmt | printStmt | returnStmt
                   | breakStmt | whileStmt | block
    forStmt        → "for" "(" ( varDecl | exprStmt | ";" )
                     expression? ";" expression? ")" statement
    ifStmt         → "if" "(" expression ")" statement ( "else" statement )?
    whileStmt      → "while" "(" expression ")" statement
    returnStmt     → "return" expression? ";"
    breakStmt      → "break" ";"
    block          → "{" declaration* "}"
    expression     → ( call "." )? IDENT "=" expression | logic_or
    logic_or       → logic_and ( "or" logic_and )*
    logic_and      → equality ( "and" equality )*
    equality       → comparison ( ( "!=" | "==" ) comparison )*
    comparison     → term ( ( ">" | ">=" | "<" | "<=" ) term )*
    term           → factor ( ( "-" | "+" ) factor )*
    factor         → unary ( ( "/" | "*" ) unary )*
    unary          → ( "!" | "-" ) unary | call
    call           → primary ( "(" arguments? ")" | "." IDENT )*
    primary        → NUMBER | STRING | "true" | "false" | "nil" | "this" | IDENT
                   | "(" expression ")" | "super" "." IDENT | "fun" "(" parameters? ")" block

A list of parameters or arguments has at most `arityLimit` entries. The rules leave open which of
several open `if`s an `else` belongs to. With `nearest` set, it belongs to the innermost one.
-/

set_option autoImplicit false

namespace Lox.Grammar

/-- The levels of binary operators, from the loosest to the tightest. -/
inductive Precedence where
  | or
  | and
  | equality
  | comparison
  | term
  | factor
  deriving DecidableEq

inductive Nonterminal where
  | program
  | declarations
  | declaration
  | methods
  /-- Parameters in parentheses and a block. -/
  | code
  | parameters
  | varDecl
  | statement
  | exprStmt
  /-- What stands before the first semicolon of a `for`, and that semicolon. -/
  | forInit
  | block
  | expression
  /-- `expression?` -/
  | optional
  | binary (p : Precedence)
  /-- The operators of a level and their right operands. -/
  | operations (p : Precedence)
  | unary
  | call
  /-- Argument lists and property names after a primary expression. -/
  | suffixes
  | arguments (count : Nat)
  | primary
  deriving DecidableEq

def Precedence.operand : Precedence → Nonterminal
  | .or => .binary .and
  | .and => .binary .equality
  | .equality => .binary .comparison
  | .comparison => .binary .term
  | .term => .binary .factor
  | .factor => .unary

/-- The binary operators of each level, with the node that each builds. -/
inductive Operator : Precedence → Kind → (Expr → Expr → Nat → Expr) → Prop where
  | or : Operator .or (.keyword .orKw) (.logical .or)
  | and : Operator .and (.keyword .andKw) (.logical .and)
  | notEqual : Operator .equality (.symbol .bangEqual) (.binary .notEqual)
  | equal : Operator .equality (.symbol .equalEqual) (.binary .equal)
  | greater : Operator .comparison (.symbol .greater) (.binary .greater)
  | greaterEqual : Operator .comparison (.symbol .greaterEqual) (.binary .greaterEqual)
  | less : Operator .comparison (.symbol .less) (.binary .less)
  | lessEqual : Operator .comparison (.symbol .lessEqual) (.binary .lessEqual)
  | subtract : Operator .term (.symbol .minus) (.binary .subtract)
  | add : Operator .term (.symbol .plus) (.binary .add)
  | divide : Operator .factor (.symbol .slash) (.binary .divide)
  | multiply : Operator .factor (.symbol .star) (.binary .multiply)

inductive UnaryOperator : Kind → UnaryOp → Prop where
  | not : UnaryOperator (.symbol .bang) .not
  | negate : UnaryOperator (.symbol .minus) .negate

/-- The tokens that are literals. -/
inductive LiteralToken : Kind → Literal → Prop where
  | number (x : Float) : LiteralToken (.number x) (.number x)
  | string (s : String) : LiteralToken (.string s) (.string s)
  | true : LiteralToken (.keyword .trueKw) (.bool true)
  | false : LiteralToken (.keyword .falseKw) (.bool false)
  | nil : LiteralToken (.keyword .nilKw) .nil

/-- What a derivation stands for. -/
inductive Tree where
  | expr (e : Expr)
  | exprs (es : List Expr)
  | optional (e : Option Expr)
  /-- What is built around the expression to the left, the innermost first. -/
  | suffixes (fs : List (Expr → Expr))
  /-- A statement, and whether its last part is an `if` without `else`. -/
  | stmt (s : Stmt) (isOpen : Bool)
  | stmts (ss : List Stmt)
  | init (s : Option Stmt)
  | code (params : List Ident) (body : List Stmt)
  | params (names : List Ident)
  | methods (ds : List FunDecl)

def ident (t : Token) : Ident := ⟨t.lexeme, t.line⟩

/-- An expression with everything that follows it built around it, from left to right. -/
def applySuffixes (e : Expr) (fs : List (Expr → Expr)) : Expr :=
  fs.foldl (fun e f => f e) e

/-- The body of the loop that a `for` stands for: the increment follows in a block. -/
def withIncrement (body : Stmt) : Option Expr → Stmt
  | none => body
  | some increment => .block [body, .expression increment]

/-- The initializer stands before the loop in a block. -/
def withInit (loop : Stmt) : Option Stmt → Stmt
  | none => loop
  | some init => .block [init, loop]

/-- The loop that a `for` on the given line stands for. -/
def forTree (line : Nat) (init : Option Stmt) (condition increment : Option Expr) (body : Stmt) :
    Stmt :=
  withInit (.loop (condition.getD (.literal (.bool true) line)) (withIncrement body increment)) init

theorem forLoop_eq_forTree (line : Nat) (init : Option Stmt) (condition increment : Option Expr)
    (body : Stmt) :
    forLoop line init condition increment body = forTree line init condition increment body := by
  cases init <;> cases increment <;> rfl

inductive Derives (nearest : Bool) : Nonterminal → List Token → Tree → List Token → Prop where
  | program {ts : List Token} {ss : List Stmt} {eof : Token} :
      Derives nearest .declarations ts (.stmts ss) [eof] → eof.kind = .eof →
      Derives nearest .program ts (.stmts ss) []
  -- Declarations
  | noDeclaration {ts : List Token} : Derives nearest .declarations ts (.stmts []) ts
  | moreDeclarations {ts mid rest : List Token} {s : Stmt} {isOpen : Bool} {ss : List Stmt} :
      Derives nearest .declaration ts (.stmt s isOpen) mid →
      Derives nearest .declarations mid (.stmts ss) rest →
      Derives nearest .declarations ts (.stmts (s :: ss)) rest
  | classDecl {kw name brace close : Token} {ts rest : List Token} {ds : List FunDecl} :
      kw.kind = .keyword .classKw → name.kind = .identifier →
      brace.kind = .symbol .leftBrace →
      Derives nearest .methods ts (.methods ds) (close :: rest) →
      close.kind = .symbol .rightBrace →
      Derives nearest .declaration (kw :: name :: brace :: ts)
        (.stmt (.classDecl (ident name) none ds) false) rest
  | subclassDecl {kw name less parent brace close : Token} {ts rest : List Token}
      {ds : List FunDecl} :
      kw.kind = .keyword .classKw → name.kind = .identifier → less.kind = .symbol .less →
      parent.kind = .identifier → brace.kind = .symbol .leftBrace →
      Derives nearest .methods ts (.methods ds) (close :: rest) →
      close.kind = .symbol .rightBrace →
      Derives nearest .declaration (kw :: name :: less :: parent :: brace :: ts)
        (.stmt (.classDecl (ident name) (some (ident parent, none)) ds) false) rest
  | noMethod {ts : List Token} : Derives nearest .methods ts (.methods []) ts
  | moreMethods {name : Token} {ts mid rest : List Token} {ps : List Ident} {body : List Stmt}
      {ds : List FunDecl} :
      name.kind = .identifier → Derives nearest .code ts (.code ps body) mid →
      Derives nearest .methods mid (.methods ds) rest →
      Derives nearest .methods (name :: ts)
        (.methods (⟨some (ident name), ps, body, name.line⟩ :: ds)) rest
  | funDecl {kw name : Token} {ts rest : List Token} {ps : List Ident} {body : List Stmt} :
      kw.kind = .keyword .funKw → name.kind = .identifier →
      Derives nearest .code ts (.code ps body) rest →
      Derives nearest .declaration (kw :: name :: ts)
        (.stmt (.function ⟨some (ident name), ps, body, name.line⟩) false) rest
  | codeWithout {opening close : Token} {ts rest : List Token} {body : List Stmt} :
      opening.kind = .symbol .leftParen → close.kind = .symbol .rightParen →
      Derives nearest .block ts (.stmts body) rest →
      Derives nearest .code (opening :: close :: ts) (.code [] body) rest
  | codeWith {opening close : Token} {ts mid rest : List Token} {ps : List Ident}
      {body : List Stmt} :
      opening.kind = .symbol .leftParen →
      Derives nearest .parameters ts (.params ps) (close :: mid) → ps.length ≤ arityLimit →
      close.kind = .symbol .rightParen → Derives nearest .block mid (.stmts body) rest →
      Derives nearest .code (opening :: ts) (.code ps body) rest
  | lastParameter {name : Token} {rest : List Token} :
      name.kind = .identifier → Derives nearest .parameters (name :: rest) (.params [ident name]) rest
  | moreParameters {name comma : Token} {ts rest : List Token} {ps : List Ident} :
      name.kind = .identifier → comma.kind = .symbol .comma →
      Derives nearest .parameters ts (.params ps) rest →
      Derives nearest .parameters (name :: comma :: ts) (.params (ident name :: ps)) rest
  | declaredVar {ts rest : List Token} {s : Stmt} {isOpen : Bool} :
      Derives nearest .varDecl ts (.stmt s isOpen) rest →
      Derives nearest .declaration ts (.stmt s isOpen) rest
  | var {kw name semicolon : Token} {rest : List Token} :
      kw.kind = .keyword .varKw → name.kind = .identifier → semicolon.kind = .symbol .semicolon →
      Derives nearest .varDecl (kw :: name :: semicolon :: rest)
        (.stmt (.var (ident name) none) false) rest
  | varWith {kw name equal semicolon : Token} {ts rest : List Token} {e : Expr} :
      kw.kind = .keyword .varKw → name.kind = .identifier → equal.kind = .symbol .equal →
      Derives nearest .expression ts (.expr e) (semicolon :: rest) →
      semicolon.kind = .symbol .semicolon →
      Derives nearest .varDecl (kw :: name :: equal :: ts)
        (.stmt (.var (ident name) (some e)) false) rest
  | statement {ts rest : List Token} {s : Stmt} {isOpen : Bool} :
      Derives nearest .statement ts (.stmt s isOpen) rest →
      Derives nearest .declaration ts (.stmt s isOpen) rest
  -- Statements
  | exprStmt {ts rest : List Token} {e : Expr} {semicolon : Token} :
      Derives nearest .expression ts (.expr e) (semicolon :: rest) →
      semicolon.kind = .symbol .semicolon →
      Derives nearest .exprStmt ts (.stmt (.expression e) false) rest
  | expressed {ts rest : List Token} {s : Stmt} {isOpen : Bool} :
      Derives nearest .exprStmt ts (.stmt s isOpen) rest →
      Derives nearest .statement ts (.stmt s isOpen) rest
  | forStmt {kw opening semicolon close : Token} {ts ts₁ ts₂ ts₃ rest : List Token}
      {init : Option Stmt} {condition increment : Option Expr} {body : Stmt} {isOpen : Bool} :
      kw.kind = .keyword .forKw → opening.kind = .symbol .leftParen →
      Derives nearest .forInit ts (.init init) ts₁ →
      Derives nearest .optional ts₁ (.optional condition) (semicolon :: ts₂) →
      semicolon.kind = .symbol .semicolon →
      Derives nearest .optional ts₂ (.optional increment) (close :: ts₃) →
      close.kind = .symbol .rightParen →
      Derives nearest .statement ts₃ (.stmt body isOpen) rest →
      Derives nearest .statement (kw :: opening :: ts)
        (.stmt (forTree kw.line init condition increment body) isOpen) rest
  | noInit {semicolon : Token} {rest : List Token} :
      semicolon.kind = .symbol .semicolon →
      Derives nearest .forInit (semicolon :: rest) (.init none) rest
  | varInit {ts rest : List Token} {s : Stmt} {isOpen : Bool} :
      Derives nearest .varDecl ts (.stmt s isOpen) rest →
      Derives nearest .forInit ts (.init (some s)) rest
  | exprInit {ts rest : List Token} {s : Stmt} {isOpen : Bool} :
      Derives nearest .exprStmt ts (.stmt s isOpen) rest →
      Derives nearest .forInit ts (.init (some s)) rest
  | ifThen {kw opening close : Token} {ts mid rest : List Token} {e : Expr} {s : Stmt}
      {isOpen : Bool} :
      kw.kind = .keyword .ifKw → opening.kind = .symbol .leftParen →
      Derives nearest .expression ts (.expr e) (close :: mid) →
      close.kind = .symbol .rightParen → Derives nearest .statement mid (.stmt s isOpen) rest →
      Derives nearest .statement (kw :: opening :: ts) (.stmt (.cond e s none) true) rest
  | ifElse {kw opening close elseKw : Token} {ts mid mid' rest : List Token} {e : Expr}
      {s s' : Stmt} {thenOpen isOpen : Bool} :
      kw.kind = .keyword .ifKw → opening.kind = .symbol .leftParen →
      Derives nearest .expression ts (.expr e) (close :: mid) →
      close.kind = .symbol .rightParen →
      Derives nearest .statement mid (.stmt s thenOpen) (elseKw :: mid') →
      elseKw.kind = .keyword .elseKw → (nearest = true → thenOpen = false) →
      Derives nearest .statement mid' (.stmt s' isOpen) rest →
      Derives nearest .statement (kw :: opening :: ts) (.stmt (.cond e s (some s')) isOpen) rest
  | printStmt {kw semicolon : Token} {ts rest : List Token} {e : Expr} :
      kw.kind = .keyword .printKw →
      Derives nearest .expression ts (.expr e) (semicolon :: rest) →
      semicolon.kind = .symbol .semicolon →
      Derives nearest .statement (kw :: ts) (.stmt (.print e) false) rest
  | returnStmt {kw semicolon : Token} {ts rest : List Token} {e : Option Expr} :
      kw.kind = .keyword .returnKw →
      Derives nearest .optional ts (.optional e) (semicolon :: rest) →
      semicolon.kind = .symbol .semicolon →
      Derives nearest .statement (kw :: ts) (.stmt (.ret kw.line e) false) rest
  | breakStmt {kw semicolon : Token} {rest : List Token} :
      kw.kind = .keyword .breakKw → semicolon.kind = .symbol .semicolon →
      Derives nearest .statement (kw :: semicolon :: rest) (.stmt (.brk kw.line) false) rest
  | whileStmt {kw opening close : Token} {ts mid rest : List Token} {e : Expr} {s : Stmt}
      {isOpen : Bool} :
      kw.kind = .keyword .whileKw → opening.kind = .symbol .leftParen →
      Derives nearest .expression ts (.expr e) (close :: mid) →
      close.kind = .symbol .rightParen → Derives nearest .statement mid (.stmt s isOpen) rest →
      Derives nearest .statement (kw :: opening :: ts) (.stmt (.loop e s) isOpen) rest
  | blockStmt {ts rest : List Token} {ss : List Stmt} :
      Derives nearest .block ts (.stmts ss) rest →
      Derives nearest .statement ts (.stmt (.block ss) false) rest
  | block {brace close : Token} {ts rest : List Token} {ss : List Stmt} :
      brace.kind = .symbol .leftBrace →
      Derives nearest .declarations ts (.stmts ss) (close :: rest) →
      close.kind = .symbol .rightBrace →
      Derives nearest .block (brace :: ts) (.stmts ss) rest
  -- Expressions
  | absent {ts : List Token} : Derives nearest .optional ts (.optional none) ts
  | present {ts rest : List Token} {e : Expr} :
      Derives nearest .expression ts (.expr e) rest →
      Derives nearest .optional ts (.optional (some e)) rest
  | assign {name equal : Token} {ts rest : List Token} {e : Expr} :
      name.kind = .identifier → equal.kind = .symbol .equal →
      Derives nearest .expression ts (.expr e) rest →
      Derives nearest .expression (name :: equal :: ts) (.expr (.assign (ident name) e none)) rest
  | set {dot name equal : Token} {ts mid rest : List Token} {object e : Expr} :
      Derives nearest .call ts (.expr object) (dot :: name :: equal :: mid) →
      dot.kind = .symbol .dot → name.kind = .identifier → equal.kind = .symbol .equal →
      Derives nearest .expression mid (.expr e) rest →
      Derives nearest .expression ts (.expr (.set object (ident name) e)) rest
  | operation {ts rest : List Token} {e : Expr} :
      Derives nearest (.binary .or) ts (.expr e) rest →
      Derives nearest .expression ts (.expr e) rest
  | binary {p : Precedence} {ts mid rest : List Token} {e : Expr} {fs : List (Expr → Expr)} :
      Derives nearest p.operand ts (.expr e) mid →
      Derives nearest (.operations p) mid (.suffixes fs) rest →
      Derives nearest (.binary p) ts (.expr (applySuffixes e fs)) rest
  | noOperation {p : Precedence} {ts : List Token} :
      Derives nearest (.operations p) ts (.suffixes []) ts
  | moreOperations {p : Precedence} {op : Token} {node : Expr → Expr → Nat → Expr}
      {ts mid rest : List Token} {right : Expr} {fs : List (Expr → Expr)} :
      Operator p op.kind node → Derives nearest p.operand ts (.expr right) mid →
      Derives nearest (.operations p) mid (.suffixes fs) rest →
      Derives nearest (.operations p) (op :: ts)
        (.suffixes ((fun left => node left right op.line) :: fs)) rest
  | unary {op : Token} {node : UnaryOp} {ts rest : List Token} {e : Expr} :
      UnaryOperator op.kind node → Derives nearest .unary ts (.expr e) rest →
      Derives nearest .unary (op :: ts) (.expr (.unary node e op.line)) rest
  | called {ts rest : List Token} {e : Expr} :
      Derives nearest .call ts (.expr e) rest → Derives nearest .unary ts (.expr e) rest
  | call {ts mid rest : List Token} {e : Expr} {fs : List (Expr → Expr)} :
      Derives nearest .primary ts (.expr e) mid →
      Derives nearest .suffixes mid (.suffixes fs) rest →
      Derives nearest .call ts (.expr (applySuffixes e fs)) rest
  | noSuffix {ts : List Token} : Derives nearest .suffixes ts (.suffixes []) ts
  | callWithout {opening close : Token} {ts rest : List Token} {fs : List (Expr → Expr)} :
      opening.kind = .symbol .leftParen → close.kind = .symbol .rightParen →
      Derives nearest .suffixes ts (.suffixes fs) rest →
      Derives nearest .suffixes (opening :: close :: ts)
        (.suffixes ((fun callee => .call callee [] close.line) :: fs)) rest
  | callWith {opening close : Token} {ts mid rest : List Token} {count : Nat} {es : List Expr}
      {fs : List (Expr → Expr)} :
      opening.kind = .symbol .leftParen →
      Derives nearest (.arguments count) ts (.exprs es) (close :: mid) → count ≤ arityLimit →
      close.kind = .symbol .rightParen →
      Derives nearest .suffixes mid (.suffixes fs) rest →
      Derives nearest .suffixes (opening :: ts)
        (.suffixes ((fun callee => .call callee es close.line) :: fs)) rest
  | get {dot name : Token} {ts rest : List Token} {fs : List (Expr → Expr)} :
      dot.kind = .symbol .dot → name.kind = .identifier →
      Derives nearest .suffixes ts (.suffixes fs) rest →
      Derives nearest .suffixes (dot :: name :: ts)
        (.suffixes ((fun object => .get object (ident name)) :: fs)) rest
  | lastArgument {ts rest : List Token} {e : Expr} :
      Derives nearest .expression ts (.expr e) rest →
      Derives nearest (.arguments 1) ts (.exprs [e]) rest
  | moreArguments {comma : Token} {ts mid rest : List Token} {e : Expr} {count : Nat}
      {es : List Expr} :
      Derives nearest .expression ts (.expr e) (comma :: mid) → comma.kind = .symbol .comma →
      Derives nearest (.arguments count) mid (.exprs es) rest →
      Derives nearest (.arguments (count + 1)) ts (.exprs (e :: es)) rest
  | literal {t : Token} {value : Literal} {rest : List Token} :
      LiteralToken t.kind value →
      Derives nearest .primary (t :: rest) (.expr (.literal value t.line)) rest
  | this {t : Token} {rest : List Token} :
      t.kind = .keyword .thisKw → Derives nearest .primary (t :: rest) (.expr (.this t.line none)) rest
  | name {t : Token} {rest : List Token} :
      t.kind = .identifier →
      Derives nearest .primary (t :: rest) (.expr (.variable (ident t) none)) rest
  | group {opening close : Token} {ts rest : List Token} {e : Expr} :
      opening.kind = .symbol .leftParen →
      Derives nearest .expression ts (.expr e) (close :: rest) →
      close.kind = .symbol .rightParen →
      Derives nearest .primary (opening :: ts) (.expr (.group e)) rest
  | super {t dot method : Token} {rest : List Token} :
      t.kind = .keyword .superKw → dot.kind = .symbol .dot → method.kind = .identifier →
      Derives nearest .primary (t :: dot :: method :: rest)
        (.expr (.super t.line (ident method) none)) rest
  | lambda {kw : Token} {ts rest : List Token} {ps : List Ident} {body : List Stmt} :
      kw.kind = .keyword .funKw → Derives nearest .code ts (.code ps body) rest →
      Derives nearest .primary (kw :: ts) (.expr (.lambda ⟨none, ps, body, kw.line⟩)) rest

/-! ## Operators -/

/-- The operators of a level as they are looked up. -/
def Precedence.level : Precedence → Level
  | .or => orLevel
  | .and => andLevel
  | .equality => equalityLevel
  | .comparison => comparisonLevel
  | .term => termLevel
  | .factor => factorLevel

theorem Precedence.level_eq_some {p : Precedence} {k : Kind} {node : Expr → Expr → Nat → Expr} :
    p.level k = some node ↔ Operator p k node := by
  constructor
  · intro h
    cases p <;>
      simp only [level, orLevel, andLevel, equalityLevel, comparisonLevel, termLevel, factorLevel]
        at h <;>
      split at h <;> cases h <;> constructor
  · rintro (_ | _ | _ | _ | _ | _ | _ | _ | _ | _ | _ | _) <;> rfl

theorem Operator.ne_eof {p : Precedence} {k : Kind} {node : Expr → Expr → Nat → Expr}
    (h : Operator p k node) : k ≠ .eof := by
  cases h <;> simp

theorem UnaryOperator.ne_eof {k : Kind} {op : UnaryOp} (h : UnaryOperator k op) : k ≠ .eof := by
  cases h <;> simp

theorem LiteralToken.ne_eof {k : Kind} {value : Literal} (h : LiteralToken k value) : k ≠ .eof := by
  cases h <;> simp

/-! ## What a derivation passes -/

/-- At least `k` tokens stand before `rest`, and none of them ends the input. -/
def Passes (k : Nat) (ts rest : List Token) : Prop :=
  ∃ passed, ts = passed ++ rest ∧ k ≤ passed.length ∧ ∀ t ∈ passed, t.kind ≠ .eof

namespace Passes

theorem refl (ts : List Token) : Passes 0 ts ts :=
  ⟨[], rfl, Nat.le_refl 0, by simp⟩

theorem cons {t : Token} {k : Nat} {ts rest : List Token} (ht : t.kind ≠ .eof)
    (h : Passes k ts rest) : Passes 1 (t :: ts) rest := by
  obtain ⟨passed, rfl, -, hpassed⟩ := h
  exact ⟨t :: passed, rfl, by simp, by simpa [ht] using hpassed⟩

theorem tail {t : Token} {k : Nat} {ts rest : List Token} (ht : t.kind ≠ .eof)
    (h : Passes k ts (t :: rest)) : Passes 1 ts rest := by
  obtain ⟨passed, rfl, -, hpassed⟩ := h
  refine ⟨passed ++ [t], by simp, by simp, ?_⟩
  simp only [List.mem_append, List.mem_singleton]
  rintro t' (ht' | rfl)
  · exact hpassed t' ht'
  · exact ht

theorem trans {k l : Nat} {ts mid rest : List Token} (h : Passes k ts mid) (h' : Passes l mid rest) :
    Passes k ts rest := by
  obtain ⟨passed, rfl, hk, hpassed⟩ := h
  obtain ⟨passed', rfl, -, hpassed'⟩ := h'
  refine ⟨passed ++ passed', by simp, by simp only [List.length_append]; omega, ?_⟩
  intro t ht
  exact (List.mem_append.1 ht).elim (hpassed t) (hpassed' t)

theorem weaken {k l : Nat} {ts rest : List Token} (h : Passes k ts rest) (hle : l ≤ k) :
    Passes l ts rest := by
  obtain ⟨passed, rfl, hk, hpassed⟩ := h
  exact ⟨passed, rfl, Nat.le_trans hle hk, hpassed⟩

theorem length_le {k : Nat} {ts rest : List Token} (h : Passes k ts rest) :
    rest.length + k ≤ ts.length := by
  obtain ⟨passed, rfl, hk, -⟩ := h
  simp only [List.length_append]
  omega

end Passes

/-- How many tokens a derivation from a nonterminal passes at least. -/
def Nonterminal.least : Nonterminal → Nat
  | .declarations | .methods | .optional | .operations _ | .suffixes => 0
  | _ => 1

@[simp] theorem Precedence.least_operand (p : Precedence) : p.operand.least = 1 := by
  cases p <;> rfl

theorem Precedence.operand_ne_program (p : Precedence) : p.operand ≠ .program := by
  cases p <;> simp [operand]

/-- Only a whole program passes the token that ends the input. -/
theorem Derives.passes {nearest : Bool} {N : Nonterminal} {ts rest : List Token} {t : Tree}
    (h : Derives nearest N ts t rest) (hN : N ≠ .program) : Passes N.least ts rest := by
  induction h with
  | program => exact absurd rfl hN
  | noDeclaration | noMethod | absent | noOperation | noSuffix => exact .refl _
  | declaredVar _ ih | statement _ ih | expressed _ ih | varInit _ ih | exprInit _ ih
  | operation _ ih | called _ ih | lastArgument _ ih | blockStmt _ ih => exact ih (by simp)
  | present _ ih => exact (ih (by simp)).weaken (by decide)
  | moreDeclarations _ _ ih ih' => exact ((ih (by simp)).trans (ih' (by simp))).weaken (by decide)
  | classDecl hkw hname hbrace _ hclose ih =>
    exact .cons (by simp [hkw]) (.cons (by simp [hname]) (.cons (by simp [hbrace])
      ((ih (by simp)).tail (by simp [hclose]))))
  | subclassDecl hkw hname hless hparent hbrace _ hclose ih =>
    exact .cons (by simp [hkw]) (.cons (by simp [hname]) (.cons (by simp [hless])
      (.cons (by simp [hparent]) (.cons (by simp [hbrace])
        ((ih (by simp)).tail (by simp [hclose]))))))
  | moreMethods hname _ _ ih ih' =>
    exact (Passes.cons (by simp [hname]) ((ih (by simp)).trans (ih' (by simp)))).weaken (by decide)
  | funDecl hkw hname _ ih => exact .cons (by simp [hkw]) (.cons (by simp [hname]) (ih (by simp)))
  | codeWithout hopening hclose _ ih =>
    exact .cons (by simp [hopening]) (.cons (by simp [hclose]) (ih (by simp)))
  | codeWith hopening _ _ hclose _ ih ih' =>
    exact .cons (by simp [hopening])
      (((ih (by simp)).tail (by simp [hclose])).trans (ih' (by simp)))
  | lastParameter hname => exact .cons (by simp [hname]) (.refl _)
  | moreParameters hname hcomma _ ih =>
    exact .cons (by simp [hname]) (.cons (by simp [hcomma]) (ih (by simp)))
  | var hkw hname hsemicolon =>
    exact .cons (by simp [hkw]) (.cons (by simp [hname]) (.cons (by simp [hsemicolon]) (.refl _)))
  | varWith hkw hname hequal _ hsemicolon ih =>
    exact .cons (by simp [hkw]) (.cons (by simp [hname]) (.cons (by simp [hequal])
      ((ih (by simp)).tail (by simp [hsemicolon]))))
  | exprStmt _ hsemicolon ih => exact (ih (by simp)).tail (by simp [hsemicolon])
  | forStmt hkw hopening _ _ hsemicolon _ hclose _ ih₁ ih₂ ih₃ ih₄ =>
    exact .cons (by simp [hkw]) (.cons (by simp [hopening]) ((ih₁ (by simp)).trans
      (((ih₂ (by simp)).tail (by simp [hsemicolon])).trans
        (((ih₃ (by simp)).tail (by simp [hclose])).trans (ih₄ (by simp))))))
  | noInit hsemicolon => exact .cons (by simp [hsemicolon]) (.refl _)
  | ifThen hkw hopening _ hclose _ ih ih' | whileStmt hkw hopening _ hclose _ ih ih' =>
    exact .cons (by simp [hkw]) (.cons (by simp [hopening])
      (((ih (by simp)).tail (by simp [hclose])).trans (ih' (by simp))))
  | ifElse hkw hopening _ hclose _ helse _ _ ih ih' ih'' =>
    exact .cons (by simp [hkw]) (.cons (by simp [hopening])
      (((ih (by simp)).tail (by simp [hclose])).trans
        (((ih' (by simp)).tail (by simp [helse])).trans (ih'' (by simp)))))
  | printStmt hkw _ hsemicolon ih | returnStmt hkw _ hsemicolon ih =>
    exact .cons (by simp [hkw]) ((ih (by simp)).tail (by simp [hsemicolon]))
  | breakStmt hkw hsemicolon =>
    exact .cons (by simp [hkw]) (.cons (by simp [hsemicolon]) (.refl _))
  | block hbrace _ hclose ih => exact .cons (by simp [hbrace]) ((ih (by simp)).tail (by simp [hclose]))
  | assign hname hequal _ ih => exact .cons (by simp [hname]) (.cons (by simp [hequal]) (ih (by simp)))
  | set _ hdot hname hequal _ ih ih' =>
    exact ((((ih (by simp)).tail (by simp [hdot])).tail (by simp [hname])).tail
      (by simp [hequal])).trans (ih' (by simp))
  | @binary p _ _ _ _ _ _ _ ih ih' =>
    exact (p.least_operand ▸ ih p.operand_ne_program).trans (ih' (by simp))
  | @moreOperations p _ _ _ _ _ _ _ hop _ _ ih ih' =>
    exact (Passes.cons hop.ne_eof ((ih p.operand_ne_program).trans (ih' (by simp)))).weaken
      (by simp [Nonterminal.least])
  | unary hop _ ih => exact .cons hop.ne_eof (ih (by simp))
  | call _ _ ih ih' => exact (ih (by simp)).trans (ih' (by simp))
  | callWithout hopening hclose _ ih =>
    exact (Passes.cons (by simp [hopening]) (.cons (by simp [hclose]) (ih (by simp)))).weaken
      (by decide)
  | callWith hopening _ _ hclose _ ih ih' =>
    exact (Passes.cons (by simp [hopening])
      (((ih (by simp)).tail (by simp [hclose])).trans (ih' (by simp)))).weaken (by decide)
  | get hdot hname _ ih =>
    exact (Passes.cons (by simp [hdot]) (.cons (by simp [hname]) (ih (by simp)))).weaken (by decide)
  | moreArguments _ hcomma _ ih ih' =>
    exact ((ih (by simp)).tail (by simp [hcomma])).trans (ih' (by simp))
  | literal ht => exact .cons ht.ne_eof (.refl _)
  | this ht => exact .cons (by simp [ht]) (.refl _)
  | name ht => exact .cons (by simp [ht]) (.refl _)
  | group hopening _ hclose ih =>
    exact .cons (by simp [hopening]) ((ih (by simp)).tail (by simp [hclose]))
  | super ht hdot hmethod =>
    exact .cons (by simp [ht]) (.cons (by simp [hdot]) (.cons (by simp [hmethod]) (.refl _)))
  | lambda hkw _ ih => exact .cons (by simp [hkw]) (ih (by simp))

theorem Derives.length_le {nearest : Bool} {N : Nonterminal} {ts rest : List Token} {t : Tree}
    (h : Derives nearest N ts t rest) (hN : N ≠ .program) : rest.length ≤ ts.length := by
  have hle := (h.passes hN).length_le
  omega

theorem Derives.length_lt {nearest : Bool} {N : Nonterminal} {ts rest : List Token} {t : Tree}
    (h : Derives nearest N ts t rest) (hN : N ≠ .program ∧ N.least = 1) :
    rest.length < ts.length := by
  have hle := (h.passes hN.1).length_le
  omega

/-! ## Targets of assignments -/

/-- The expression that a nonempty list of operations builds has an operator at its root. -/
def rootedInOperator : Expr → Bool
  | .binary .. | .logical .. => true
  | _ => false

theorem Operator.rootedInOperator {p : Precedence} {k : Kind} {node : Expr → Expr → Nat → Expr}
    (h : Operator p k node) (left right : Expr) (line : Nat) :
    rootedInOperator (node left right line) = true := by
  cases h <;> rfl

section Targets
variable {nearest : Bool} {ts rest : List Token}

theorem Derives.operations_cases {p : Precedence} {fs : List (Expr → Expr)} {e : Expr}
    (h : Derives nearest (.operations p) ts (.suffixes fs) rest) :
    rootedInOperator (applySuffixes e fs) = true ∨ fs = [] ∧ ts = rest := by
  induction fs generalizing ts e with
  | nil =>
    cases h
    exact .inr ⟨rfl, rfl⟩
  | cons f fs ih =>
    have ih' {ts : List Token} := @ih ts (f e)
    cases h with
    | moreOperations hop _ hfs =>
      rcases ih' hfs with hroot | ⟨rfl, -⟩
      · exact .inl hroot
      · exact .inl (hop.rootedInOperator ..)

theorem Derives.operand_of_binary {p : Precedence} {e : Expr}
    (h : Derives nearest (.binary p) ts (.expr e) rest) (he : rootedInOperator e = false) :
    Derives nearest p.operand ts (.expr e) rest := by
  cases h with
  | @binary _ _ _ _ first fs hfirst hfs =>
    rcases hfs.operations_cases (e := first) with hroot | ⟨rfl, rfl⟩
    · rw [he] at hroot
      exact absurd hroot (by simp)
    · exact hfirst

theorem Derives.call_of_or {e : Expr} (h : Derives nearest (.binary .or) ts (.expr e) rest)
    (he : rootedInOperator e = false) (hunary : ∀ op operand line, e ≠ .unary op operand line) :
    Derives nearest .call ts (.expr e) rest := by
  have hu : Derives nearest .unary ts (.expr e) rest :=
    ((((((h.operand_of_binary he).operand_of_binary he).operand_of_binary he).operand_of_binary
      he).operand_of_binary he).operand_of_binary he)
  cases hu with
  | unary => exact absurd rfl (hunary _ _ _)
  | called hcall => exact hcall

/-- A suffix makes a call or a property access. -/
theorem Derives.suffixes_cases {fs : List (Expr → Expr)} {e : Expr}
    (h : Derives nearest .suffixes ts (.suffixes fs) rest) :
    fs = [] ∧ ts = rest ∨ (∃ callee es line, applySuffixes e fs = .call callee es line) ∨
      ∃ fs' dot name, Derives nearest .suffixes ts (.suffixes fs') (dot :: name :: rest) ∧
        dot.kind = .symbol .dot ∧ name.kind = .identifier ∧
        applySuffixes e fs = .get (applySuffixes e fs') (ident name) := by
  induction fs generalizing ts e with
  | nil =>
    cases h
    exact .inl ⟨rfl, rfl⟩
  | cons f fs ih =>
    refine .inr ?_
    have ih' {ts : List Token} := @ih ts (f e)
    cases h with
    | callWithout hopening hclose hfs =>
      rcases ih' hfs with ⟨rfl, rfl⟩ | hcall | ⟨fs', dot, name, hfs', hdot, hname, heq⟩
      · exact .inl ⟨_, _, _, rfl⟩
      · exact .inl hcall
      · exact .inr ⟨_ :: fs', dot, name, .callWithout hopening hclose hfs', hdot, hname, heq⟩
    | callWith hopening hes hcount hclose hfs =>
      rcases ih' hfs with ⟨rfl, rfl⟩ | hcall | ⟨fs', dot, name, hfs', hdot, hname, heq⟩
      · exact .inl ⟨_, _, _, rfl⟩
      · exact .inl hcall
      · exact .inr ⟨_ :: fs', dot, name, .callWith hopening hes hcount hclose hfs', hdot, hname, heq⟩
    | get hdot hname hfs =>
      rcases ih' hfs with ⟨rfl, rfl⟩ | hcall | ⟨fs', dot, name, hfs', hdot', hname', heq⟩
      · exact .inr ⟨[], _, _, .noSuffix, hdot, hname, rfl⟩
      · exact .inl hcall
      · exact .inr ⟨_ :: fs', dot, name, .get hdot hname hfs', hdot', hname', heq⟩

/-- An expression that is a name is one token. -/
theorem Derives.of_variable {name : Ident} {slot : Slot}
    (h : Derives nearest (.binary .or) ts (.expr (.variable name slot)) rest) :
    ∃ t : Token, ts = t :: rest ∧ t.kind = .identifier ∧ name = ident t := by
  have hcall := h.call_of_or rfl (by simp)
  generalize he : Expr.variable name slot = e at hcall
  cases hcall with
  | @call _ _ _ first fs hfirst hfs =>
    rcases hfs.suffixes_cases (e := first) with ⟨rfl, rfl⟩ | ⟨callee, es, line, heq⟩ |
      ⟨fs', dot, name, -, -, -, heq⟩
    · rw [show applySuffixes first [] = first from rfl] at he
      subst he
      cases hfirst with
      | name ht => exact ⟨_, rfl, ht, rfl⟩
    · exact absurd (he.trans heq) (by simp)
    · exact absurd (he.trans heq) (by simp)

/-- An expression that is a property access ends with the property's name. -/
theorem Derives.of_get {object : Expr} {name : Ident}
    (h : Derives nearest (.binary .or) ts (.expr (.get object name)) rest) :
    ∃ dot t : Token, Derives nearest .call ts (.expr object) (dot :: t :: rest) ∧
      dot.kind = .symbol .dot ∧ t.kind = .identifier ∧ name = ident t := by
  have hcall := h.call_of_or rfl (by simp)
  generalize he : Expr.get object name = e at hcall
  cases hcall with
  | @call _ _ _ first fs hfirst hfs =>
    rcases hfs.suffixes_cases (e := first) with ⟨rfl, rfl⟩ | ⟨callee, es, line, heq⟩ |
      ⟨fs', dot, t, hfs', hdot, ht, heq⟩
    · rw [show applySuffixes first [] = first from rfl] at he
      subst he
      cases hfirst
    · exact absurd (he.trans heq) (by simp)
    · obtain ⟨rfl, rfl⟩ := Expr.get.inj (he.trans heq)
      exact ⟨dot, t, .call hfirst hfs', hdot, ht, rfl⟩

/-- A call is an operation of every level without operators. -/
theorem Derives.or_of_call {e : Expr} (h : Derives nearest .call ts (.expr e) rest) :
    Derives nearest (.binary .or) ts (.expr e) rest :=
  .binary (.binary (.binary (.binary (.binary (.binary (.called h) .noOperation) .noOperation)
    .noOperation) .noOperation) .noOperation) .noOperation

theorem Derives.suffixes_append_get {dot name : Token} {fs : List (Expr → Expr)}
    (h : Derives nearest .suffixes ts (.suffixes fs) (dot :: name :: rest))
    (hdot : dot.kind = .symbol .dot) (hname : name.kind = .identifier) :
    Derives nearest .suffixes ts (.suffixes (fs ++ [fun object => .get object (ident name)])) rest := by
  induction fs generalizing ts with
  | nil =>
    cases h
    exact .get hdot hname .noSuffix
  | cons f fs ih =>
    cases h with
    | callWithout hopening hclose hfs => exact .callWithout hopening hclose (ih hfs)
    | callWith hopening hes hcount hclose hfs => exact .callWith hopening hes hcount hclose (ih hfs)
    | get hdot' hname' hfs => exact .get hdot' hname' (ih hfs)

theorem Derives.call_get {object : Expr} {dot name : Token}
    (h : Derives nearest .call ts (.expr object) (dot :: name :: rest))
    (hdot : dot.kind = .symbol .dot) (hname : name.kind = .identifier) :
    Derives nearest .call ts (.expr (.get object (ident name))) rest := by
  cases h with
  | @call _ _ _ first fs hfirst hfs =>
    have happend : applySuffixes first (fs ++ [fun object => .get object (ident name)]) =
        .get (applySuffixes first fs) (ident name) := by
      simp [applySuffixes]
    rw [← happend]
    exact .call hfirst (hfs.suffixes_append_get hdot hname)

end Targets

end Lox.Grammar
