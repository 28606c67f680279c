import Lox.Grammar.Rules

/-!
# From tokens to trees

The rules of the grammar tied together, recovery after an error, and the two things that a list
of tokens can be read as: a program and a single expression.
-/

set_option autoImplicit false

namespace Lox.Grammar

def startsStatement : Kind → Bool
  | .keyword k =>
    k ∈ [Keyword.classKw, .funKw, .varKw, .forKw, .ifKw, .whileKw, .printKw, .returnKw, .breakKw]
  | _ => false

/-- Passes tokens until the last one passed is a semicolon or the next one starts a statement. -/
def skipStatement (previous : Token) : List Token → Token × List Token
  | [] => (previous, [])
  | t :: rest =>
    if t.kind == .eof || previous.kind == .symbol .semicolon || startsStatement t.kind then
      (previous, t :: rest)
    else skipStatement t rest

/-- Passes at least one token, and then the rest of the statement in which an error stood. -/
def State.skipToStatement (s : State) : State :=
  let s := s.advance
  let (previous, rest) := skipStatement s.previous s.rest
  { s with previous := previous, rest := rest }

/-- Records the error of a parser that stops, and resumes at the next statement. -/
def recovering (p : Parser Stmt) : Parser (Option Stmt) := fun s =>
  match p s with
  | .ok stmt s => .ok (some stmt) s
  | .error e s => .ok none (s.record e).skipToStatement

mutual

/-- An expression nested less than `n` deep. -/
def expression : Nat → Parser Expr
  | 0 => fail .expression
  | n + 1 => assignment ⟨n, expression n, unaryExpression n, nestedStatement n, declaration n⟩

def unaryExpression : Nat → Parser Expr
  | 0 => fail .expression
  | n + 1 => unary ⟨n, expression n, unaryExpression n, nestedStatement n, declaration n⟩

def nestedStatement : Nat → Parser Stmt
  | 0 => fail .expression
  | n + 1 => statement ⟨n, expression n, unaryExpression n, nestedStatement n, declaration n⟩

/-- A declaration, or nothing if it has an error, which is then recorded. -/
def declaration : Nat → Parser (Option Stmt)
  | 0 => recovering (fail .expression)
  | n + 1 => recovering
      (declarationRule ⟨n, expression n, unaryExpression n, nestedStatement n, declaration n⟩)

end

/-- Declarations up to the end of input, each read by `one`. -/
def toEnd (one : Parser (Option Stmt)) : Nat → Parser (List Stmt)
  | 0 => return []
  | n + 1 => do
    if ← atEnd then
      return []
    let first ← one
    let others ← toEnd one n
    return first.toList ++ others

/-- A nesting depth that suffices for these tokens. A level passes a token before it opens the
next one, except that a statement may start with an expression, which passes tokens of its own
before it opens a statement again. So the bound is reached, if at all, where no token is left, and
there an expression is missing in any case. -/
def depthBound (tokens : List Token) : Nat :=
  tokens.length + 1

def result {α : Type} : EStateM.Result ParseError State α → Except (List ParseError) α
  | .ok a s => if s.errors.isEmpty then .ok a else .error s.errors
  | .error e s => .error (s.errors ++ [e])

/-- Reads all tokens as a program, or returns every error found. -/
def parseProgram (tokens : List Token) : Except (List ParseError) Program :=
  let n := depthBound tokens
  result (toEnd (declaration n) n (.start tokens))

/-- Reads all tokens as one expression, or returns every error found. -/
def parseExpression (tokens : List Token) : Except (List ParseError) Expr :=
  let whole : Parser Expr := do
    let e ← expression (depthBound tokens)
    if !(← atEnd) then
      report (.expected .endOfExpression)
    return e
  result (whole (.start tokens))

end Lox.Grammar
