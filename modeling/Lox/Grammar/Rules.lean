import Lox.Grammar.State
import Lox.Syntax.Basic

/-!
# Grammar rules

Each rule of the grammar as a parser. A rule that contains expressions, statements or
declarations takes the parsers for them from a `Rules` record. It calls one only after it has
passed a token, except that a statement may start with an expression.
-/

set_option autoImplicit false

namespace Lox.Grammar

/-- Parsers for what a rule contains, and a bound on the length of lists in it. -/
structure Rules where
  bound : Nat
  expression : Parser Expr
  unary : Parser Expr
  statement : Parser Stmt
  declaration : Parser (Option Stmt)

def identifier (what : Expectation) : Parser Ident := do
  let t ← expect .identifier what
  return ⟨t.lexeme, t.line⟩

/-! ## Declarations -/

/-- Declarations up to a closing brace or the end of input; those with errors are left out. -/
def declarations (r : Rules) : Nat → Parser (List Stmt)
  | 0 => return []
  | n + 1 => do
    if (← checkSymbol .rightBrace) || (← atEnd) then
      return []
    let first ← r.declaration
    let others ← declarations r n
    return first.toList ++ others

/-- The rest of a block whose opening brace has been passed. -/
def block (r : Rules) : Parser (List Stmt) := do
  let body ← declarations r r.bound
  let _ ← expectSymbol .rightBrace .blockClose
  return body

/-- One or more parameters, of which `count` precede. -/
def parameters : Nat → Nat → Parser (List Ident)
  | 0, _ => fail .parameterName
  | n + 1, count => do
    if count ≥ arityLimit then
      report .tooManyParameters
    let first ← identifier .parameterName
    if ← acceptSymbol .comma then
      let others ← parameters n (count + 1)
      return first :: others
    return [first]

/-- Parameters and body of a function whose name, if any, has been passed. -/
def functionBody (r : Rules) (kind : FunctionKind) (name : Option Ident) : Parser FunDecl := do
  let keyword ← previous
  let line := (name.map Ident.line).getD keyword.line
  let _ ← expectSymbol .leftParen (.parametersOpen kind)
  let params ← if ← checkSymbol .rightParen then pure [] else parameters r.bound 0
  let _ ← expectSymbol .rightParen .parametersClose
  let _ ← expectSymbol .leftBrace (.bodyOpen kind)
  let body ← block r
  return ⟨name, params, body, line⟩

def namedFunction (r : Rules) (kind : FunctionKind) : Parser FunDecl := do
  let name ← identifier (.functionName kind)
  functionBody r kind (some name)

/-- Methods up to a closing brace or the end of input. -/
def methods (r : Rules) : Nat → Parser (List FunDecl)
  | 0 => return []
  | n + 1 => do
    if (← checkSymbol .rightBrace) || (← atEnd) then
      return []
    let first ← namedFunction r .method
    let others ← methods r n
    return first :: others

/-- The rest of a class after its keyword. -/
def classDeclaration (r : Rules) : Parser Stmt := do
  let name ← identifier .className
  let superclass ← if ← acceptSymbol .less then
      let parent ← identifier .superclassName
      pure (some (parent, none))
    else pure none
  let _ ← expectSymbol .leftBrace .classBodyOpen
  let members ← methods r r.bound
  let _ ← expectSymbol .rightBrace .classBodyClose
  return .classDecl name superclass members

/-- The rest of a variable declaration after its keyword. -/
def varDeclaration (r : Rules) : Parser Stmt := do
  let name ← identifier .variableName
  let initializer ← if ← acceptSymbol .equal then
      let value ← r.expression
      pure (some value)
    else pure none
  let _ ← expectSymbol .semicolon .endOfVariable
  return .var name initializer

/-! ## Statements -/

def expressionStatement (r : Rules) : Parser Stmt := do
  let value ← r.expression
  let _ ← expectSymbol .semicolon .endOfExpressionStatement
  return .expression value

/-- An expression, unless the next token is the symbol that ends it. -/
def optionalExpression (r : Rules) (terminator : Symbol) : Parser (Option Expr) := do
  if ← checkSymbol terminator then
    return none
  let value ← r.expression
  return some value

/-- A `for` loop as a `while` loop: the increment follows the body in a block of its own, and the
initializer precedes the loop in another. -/
def forLoop (line : Nat) (initializer : Option Stmt) (condition increment : Option Expr)
    (body : Stmt) : Stmt :=
  let body := match increment with
    | some increment => .block [body, .expression increment]
    | none => body
  let loop := .loop (condition.getD (.literal (.bool true) line)) body
  match initializer with
  | some initializer => .block [initializer, loop]
  | none => loop

/-- What stands before the first semicolon of a `for` loop, and that semicolon. -/
def forInitializer (r : Rules) : Parser (Option Stmt) := do
  if ← acceptSymbol .semicolon then return none
  else if ← acceptKeyword .varKw then
    let declared ← varDeclaration r
    return some declared
  else
    let evaluated ← expressionStatement r
    return some evaluated

/-- The rest of a `for` loop after its keyword. -/
def forStatement (r : Rules) : Parser Stmt := do
  let line := (← previous).line
  let _ ← expectSymbol .leftParen .forOpen
  let initializer ← forInitializer r
  let condition ← optionalExpression r .semicolon
  let _ ← expectSymbol .semicolon .endOfLoopCondition
  let increment ← optionalExpression r .rightParen
  let _ ← expectSymbol .rightParen .forClose
  let body ← r.statement
  return forLoop line initializer condition increment body

/-- The rest of an `if` statement after its keyword. -/
def ifStatement (r : Rules) : Parser Stmt := do
  let _ ← expectSymbol .leftParen .ifOpen
  let condition ← r.expression
  let _ ← expectSymbol .rightParen .conditionClose
  let thenBranch ← r.statement
  if ← acceptKeyword .elseKw then
    let elseBranch ← r.statement
    return .cond condition thenBranch (some elseBranch)
  return .cond condition thenBranch none

/-- The rest of a `while` loop after its keyword. -/
def whileStatement (r : Rules) : Parser Stmt := do
  let _ ← expectSymbol .leftParen .whileOpen
  let condition ← r.expression
  let _ ← expectSymbol .rightParen .conditionClose
  let body ← r.statement
  return .loop condition body

/-- The rest of a `return` statement after its keyword. -/
def returnStatement (r : Rules) : Parser Stmt := do
  let line := (← previous).line
  let value ← optionalExpression r .semicolon
  let _ ← expectSymbol .semicolon .endOfReturn
  return .ret line value

/-- The rest of a `break` statement after its keyword. -/
def breakStatement : Parser Stmt := do
  let line := (← previous).line
  let _ ← expectSymbol .semicolon .endOfBreak
  return .brk line

/-- The rest of a `print` statement after its keyword. -/
def printStatement (r : Rules) : Parser Stmt := do
  let value ← r.expression
  let _ ← expectSymbol .semicolon .endOfPrint
  return .print value

def statement (r : Rules) : Parser Stmt := do
  if ← acceptKeyword .forKw then forStatement r
  else if ← acceptKeyword .ifKw then ifStatement r
  else if ← acceptKeyword .whileKw then whileStatement r
  else if ← acceptKeyword .returnKw then returnStatement r
  else if ← acceptKeyword .breakKw then breakStatement
  else if ← acceptSymbol .leftBrace then return .block (← block r)
  else if ← acceptKeyword .printKw then printStatement r
  else expressionStatement r

def declarationRule (r : Rules) : Parser Stmt := do
  if ← acceptKeyword .classKw then classDeclaration r
  else if (← check (.keyword .funKw)) && (← checkSecond .identifier) then
    let _ ← advance
    return .function (← namedFunction r .function)
  else if ← acceptKeyword .varKw then varDeclaration r
  else statement r

/-! ## Expressions -/

/-- The operators of one level of precedence, with the node that each builds. -/
abbrev Level := Kind → Option (Expr → Expr → Nat → Expr)

def orLevel : Level
  | .keyword .orKw => some (.logical .or)
  | _ => none

def andLevel : Level
  | .keyword .andKw => some (.logical .and)
  | _ => none

def equalityLevel : Level
  | .symbol .bangEqual => some (.binary .notEqual)
  | .symbol .equalEqual => some (.binary .equal)
  | _ => none

def comparisonLevel : Level
  | .symbol .greater => some (.binary .greater)
  | .symbol .greaterEqual => some (.binary .greaterEqual)
  | .symbol .less => some (.binary .less)
  | .symbol .lessEqual => some (.binary .lessEqual)
  | _ => none

def termLevel : Level
  | .symbol .minus => some (.binary .subtract)
  | .symbol .plus => some (.binary .add)
  | _ => none

def factorLevel : Level
  | .symbol .star => some (.binary .multiply)
  | .symbol .slash => some (.binary .divide)
  | _ => none

/-- The levels from the loosest to the tightest. -/
def levels : List Level :=
  [orLevel, andLevel, equalityLevel, comparisonLevel, termLevel, factorLevel]

/-- One or more arguments, of which `count` precede. -/
def arguments (r : Rules) : Nat → Nat → Parser (List Expr)
  | 0, _ => fail .expression
  | n + 1, count => do
    if count ≥ arityLimit then
      report .tooManyArguments
    let first ← r.expression
    if ← acceptSymbol .comma then
      let others ← arguments r n (count + 1)
      return first :: others
    return [first]

def primary (r : Rules) : Parser Expr := do
  let t ← peek
  match t.kind with
  | .keyword .falseKw =>
    let _ ← advance
    return .literal (.bool false) t.line
  | .keyword .trueKw =>
    let _ ← advance
    return .literal (.bool true) t.line
  | .keyword .nilKw =>
    let _ ← advance
    return .literal .nil t.line
  | .number x =>
    let _ ← advance
    return .literal (.number x) t.line
  | .string s =>
    let _ ← advance
    return .literal (.string s) t.line
  | .keyword .thisKw =>
    let _ ← advance
    return .this t.line none
  | .keyword .superKw =>
    let _ ← advance
    let _ ← expectSymbol .dot .dotAfterSuper
    let method ← identifier .superMethodName
    return .super t.line method none
  | .identifier =>
    let _ ← advance
    return .variable ⟨t.lexeme, t.line⟩ none
  | .keyword .funKw =>
    let _ ← advance
    return .lambda (← functionBody r .function none)
  | .symbol .leftParen =>
    let _ ← advance
    let inner ← r.expression
    let _ ← expectSymbol .rightParen .groupClose
    return .group inner
  | _ => fail .expression

/-- Calls and property accesses after an expression. -/
def callSuffixes (r : Rules) : Nat → Expr → Parser Expr
  | 0, callee => return callee
  | n + 1, callee => do
    if ← acceptSymbol .leftParen then
      let passed ← if ← checkSymbol .rightParen then pure [] else arguments r r.bound 0
      let close ← expectSymbol .rightParen .argumentsClose
      callSuffixes r n (.call callee passed close.line)
    else if ← acceptSymbol .dot then
      let name ← identifier .propertyName
      callSuffixes r n (.get callee name)
    else
      return callee

def call (r : Rules) : Parser Expr := do
  let first ← primary r
  callSuffixes r r.bound first

def unary (r : Rules) : Parser Expr := do
  match (← peek).kind with
  | .symbol .bang =>
    let line := (← advance).line
    return .unary .not (← r.unary) line
  | .symbol .minus =>
    let line := (← advance).line
    return .unary .negate (← r.unary) line
  | _ => call r

/-- Further operands of one level, taken to the left. -/
def operands (level : Level) (operand : Parser Expr) : Nat → Expr → Parser Expr
  | 0, left => return left
  | n + 1, left => do
    match level (← peek).kind with
    | none => return left
    | some node =>
      let line := (← advance).line
      let right ← operand
      operands level operand n (node left right line)

/-- An expression of the given levels and everything tighter. -/
def operation (r : Rules) : List Level → Parser Expr
  | [] => unary r
  | level :: tighter => do
    let left ← operation r tighter
    operands level (operation r tighter) r.bound left

/-- What an assignment to an expression is, if it can be assigned to. -/
def assignment? (target value : Expr) : Option Expr :=
  match target with
  | .variable name _ => some (.assign name value none)
  | .get object name => some (.set object name value)
  | _ => none

/-- An assignment, or an expression without one. A target that cannot be assigned to is reported,
and stands for the whole assignment. -/
def assignment (r : Rules) : Parser Expr := do
  let target ← operation r levels
  if ← acceptSymbol .equal then
    let equals ← previous
    let value ← r.expression
    match assignment? target value with
    | some e => return e
    | none =>
      reportAt equals .invalidTarget
      return target
  return target

end Lox.Grammar
