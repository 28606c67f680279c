import Lox.Error.Basic
import Lox.Token.Basic

/-!
# Reading tokens

A parser reads from the front of a list of tokens, remembers the last one it passed, and keeps
the errors that did not stop it. When it fails, the tokens it has passed stay passed.
-/

set_option autoImplicit false

namespace Lox.Grammar

structure State where
  /-- The token passed last. -/
  previous : Token
  rest : List Token
  /-- The errors recorded so far, in order. -/
  errors : List ParseError

/-- The end of the input, for lists that lack a token for it. -/
def endToken : Token := ⟨.eof, "", 0⟩

def State.start (tokens : List Token) : State :=
  ⟨endToken, tokens, []⟩

namespace State

def peek (s : State) : Token :=
  s.rest.headD endToken

def atEnd (s : State) : Bool :=
  s.peek.kind == .eof

/-- Whether the next token is of this kind, which is not the end of input. -/
def check (s : State) (kind : Kind) : Bool :=
  !s.atEnd && s.peek.kind == kind

/-- Whether the token after the next one is of this kind. -/
def checkSecond (s : State) (kind : Kind) : Bool :=
  match s.rest with
  | _ :: t :: _ => t.kind == kind
  | _ => false

/-- Passes the next token, unless the input is at its end. -/
def advance (s : State) : State :=
  match s.rest with
  | [] => s
  | t :: rest => if t.kind == .eof then s else { s with previous := t, rest := rest }

def record (s : State) (e : ParseError) : State :=
  { s with errors := s.errors ++ [e] }

/-- An error at the next token. -/
def errorHere (s : State) (fault : ParseFault) : ParseError :=
  let t := s.peek
  ⟨t.line, if t.kind == .eof then .atEnd else .atLexeme t.lexeme, fault⟩

end State

/-- A computation that reads tokens and may stop with an error. -/
abbrev Parser (α : Type) := EStateM ParseError State α

def peek : Parser Token := fun s => .ok s.peek s

def atEnd : Parser Bool := fun s => .ok s.atEnd s

def check (kind : Kind) : Parser Bool := fun s => .ok (s.check kind) s

def checkSecond (kind : Kind) : Parser Bool := fun s => .ok (s.checkSecond kind) s

/-- The token passed last. -/
def previous : Parser Token := fun s => .ok s.previous s

/-- Passes the next token and returns it. -/
def advance : Parser Token := fun s =>
  let s := s.advance
  .ok s.previous s

/-- Passes the next token if it is of this kind, and says whether it was. -/
def accept (kind : Kind) : Parser Bool := fun s =>
  if s.check kind then .ok true s.advance else .ok false s

/-- Records an error at the next token and goes on. -/
def report (fault : ParseFault) : Parser Unit := fun s =>
  .ok () (s.record (s.errorHere fault))

/-- Records an error at a token and goes on. -/
def reportAt (t : Token) (fault : ParseFault) : Parser Unit := fun s =>
  .ok () (s.record ⟨t.line, .atLexeme t.lexeme, fault⟩)

/-- Stops with an error at the next token. -/
def fail {α : Type} (what : Expectation) : Parser α := fun s =>
  .error (s.errorHere (.expected what)) s

/-- Passes a token of this kind, or stops. -/
def expect (kind : Kind) (what : Expectation) : Parser Token := fun s =>
  if s.check kind then
    let s := s.advance
    .ok s.previous s
  else fail what s

def acceptSymbol (symbol : Symbol) : Parser Bool :=
  accept (.symbol symbol)

def acceptKeyword (keyword : Keyword) : Parser Bool :=
  accept (.keyword keyword)

def checkSymbol (symbol : Symbol) : Parser Bool :=
  check (.symbol symbol)

def expectSymbol (symbol : Symbol) (what : Expectation) : Parser Token :=
  expect (.symbol symbol) what

end Lox.Grammar
