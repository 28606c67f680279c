/-!
# Tokens

The words of the language: symbols, keywords, names and literals, each with the text it was
written as and the line on which that text ends.
-/

set_option autoImplicit false

namespace Lox

/-- Punctuation and operators. -/
inductive Symbol where
  | leftParen
  | rightParen
  | leftBrace
  | rightBrace
  | comma
  | dot
  | semicolon
  | minus
  | plus
  | slash
  | star
  | bang
  | bangEqual
  | equal
  | equalEqual
  | greater
  | greaterEqual
  | less
  | lessEqual
  deriving DecidableEq, Repr

/-- Every symbol, each before those that it starts with. -/
def Symbol.all : List Symbol :=
  [.bangEqual, .equalEqual, .greaterEqual, .lessEqual, .leftParen, .rightParen, .leftBrace,
    .rightBrace, .comma, .dot, .semicolon, .minus, .plus, .slash, .star, .bang, .equal, .greater,
    .less]

def Symbol.chars : Symbol → List Char
  | .leftParen => ['(']
  | .rightParen => [')']
  | .leftBrace => ['{']
  | .rightBrace => ['}']
  | .comma => [',']
  | .dot => ['.']
  | .semicolon => [';']
  | .minus => ['-']
  | .plus => ['+']
  | .slash => ['/']
  | .star => ['*']
  | .bang => ['!']
  | .bangEqual => ['!', '=']
  | .equal => ['=']
  | .equalEqual => ['=', '=']
  | .greater => ['>']
  | .greaterEqual => ['>', '=']
  | .less => ['<']
  | .lessEqual => ['<', '=']

def Symbol.name : Symbol → String
  | .leftParen => "LEFT_PAREN"
  | .rightParen => "RIGHT_PAREN"
  | .leftBrace => "LEFT_BRACE"
  | .rightBrace => "RIGHT_BRACE"
  | .comma => "COMMA"
  | .dot => "DOT"
  | .semicolon => "SEMICOLON"
  | .minus => "MINUS"
  | .plus => "PLUS"
  | .slash => "SLASH"
  | .star => "STAR"
  | .bang => "BANG"
  | .bangEqual => "BANG_EQUAL"
  | .equal => "EQUAL"
  | .equalEqual => "EQUAL_EQUAL"
  | .greater => "GREATER"
  | .greaterEqual => "GREATER_EQUAL"
  | .less => "LESS"
  | .lessEqual => "LESS_EQUAL"

/-- Reserved words. -/
inductive Keyword where
  | andKw
  | breakKw
  | classKw
  | elseKw
  | falseKw
  | funKw
  | forKw
  | ifKw
  | nilKw
  | orKw
  | printKw
  | returnKw
  | superKw
  | thisKw
  | trueKw
  | varKw
  | whileKw
  deriving DecidableEq, Repr

def Keyword.all : List Keyword :=
  [.andKw, .breakKw, .classKw, .elseKw, .falseKw, .funKw, .forKw, .ifKw, .nilKw, .orKw, .printKw,
    .returnKw, .superKw, .thisKw, .trueKw, .varKw, .whileKw]

def Keyword.text : Keyword → String
  | .andKw => "and"
  | .breakKw => "break"
  | .classKw => "class"
  | .elseKw => "else"
  | .falseKw => "false"
  | .funKw => "fun"
  | .forKw => "for"
  | .ifKw => "if"
  | .nilKw => "nil"
  | .orKw => "or"
  | .printKw => "print"
  | .returnKw => "return"
  | .superKw => "super"
  | .thisKw => "this"
  | .trueKw => "true"
  | .varKw => "var"
  | .whileKw => "while"

def Keyword.name (k : Keyword) : String :=
  k.text.toUpper

def Keyword.ofText? (text : String) : Option Keyword :=
  Keyword.all.find? fun k => k.text == text

/-- What a token is; literals carry their value. -/
inductive Kind where
  | symbol (s : Symbol)
  | keyword (k : Keyword)
  | identifier
  | string (contents : String)
  | number (value : Float)
  | eof
  deriving DecidableEq, Repr

def Kind.name : Kind → String
  | .symbol s => s.name
  | .keyword k => k.name
  | .identifier => "IDENTIFIER"
  | .string _ => "STRING"
  | .number _ => "NUMBER"
  | .eof => "EOF"

/-- Whether two kinds agree up to the value that a literal carries. -/
def Kind.sameType : Kind → Kind → Bool
  | .symbol a, .symbol b => a == b
  | .keyword a, .keyword b => a == b
  | .identifier, .identifier => true
  | .string _, .string _ => true
  | .number _, .number _ => true
  | .eof, .eof => true
  | _, _ => false

structure Token where
  kind : Kind
  lexeme : String
  line : Nat
  deriving DecidableEq, Repr

/-- Whether two tokens have the same type, text and line. -/
def Token.sameWord (a b : Token) : Bool :=
  a.kind.sameType b.kind && a.lexeme == b.lexeme && a.line == b.line

end Lox
