/-!
# Faults

The causes for which a source text is refused or a program stops, with their wording. Each stage
has a type of its own, and each type leaves room for a cause that an embedding program words.
-/

set_option autoImplicit false

namespace Lox

/-- Why a text cannot be cut into tokens. -/
inductive LexFault where
  | unexpectedCharacter (c : Char)
  | unterminatedString
  | other (text : String)
  deriving DecidableEq, Repr

def LexFault.text : LexFault → String
  | .unexpectedCharacter c => "Unexpected character: " ++ c.toString
  | .unterminatedString => "Unterminated string."
  | .other text => text

/-- How a body of code is introduced. -/
inductive FunctionKind where
  | function
  | method
  deriving DecidableEq, Repr

def FunctionKind.text : FunctionKind → String
  | .function => "function"
  | .method => "method"

/-- What the grammar wanted at a place where something else stood. -/
inductive Expectation where
  | className
  | superclassName
  | classBodyOpen
  | classBodyClose
  | functionName (kind : FunctionKind)
  | parametersOpen (kind : FunctionKind)
  | parameterName
  | parametersClose
  | bodyOpen (kind : FunctionKind)
  | variableName
  | endOfVariable
  | forOpen
  | endOfLoopCondition
  | forClose
  | endOfPrint
  | endOfExpressionStatement
  | ifOpen
  | conditionClose
  | whileOpen
  | endOfReturn
  | endOfBreak
  | blockClose
  | propertyName
  | argumentsClose
  | dotAfterSuper
  | superMethodName
  | groupClose
  | expression
  | endOfExpression
  deriving DecidableEq, Repr

def Expectation.text : Expectation → String
  | .className => "class name"
  | .superclassName => "superclass name"
  | .classBodyOpen => "'\x7b' before class body"
  | .classBodyClose => "'\x7d' after class body"
  | .functionName kind => kind.text ++ " name"
  | .parametersOpen kind => "'(' after " ++ kind.text ++ " name"
  | .parameterName => "parameter name"
  | .parametersClose => "')' after parameters"
  | .bodyOpen kind => "'\x7b' before " ++ kind.text ++ " body"
  | .variableName => "variable name"
  | .endOfVariable => "';' after variable declaration"
  | .forOpen => "'(' after 'for'"
  | .endOfLoopCondition => "';' after loop condition"
  | .forClose => "')' after for clauses"
  | .endOfPrint => "';' after value"
  | .endOfExpressionStatement => "';' after expression"
  | .ifOpen => "'(' after 'if'"
  | .conditionClose => "')' after condition"
  | .whileOpen => "'(' after 'while'"
  | .endOfReturn => "';' after return value"
  | .endOfBreak => "';' after 'break'"
  | .blockClose => "'\x7d' after block"
  | .propertyName => "property name after '.'"
  | .argumentsClose => "')' after arguments"
  | .dotAfterSuper => "'.' after 'super'"
  | .superMethodName => "superclass method name"
  | .groupClose => "')' after expression"
  | .expression => "expression"
  | .endOfExpression => "end of expression"

/-- The most parameters a function declares and the most arguments a call passes. -/
def arityLimit : Nat := 255

/-- Why tokens do not form a program. -/
inductive ParseFault where
  | expected (what : Expectation)
  | tooManyParameters
  | tooManyArguments
  | invalidTarget
  | other (text : String)
  deriving DecidableEq, Repr

def ParseFault.text : ParseFault → String
  | .expected what => "Expected " ++ what.text
  | .tooManyParameters => s!"Can't have more than {arityLimit} parameters"
  | .tooManyArguments => s!"Can't have more than {arityLimit} arguments"
  | .invalidTarget => "Invalid assignment target"
  | .other text => text

/-- The static rules of scopes, functions and classes. -/
inductive ResolveFault where
  | selfInitializer
  | returnAtTopLevel
  | breakOutsideLoop
  | selfInheritance
  | thisOutsideClass
  | superOutsideClass
  | superWithoutSuperclass
  | redeclared
  | other (text : String)
  deriving DecidableEq, Repr

def ResolveFault.text : ResolveFault → String
  | .selfInitializer => "Can't read local variable in its own initializer."
  | .returnAtTopLevel => "Can't return from top-level code."
  | .breakOutsideLoop => "Can't use 'break' outside of a loop."
  | .selfInheritance => "A class can't inherit from itself."
  | .thisOutsideClass => "Can't use 'this' outside of a class."
  | .superOutsideClass => "Can't use 'super' outside of a class."
  | .superWithoutSuperclass => "Can't use 'super' in a class with no superclass."
  | .redeclared => "Already a variable with this name in this scope."
  | .other text => text

/-- The types that a running program tells apart. -/
inductive ValueType where
  | nil
  | boolean
  | number
  | string
  | function
  | classType
  | instanceType
  deriving DecidableEq, Repr

def ValueType.text : ValueType → String
  | .nil => "nil"
  | .boolean => "boolean"
  | .number => "number"
  | .string => "string"
  | .function => "function"
  | .classType => "class"
  | .instanceType => "instance"

/-- Why a running program stops. -/
inductive RuntimeFault where
  | undefinedVariable (name : String)
  | undefinedProperty (name : String)
  | operandNotNumber
  | operandsNotNumbers
  | operandsNotAddable (left right : ValueType)
  | divisionByZero
  | notCallable (type : ValueType)
  | wrongArity (expected actual : Nat)
  | propertyOfNonInstance
  | fieldOfNonInstance
  | superclassNotClass
  | other (text : String)
  deriving DecidableEq, Repr

def RuntimeFault.text : RuntimeFault → String
  | .undefinedVariable name => s!"Undefined variable '{name}'."
  | .undefinedProperty name => s!"Undefined property '{name}'."
  | .operandNotNumber => "Operand must be a number."
  | .operandsNotNumbers => "Operands must be numbers."
  | .operandsNotAddable left right =>
    s!"Operands must be two numbers or two strings, got {left.text} and {right.text}."
  | .divisionByZero => "Division by zero."
  | .notCallable type =>
    type.text ++ " value is not callable. Can only call functions and classes."
  | .wrongArity expected actual => s!"Expected {expected} arguments but got {actual}."
  | .propertyOfNonInstance => "Only instances have properties."
  | .fieldOfNonInstance => "Only instances have fields."
  | .superclassNotClass => "Superclass must be a class."
  | .other text => text

/-- Disagreements between a tree's slots and the scopes it runs in. A tree whose scopes were
resolved without error does not show them. -/
inductive InternalFault where
  | unresolved (name : String) (line : Nat)
  | scopeTooDeep (name : String) (line : Nat)
  | superNotClass (line : Nat)
  | superAtDistanceZero (line : Nat)
  | thisNotInstance (line : Nat)
  | breakEscaped (function : String)
  | signalAtTop (signal : String) (line : Nat)
  | other (text : String)
  deriving DecidableEq, Repr

def InternalFault.text : InternalFault → String
  | .unresolved name line => s!"'{name}' on line {line} was never resolved"
  | .scopeTooDeep name line =>
    s!"resolved scope for '{name}' on line {line} is deeper than the environment chain"
  | .superNotClass line => s!"'super' is not a class on line {line}"
  | .superAtDistanceZero line => s!"'super' resolved at distance 0 on line {line}"
  | .thisNotInstance line => s!"'this' is not an instance on line {line}"
  | .breakEscaped function => s!"'break' escaped the body of {function}"
  | .signalAtTop signal line => s!"{signal} reached the top level on line {line}"
  | .other text => text

/-- Why output cannot be delivered. -/
inductive IoFault where
  | sinkFull
  | flushRefused
  | other (text : String)
  deriving DecidableEq, Repr

def IoFault.text : IoFault → String
  | .sinkFull => "sink full"
  | .flushRefused => "flush refused"
  | .other text => text

end Lox
