import Lox.Number.Layout
import Lox.Syntax.Basic

/-!
# Trees as text

The fully parenthesised form of a tree: an operator or keyword first, then its parts. A program
has one statement to a line.
-/

set_option autoImplicit false

namespace Lox

def Literal.render : Literal → String
  | .nil => "nil"
  | .bool true => "true"
  | .bool false => "false"
  | .number x => Number.literalText x
  | .string s => s

mutual

def Expr.render : Expr → String
  | .literal value _ => value.render
  | .group inner => "(group " ++ inner.render ++ ")"
  | .variable name _ => name.name
  | .assign name value _ => "(= " ++ name.name ++ " " ++ value.render ++ ")"
  | .unary op operand _ => "(" ++ op.text ++ " " ++ operand.render ++ ")"
  | .binary op left right _ => "(" ++ op.text ++ " " ++ left.render ++ " " ++ right.render ++ ")"
  | .logical op left right _ => "(" ++ op.text ++ " " ++ left.render ++ " " ++ right.render ++ ")"
  | .call callee arguments _ => "(call " ++ callee.render ++ renderArguments arguments ++ ")"
  | .get object name => "(. " ++ object.render ++ " " ++ name.name ++ ")"
  | .set object name value =>
    "(= (. " ++ object.render ++ " " ++ name.name ++ ") " ++ value.render ++ ")"
  | .this _ _ => "this"
  | .super _ method _ => "(super " ++ method.name ++ ")"
  | .lambda decl => decl.render "fun"

/-- Each argument with a blank before it. -/
def renderArguments : List Expr → String
  | [] => ""
  | e :: es => " " ++ e.render ++ renderArguments es

def Stmt.render : Stmt → String
  | .expression value => "(; " ++ value.render ++ ")"
  | .print value => "(print " ++ value.render ++ ")"
  | .var name none => "(var " ++ name.name ++ ")"
  | .var name (some value) => "(var " ++ name.name ++ " " ++ value.render ++ ")"
  | .block body => "(block" ++ renderBody body ++ ")"
  | .cond condition thenBranch none =>
    "(if " ++ condition.render ++ " " ++ thenBranch.render ++ ")"
  | .cond condition thenBranch (some elseBranch) =>
    "(if " ++ condition.render ++ " " ++ thenBranch.render ++ " " ++ elseBranch.render ++ ")"
  | .loop condition body => "(while " ++ condition.render ++ " " ++ body.render ++ ")"
  | .function decl => decl.render "fun"
  | .ret _ none => "(return)"
  | .ret _ (some value) => "(return " ++ value.render ++ ")"
  | .brk _ => "(break)"
  | .classDecl name superclass methods =>
    let parent := match superclass with
      | none => ""
      | some (parent, _) => " < " ++ parent.name
    "(class " ++ name.name ++ parent ++ renderMethods methods ++ ")"

/-- Each statement with a blank before it. -/
def renderBody : List Stmt → String
  | [] => ""
  | s :: ss => " " ++ s.render ++ renderBody ss

def FunDecl.render (keyword : String) : FunDecl → String
  | ⟨name, params, body, _⟩ =>
    let named := match name with
      | none => ""
      | some name => " " ++ name.name
    "(" ++ keyword ++ named ++ " (" ++ " ".intercalate (params.map Ident.name) ++ ")" ++
      renderBody body ++ ")"

/-- Each method with a blank before it. -/
def renderMethods : List FunDecl → String
  | [] => ""
  | d :: ds => " " ++ d.render "method" ++ renderMethods ds

end

def Program.render (p : Program) : String :=
  "\n".intercalate (p.map Stmt.render)

end Lox
