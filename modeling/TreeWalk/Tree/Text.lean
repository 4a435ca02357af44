import TreeWalk.Tree

/-!
The text of a syntax tree: every node in parentheses, its operator or keyword first.
-/

namespace TreeWalk

def Literal.text : Literal → String
  | number value => String.ofList (Number.inTree value)
  | string contents => contents
  | bool value => if value then "true" else "false"
  | nil => "nil"

mutual

def Expr.text : Expr → String
  | .literal value => value.text
  | .group inner => "(group " ++ inner.text ++ ")"
  | .unary operator right => "(" ++ operator.lexeme ++ " " ++ right.text ++ ")"
  | .binary left operator right =>
    "(" ++ operator.lexeme ++ " " ++ left.text ++ " " ++ right.text ++ ")"
  | .logical left operator right =>
    "(" ++ operator.lexeme ++ " " ++ left.text ++ " " ++ right.text ++ ")"
  | .reference name => name.lexeme
  | .assign name value => "(= " ++ name.lexeme ++ " " ++ value.text ++ ")"
  | .call callee _ arguments => "(call " ++ callee.text ++ Expr.textAll arguments ++ ")"

/-- The texts of expressions, a blank before each. -/
def Expr.textAll : List Expr → String
  | [] => ""
  | e :: es => " " ++ e.text ++ Expr.textAll es

end

def Expr.textOption : Option Expr → String
  | none => ""
  | some e => " " ++ e.text

mutual

def Stmt.text : Stmt → String
  | .expression value => "(; " ++ value.text ++ ")"
  | .print value => "(print " ++ value.text ++ ")"
  | .varDecl name initial => "(var " ++ name.lexeme ++ Expr.textOption initial ++ ")"
  | .block body => "(block" ++ Stmt.textAll body ++ ")"
  | .ifElse condition thenBranch none =>
    "(if " ++ condition.text ++ " " ++ thenBranch.text ++ ")"
  | .ifElse condition thenBranch (some elseBranch) =>
    "(if " ++ condition.text ++ " " ++ thenBranch.text ++ " " ++ elseBranch.text ++ ")"
  | .whileLoop condition body => "(while " ++ condition.text ++ " " ++ body.text ++ ")"
  | .funDecl declaration => declaration.text "fun"
  | .returnValue _ value => "(return" ++ Expr.textOption value ++ ")"
  | .classDecl name superclass methods =>
    let inherits := match superclass with
      | some e => " < " ++ e.text
      | none => ""
    "(class " ++ name.lexeme ++ inherits ++ FunDecl.textAll methods ++ ")"

def FunDecl.text (head : String) : FunDecl → String
  | ⟨name, params, body⟩ =>
    "(" ++ head ++ " " ++ name.lexeme ++ "(" ++ " ".intercalate (params.map (·.lexeme)) ++ ")"
      ++ Stmt.textAll body ++ ")"

/-- The texts of statements, a blank before each. -/
def Stmt.textAll : List Stmt → String
  | [] => ""
  | s :: ss => " " ++ s.text ++ Stmt.textAll ss

/-- The texts of methods, a blank before each. -/
def FunDecl.textAll : List FunDecl → String
  | [] => ""
  | d :: ds => " " ++ d.text "method" ++ FunDecl.textAll ds

end

end TreeWalk
