/-
The text of an expression: fully parenthesised, operators and calls in front.

    -1 + f(2, x)    is written    (+ (- 1) (call f 2 x))
-/
import Lox.Expr

namespace Lox.Expr

mutual

/-- The text of an expression. -/
def text : Expr → String
  | assign name value => "(assign " ++ name.lexeme ++ " " ++ value.text ++ ")"
  | binary left op right => "(" ++ op.lexeme ++ " " ++ left.text ++ " " ++ right.text ++ ")"
  | call callee _ arguments => "(call " ++ callee.text ++ textList arguments ++ ")"
  | get object name => "(get " ++ object.text ++ " " ++ name.lexeme ++ ")"
  | grouping inner => "(group " ++ inner.text ++ ")"
  | literal value => value.text
  | logical left op right => "(" ++ op.lexeme ++ " " ++ left.text ++ " " ++ right.text ++ ")"
  | set object name value =>
    "(set " ++ object.text ++ " " ++ name.lexeme ++ " " ++ value.text ++ ")"
  | super _ method => "(super " ++ method.lexeme ++ ")"
  | this _ => "(this)"
  | unary op right => "(" ++ op.lexeme ++ " " ++ right.text ++ ")"
  | var name => name.lexeme

/-- The texts of expressions, each after a space. -/
def textList : List Expr → String
  | [] => ""
  | e :: es => " " ++ e.text ++ textList es

end

end Lox.Expr
