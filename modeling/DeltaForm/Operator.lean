/-!
# Operators

The operators of the language, with their spelling, the precedence of the infix ones (a higher one
binds tighter) and the names under which the dependency runtime knows them. Property access and
array construction are operators of the runtime too.
-/

namespace DeltaForm

/-- Operators before one operand. -/
inductive UnaryOp
  | not | neg | plus | bitNot | typeof | void
  deriving DecidableEq, Repr

namespace UnaryOp

/-- All of them, in table order. -/
def all : List UnaryOp := [not, neg, plus, bitNot, typeof, void]

/-- The spelling. -/
def symbol : UnaryOp → String
  | not => "!"
  | neg => "-"
  | plus => "+"
  | bitNot => "~"
  | typeof => "typeof"
  | void => "void"

/-- The name in the runtime: the spelling, unless an operator on two operands has it. -/
def operatorName : UnaryOp → String
  | neg => "unary-"
  | plus => "unary+"
  | op => op.symbol

end UnaryOp

/-- Operators between two operands that are both evaluated. -/
inductive BinaryOp
  | add | sub | mul | div | mod | pow
  | eq | ne | strictEq | strictNe | lt | gt | le | ge | isIn
  | bitAnd | bitOr | bitXor | shl | shr | ushr
  deriving DecidableEq, Repr

namespace BinaryOp

/-- All of them, in table order. -/
def all : List BinaryOp :=
  [add, sub, mul, div, mod, pow, eq, ne, strictEq, strictNe, lt, gt, le, ge, isIn,
   bitAnd, bitOr, bitXor, shl, shr, ushr]

/-- The spelling, which is also the name in the runtime. -/
def symbol : BinaryOp → String
  | add => "+"
  | sub => "-"
  | mul => "*"
  | div => "/"
  | mod => "%"
  | pow => "**"
  | eq => "=="
  | ne => "!="
  | strictEq => "==="
  | strictNe => "!=="
  | lt => "<"
  | gt => ">"
  | le => "<="
  | ge => ">="
  | isIn => "in"
  | bitAnd => "&"
  | bitOr => "|"
  | bitXor => "^"
  | shl => "<<"
  | shr => ">>"
  | ushr => ">>>"

/-- How tightly it binds. -/
def precedence : BinaryOp → Nat
  | bitOr => 6
  | bitXor => 7
  | bitAnd => 8
  | eq | ne | strictEq | strictNe => 9
  | lt | gt | le | ge | isIn => 10
  | shl | shr | ushr => 11
  | add | sub => 12
  | mul | div | mod => 13
  | pow => 14

end BinaryOp

/-- Operators that evaluate their second operand only if the first leaves the result open. -/
inductive LogicalOp
  | and | or | coalesce
  deriving DecidableEq, Repr

namespace LogicalOp

/-- All of them, in table order. -/
def all : List LogicalOp := [and, or, coalesce]

/-- The spelling, which is also the name in the runtime. -/
def symbol : LogicalOp → String
  | and => "&&"
  | or => "||"
  | coalesce => "??"

/-- How tightly it binds. -/
def precedence : LogicalOp → Nat
  | coalesce | or => 4
  | and => 5

end LogicalOp

/-- The name of property access in the runtime. -/
def memberOperator : String := "."

/-- The name of array construction in the runtime. -/
def arrayOperator : String := "=([])"

end DeltaForm
