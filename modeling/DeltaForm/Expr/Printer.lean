import DeltaForm.Expr
import DeltaForm.Number.Layout
import DeltaForm.Text.Quoted

/-!
# Writing expressions

`Expr.print` writes an expression as source text, with only the parentheses that keep its shape.
Runtime forms are written as calls on the namespace, such as `δ.depend(true, δ.operators["+"], a,
b)`.

Each expression has a precedence and each place in a text a least one; an expression below it is put
in parentheses.
-/

namespace DeltaForm

namespace Expr

/-- The precedence of functions, and the least one of a list item. -/
def functionPrecedence : Nat := 2

/-- The precedence of conditionals. -/
def conditionalPrecedence : Nat := 3

/-- The precedence of operators before an operand. -/
def unaryPrecedence : Nat := 15

/-- The precedence of calls and property access. -/
def accessPrecedence : Nat := 18

/-- The precedence of literals, names and arrays. -/
def primaryPrecedence : Nat := 20

/-- A precedence that no expression has. -/
def bracketed : Nat := primaryPrecedence + 1

/-- How tightly an expression holds together. A negative number starts with a sign. -/
def precedence : Expr → Nat
  | function .. => functionPrecedence
  | conditional .. => conditionalPrecedence
  | logical _ op _ _ => op.precedence
  | binary _ op _ _ => op.precedence
  | unary .. => unaryPrecedence
  | number _ v => if Number.isNegative v then unaryPrecedence else primaryPrecedence
  | call .. | member .. | success .. | wrap .. | depend .. | operator .. | choice _ =>
    accessPrecedence
  | string .. | bool .. | null _ | undefined _ | ident .. | array .. => primaryPrecedence

/-- Whether an expression starts with a sign, which must not run into a sign before it. -/
def isSigned : Expr → Bool
  | unary _ .neg _ => true
  | unary _ .plus _ => true
  | number _ v => Number.isNegative v
  | _ => false

/-- Whether `??` meets `&&` or `||`, which takes parentheses. -/
def mixesCoalesce (parent : LogicalOp) : Expr → Bool
  | logical _ op _ _ => op != parent && (op == .coalesce || parent == .coalesce)
  | _ => false

/-- The least precedences of the left and the right operand of an operator. Power takes no sign on
its left and groups to the right. -/
def operandPrecedences (op : BinaryOp) : Nat × Nat :=
  match op with
  | .pow => (unaryPrecedence + 1, op.precedence)
  | _ => (op.precedence, op.precedence + 1)

/-- A text in parentheses, if it needs them. -/
def parenthesize (needed : Bool) (text : List Char) : List Char :=
  if needed then '(' :: text ++ [')'] else text

/-- A comma and a blank. -/
def comma : List Char := [',', ' ']

variable (ns : List Char)

mutual

/-- An expression without parentheses around it. -/
def bare : Expr → List Char
  | number _ v => Layout.plain.write v
  | string _ s => Quoted.literal s
  | bool _ b => (if b then "true" else "false").toList
  | null _ => "null".toList
  | undefined _ => "undefined".toList
  | ident _ name => name.toList
  | unary _ op e =>
    let blank := match op with
      | .typeof | .void => [' ']
      | _ => []
    let least := if isSigned e then bracketed else unaryPrecedence
    op.symbol.toList ++ blank ++ parenthesize (e.precedence < least) (bare e)
  | binary _ op l r =>
    let least := operandPrecedences op
    parenthesize (l.precedence < least.1) (bare l) ++ ' ' :: op.symbol.toList ++
      ' ' :: parenthesize (r.precedence < least.2) (bare r)
  | logical _ op l r =>
    parenthesize (mixesCoalesce op l || l.precedence < op.precedence) (bare l) ++
      ' ' :: op.symbol.toList ++
      ' ' :: parenthesize (mixesCoalesce op r || r.precedence < op.precedence + 1) (bare r)
  | call _ f args =>
    parenthesize (f.precedence < accessPrecedence) (bare f) ++ '(' :: list args ++ [')']
  | conditional _ t c a =>
    parenthesize (t.precedence < conditionalPrecedence + 1) (bare t) ++ " ? ".toList ++
      parenthesize (c.precedence < functionPrecedence) (bare c) ++ " : ".toList ++
      parenthesize (a.precedence < functionPrecedence) (bare a)
  | array _ es => '[' :: list es ++ [']']
  | member _ o p computed =>
    let least := match o with
      | number .. => bracketed
      | _ => accessPrecedence
    let object := parenthesize (o.precedence < least) (bare o)
    match computed, p.ident? with
    | false, some name => object ++ '.' :: name.toList
    | _, _ => object ++ '[' :: bare p ++ [']']
  | function _ name ps body arrow =>
    if arrow then
      '(' :: params ps ++ ") => ".toList ++
        parenthesize (body.precedence < functionPrecedence) (bare body)
    else
      let title := match name with
        | some name => ' ' :: name.toList
        | none => []
      "function".toList ++ title ++ '(' :: params ps ++ ") \x7b return ".toList ++ bare body ++
        "; \x7d".toList
  | success _ v =>
    ns ++ ".success(".toList ++ parenthesize (v.precedence < functionPrecedence) (bare v) ++ [')']
  | wrap _ f args =>
    ns ++ '(' :: parenthesize (f.precedence < accessPrecedence) (bare f) ++
      '(' :: list args ++ [')', ')']
  | depend _ lifted f args =>
    ns ++ ".depend(".toList ++ (if lifted then "true" else "false").toList ++ comma ++
      parenthesize (f.precedence < functionPrecedence) (bare f) ++ more args ++ [')']
  | operator _ name => ns ++ ".operators[".toList ++ Quoted.literal name ++ [']']
  | choice _ => ns ++ '[' :: Quoted.literal choiceName ++ [']']

/-- Expressions with commas between them. -/
def list : List Expr → List Char
  | [] => []
  | e :: es => parenthesize (e.precedence < functionPrecedence) (bare e) ++ more es

/-- Expressions with a comma before each. -/
def more : List Expr → List Char
  | [] => []
  | e :: es => comma ++ parenthesize (e.precedence < functionPrecedence) (bare e) ++ more es

/-- Parameters with commas between them. -/
def params : List Param → List Char
  | [] => []
  | p :: ps => param p ++ moreParams ps

/-- Parameters with a comma before each. -/
def moreParams : List Param → List Char
  | [] => []
  | p :: ps => comma ++ param p ++ moreParams ps

/-- A parameter with its default. -/
def param : Param → List Char
  | .required name _ => name.toList
  | .optional name _ e =>
    name.toList ++ " = ".toList ++ parenthesize (e.precedence < functionPrecedence) (bare e)

end

/-- The source text of an expression, with runtime forms on the namespace `ns`. -/
def print (ns : String) (e : Expr) : String := String.ofList (bare ns.toList e)

end Expr

end DeltaForm
