import DeltaForm.Operator
import DeltaForm.Span

/-!
# Expressions

A program is one expression in lambda form: literals, names, operators, calls, property access,
arrays, conditionals and function literals. The remaining constructors, the runtime forms, stand for
calls into the dependency runtime and only appear in lifted trees.

Every node has a `Site`: its number, which nodes made by a tree transformation lack, and its place
in the source.
-/

namespace DeltaForm

/-- The number of a node and its place in the source. -/
structure Site where
  /-- The number that the parser gave the node; none for a node that it did not make. -/
  id : Option Nat
  /-- The place in the source. -/
  span : Span
  deriving DecidableEq, Repr, Inhabited

/-- The site of a node that the parser did not make. -/
def Site.synthetic (span : Span) : Site := ⟨none, span⟩

mutual

/-- An expression. -/
inductive Expr
  | number (site : Site) (value : Float)
  | string (site : Site) (value : String)
  | bool (site : Site) (value : Bool)
  | null (site : Site)
  | undefined (site : Site)
  | ident (site : Site) (name : String)
  | unary (site : Site) (op : UnaryOp) (operand : Expr)
  | binary (site : Site) (op : BinaryOp) (left right : Expr)
  | logical (site : Site) (op : LogicalOp) (left right : Expr)
  | call (site : Site) (callee : Expr) (args : List Expr)
  | conditional (site : Site) (test consequent alternate : Expr)
  | array (site : Site) (elements : List Expr)
  /-- Property access. If `computed`, the property is evaluated (`o[e]`), else it is an identifier
  that names the property (`o.p`). -/
  | member (site : Site) (object property : Expr) (computed : Bool)
  | function (site : Site) (name : Option String) (params : List Param) (body : Expr) (arrow : Bool)
  /-- A state that is already resolved. -/
  | success (site : Site) (value : Expr)
  /-- A deferred call of a function that yields a state. -/
  | wrap (site : Site) (callee : Expr) (args : List Expr)
  /-- A call that waits for its operands, which are states. If `lifted`, its result is a plain
  value, else a state. -/
  | depend (site : Site) (lifted : Bool) (callee : Expr) (args : List Expr)
  /-- The operator of the runtime with a name. -/
  | operator (site : Site) (name : String)
  /-- The conditional combinator of the runtime. -/
  | choice (site : Site)

/-- A parameter of a function, which may have a default. -/
inductive Param
  | required (name : String) (span : Span)
  | optional (name : String) (span : Span) (default : Expr)

end

instance : Inhabited Expr := ⟨.undefined default⟩

namespace Param

/-- The name of a parameter. -/
def name : Param → String
  | required name _ => name
  | optional name _ _ => name

/-- The place of a parameter. -/
def span : Param → Span
  | required _ span => span
  | optional _ span _ => span

/-- The default of a parameter. -/
def default? : Param → Option Expr
  | required _ _ => none
  | optional _ _ default => some default

end Param

namespace Expr

/-- The site of a node. -/
def site : Expr → Site
  | number s _ => s
  | string s _ => s
  | bool s _ => s
  | null s => s
  | undefined s => s
  | ident s _ => s
  | unary s _ _ => s
  | binary s _ _ _ => s
  | logical s _ _ _ => s
  | call s _ _ => s
  | conditional s _ _ _ => s
  | array s _ => s
  | member s _ _ _ => s
  | function s _ _ _ _ => s
  | success s _ => s
  | wrap s _ _ => s
  | depend s _ _ _ => s
  | operator s _ => s
  | choice s => s

/-- The place of a node. -/
def span (e : Expr) : Span := e.site.span

/-- The same node at another site. -/
def withSite (s : Site) : Expr → Expr
  | number _ v => number s v
  | string _ v => string s v
  | bool _ v => bool s v
  | null _ => null s
  | undefined _ => undefined s
  | ident _ n => ident s n
  | unary _ op e => unary s op e
  | binary _ op l r => binary s op l r
  | logical _ op l r => logical s op l r
  | call _ f args => call s f args
  | conditional _ t c a => conditional s t c a
  | array _ es => array s es
  | member _ o p computed => member s o p computed
  | function _ n ps b arrow => function s n ps b arrow
  | success _ v => success s v
  | wrap _ f args => wrap s f args
  | depend _ lifted f args => depend s lifted f args
  | operator _ n => operator s n
  | choice _ => choice s

/-- The same node at another place. -/
def withSpan (span : Span) (e : Expr) : Expr := e.withSite ⟨e.site.id, span⟩

/-- The name, if the expression is one. -/
def ident? : Expr → Option String
  | ident _ name => some name
  | _ => none

/-- Whether the node is a runtime form. -/
def isRuntimeForm : Expr → Bool
  | success .. | wrap .. | depend .. | operator .. | choice _ => true
  | _ => false

end Expr

/-- The name of the runtime's conditional combinator. -/
def choiceName : String := "if"

/-- The namespace through which programs reach the runtime, unless told otherwise. -/
def defaultNamespace : String := "δ"

end DeltaForm
