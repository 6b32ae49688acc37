import DeltaForm.Expr
import DeltaForm.Symbols

/-!
# Lambda form and free names

A tree is in lambda form if it has no runtime form. `Expr.freeNames` checks this and collects the
names that the tree reads and does not bind, in the order of their first use, and `Expr.normalize`
hands the tree on together with them. A function binds its own name and its parameters, in its
defaults and its body; the namespace and the declared symbols are bound everywhere.
-/

namespace DeltaForm

/-- A runtime form in a tree that should be in lambda form. -/
structure FormFault where
  /-- The name of the form. -/
  form : String
  /-- Its place. -/
  span : Span
  deriving DecidableEq, Repr

/-- What is wrong. -/
def FormFault.message (f : FormFault) : String :=
  f.form ++ " cannot appear in input; only lambda form is accepted"

/-- A tree in lambda form and its free names. -/
structure Normalized where
  /-- The tree. -/
  expr : Expr
  /-- The names, in the order of their first use. -/
  free : Symbols

namespace Expr

/-- The names that a function binds. -/
def boundNames (name : Option String) (params : List Param) : List String :=
  name.toList ++ params.map Param.name

mutual

/-- Adds to `free` the names that a tree reads and that are not `bound`. -/
def scan (bound : List String) (e : Expr) (free : Symbols) : Except FormFault Symbols :=
  match e with
  | number .. | string .. | bool .. | null _ | undefined _ => .ok free
  | ident _ name => .ok (if bound.contains name then free else free.insert name)
  | unary _ _ e => scan bound e free
  | binary _ _ l r => do scan bound r (← scan bound l free)
  | logical _ _ l r => do scan bound r (← scan bound l free)
  | call _ f args => do scanList bound args (← scan bound f free)
  | conditional _ t c a => do scan bound a (← scan bound c (← scan bound t free))
  | array _ es => scanList bound es free
  | member _ o p computed => do
    let free ← scan bound o free
    if computed then scan bound p free else .ok free
  | function _ name ps body _ => do
    let bound := boundNames name ps ++ bound
    scan bound body (← scanDefaults bound ps free)
  | success s _ => .error ⟨"success", s.span⟩
  | wrap s _ _ => .error ⟨"wrap", s.span⟩
  | depend s _ _ _ => .error ⟨"depend", s.span⟩
  | operator s _ => .error ⟨"operator", s.span⟩
  | choice s => .error ⟨"intrinsic", s.span⟩

/-- Scans trees one after another. -/
def scanList (bound : List String) (es : List Expr) (free : Symbols) : Except FormFault Symbols :=
  match es with
  | [] => .ok free
  | e :: es => do scanList bound es (← scan bound e free)

/-- Scans the defaults of parameters one after another. -/
def scanDefaults (bound : List String) (ps : List Param) (free : Symbols) :
    Except FormFault Symbols :=
  match ps with
  | [] => .ok free
  | .required _ _ :: ps => scanDefaults bound ps free
  | .optional _ _ e :: ps => do scanDefaults bound ps (← scan bound e free)

end

/-- The names that a tree in lambda form reads and that neither it nor the namespace nor the symbols
bind, in the order of their first use. -/
def freeNames (ns : String) (symbols : Symbols) (e : Expr) : Except FormFault Symbols :=
  scan (ns :: symbols.names) e .empty

/-- Checks that a tree is in lambda form, and gives it its free names. -/
def normalize (ns : String) (symbols : Symbols) (e : Expr) : Except FormFault Normalized := do
  let free ← e.freeNames ns symbols
  .ok ⟨e, free⟩

end Expr

end DeltaForm
