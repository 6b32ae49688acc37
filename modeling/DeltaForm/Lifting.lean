import DeltaForm.Expr.Delta
import DeltaForm.Ty

/-!
# Lifting

A state cannot be used directly: an operator, call or property access with a state among its
operands has to wait for it. `Expr.lift` finds the type of each node from the types of its operands,
and turns the nodes that have to wait into calls of the dependency runtime; in these, operands that
are no states become resolved ones. Nodes without states are left as they are, except that delta
expressions lose the step through the namespace and have the type of functions that yield a state.
-/

namespace DeltaForm

/-- A tree and its type. -/
structure Lifted where
  /-- The type. -/
  ty : Ty
  /-- The tree. -/
  expr : Expr

/-- A conditional whose branches have different types, at least one of them a function type. -/
structure Undecidable where
  /-- The type of the consequent. -/
  consequent : Ty
  /-- The type of the alternate. -/
  alternate : Ty
  /-- The place of the conditional. -/
  span : Span
  deriving DecidableEq, Repr

/-- What is wrong. -/
def Undecidable.message (u : Undecidable) : String :=
  "The following expression is too hard to figure out. The consequent returns " ++
    u.consequent.name ++ " but the alternate returns " ++ u.alternate.name ++
    ". I can currently only handle non-function mismatches."

namespace Lifted

/-- The tree as a state: a plain one becomes a resolved state. -/
def asState (l : Lifted) : Expr :=
  if l.ty.isState then l.expr else .success (.synthetic l.expr.span) l.expr

/-- Whether a node with these operands has to wait. -/
def waits (operands : List Lifted) : Bool := (Ty.concatAll (operands.map ty)).isState

/-- The call of the runtime that waits for `args`. -/
def depend (span : Span) (lifted : Bool) (callee : Expr) (args : List Expr) : Lifted :=
  ⟨.state, .depend (.synthetic span) lifted callee args⟩

/-- An operator on its operands, which is `plain` if it has not to wait. -/
def operation (span : Span) (name : String) (operands : List Lifted) (plain : Expr) : Lifted :=
  if waits operands then
    depend span true (.operator (.synthetic span) name) (operands.map asState)
  else ⟨.value, plain⟩

/-- A call. A function that yields a state is called by the runtime. -/
def application (site : Site) (callee : Lifted) (args : List Lifted) : Lifted :=
  if waits (callee :: args) then
    depend site.span (callee.ty != .toState) callee.asState (args.map asState)
  else if callee.ty = .toState then ⟨.state, .wrap site callee.expr (args.map expr)⟩
  else ⟨callee.ty.returns, .call site callee.expr (args.map expr)⟩

/-- Access to a property by its name, which is `""` if it is not given by an identifier. -/
def namedMember (site : Site) (object : Lifted) (property : Expr) : Lifted :=
  let key := .string (.synthetic property.span) (property.ident?.getD "")
  operation site.span memberOperator [object, ⟨.value, key⟩]
    (.member site object.expr property false)

/-- Access to a property by a computed key. -/
def computedMember (site : Site) (object property : Lifted) : Lifted :=
  operation site.span memberOperator [object, property]
    (.member site object.expr property.expr true)

/-- A function without parameters that delays a branch, as a resolved state. -/
def delayed (body : Expr) : Expr :=
  let site := Site.synthetic body.span
  .success site (.function site none [] body true)

/-- The type of a conditional. Equal types are kept, so that a function can still be called; a
function meets no other type. -/
def branchTy (span : Span) (consequent alternate : Lifted) : Except Undecidable Ty :=
  if consequent.ty = alternate.ty then .ok consequent.ty
  else if consequent.ty.isFunction || alternate.ty.isFunction then
    .error ⟨consequent.ty, alternate.ty, span⟩
  else .ok (consequent.ty.concat alternate.ty)

/-- A conditional of type `ty`. If the test is a state, the runtime chooses between the delayed
branches. -/
def choose (site : Site) (ty : Ty) (test consequent alternate : Lifted) : Lifted :=
  let branch (l : Lifted) := if ty.isState then l.asState else l.expr
  if test.ty.isState then
    depend site.span false (.choice (.synthetic site.span))
      [test.expr, delayed (branch consequent), delayed (branch alternate)]
  else ⟨ty, .conditional site test.expr (branch consequent) (branch alternate)⟩

end Lifted

namespace Expr

variable (ns : String)

mutual

/-- Lifts a tree with delta expressions of the namespace `ns`. -/
def lift : Expr → Except Undecidable Lifted
  | unary site op e => do
    let e ← lift e
    .ok (.operation site.span op.operatorName [e] (.unary site op e.expr))
  | binary site op l r => do
    let l ← lift l
    let r ← lift r
    .ok (.operation site.span op.symbol [l, r] (.binary site op l.expr r.expr))
  | logical site op l r => do
    let l ← lift l
    let r ← lift r
    .ok (.operation site.span op.symbol [l, r] (.logical site op l.expr r.expr))
  | call site f args => do
    let f ← lift f
    let args ← liftList args
    .ok (.application site f args)
  | conditional site t c a => do
    let c ← lift c
    let a ← lift a
    let ty ← Lifted.branchTy site.span c a
    let t ← lift t
    .ok (.choose site ty t c a)
  | array site es => do
    let es ← liftList es
    .ok (.operation site.span arrayOperator es (.array site (es.map Lifted.expr)))
  | member site o p false => do
    let o ← lift o
    .ok (.namedMember site o p)
  | member site o p true =>
    match p, o with
    | ident ps name, ident os hop =>
      if hop = ns then .ok ⟨.toState, ident ⟨site.id, ps.span⟩ name⟩
      else .ok (.computedMember site ⟨.value, ident os hop⟩ ⟨.value, ident ps name⟩)
    | ident ps name, member os inner (ident hs hop) false =>
      if hop = ns then do
        let inner ← lift inner
        .ok ⟨.toState, (Lifted.namedMember site inner (ident ps name)).expr⟩
      else do
        let o ← lift (member os inner (ident hs hop) false)
        .ok (.computedMember site o ⟨.value, ident ps name⟩)
    | p, o => do
      let o ← lift o
      let p ← lift p
      .ok (.computedMember site o p)
  | function site name ps body arrow => do
    let ps ← liftParams ps
    let body ← lift body
    let ty := if body.ty.isState then .toState else .valueToValue
    .ok ⟨ty, .function site name ps body.expr arrow⟩
  | success site v => do
    let v ← lift v
    .ok ⟨.state, .success site v.expr⟩
  | wrap site f args => do
    let f ← lift f
    let args ← liftList args
    .ok ⟨.state, .wrap site f.expr (args.map Lifted.expr)⟩
  | depend site lifted f args => do
    let f ← lift f
    let args ← liftList args
    .ok ⟨.state, .depend site lifted f.expr (args.map Lifted.expr)⟩
  | leaf => .ok ⟨.value, leaf⟩

/-- Lifts trees one after another. -/
def liftList : List Expr → Except Undecidable (List Lifted)
  | [] => .ok []
  | e :: es => do
    let e ← lift e
    let es ← liftList es
    .ok (e :: es)

/-- Lifts the defaults of parameters. -/
def liftParams : List Param → Except Undecidable (List Param)
  | [] => .ok []
  | .required name span :: ps => do
    let ps ← liftParams ps
    .ok (.required name span :: ps)
  | .optional name span e :: ps => do
    let e ← lift e
    let ps ← liftParams ps
    .ok (.optional name span e.expr :: ps)

end

end Expr

end DeltaForm
