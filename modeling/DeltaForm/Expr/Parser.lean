import DeltaForm.Diagnostic
import DeltaForm.Expr
import DeltaForm.Token

/-!
# Reading expressions

A recursive descent parser with binding powers. `Parser.expr` reads an operand and goes on as long
as the next operator binds at least as tightly as asked for; a left-associative operator asks more
of its right operand than of its left one. Nodes are numbered in the order in which they are
finished, children before their parents.

Where an operand is wanted, a `(` starts the parameters of an arrow function or an expression in
parentheses. The parser is given a strategy for telling them apart. Programs are read with
`Parser.lookahead`: it is an arrow function if the bracket that closes is followed by `=>`.

The parser runs on a bound for the depth of its recursion, and `parse` gives it more than any list
of tokens can use up.
-/

namespace DeltaForm

/-- What the parser was looking for when it met another token. -/
inductive Wanted
  /-- A certain token. -/
  | token (t : Token)
  | name
  | propertyName
  | expression
  | endOfInput

namespace Wanted

/-- What messages call it. -/
def describe : Wanted → String
  | token t => t.describe
  | name => "name"
  | propertyName => "property name"
  | expression => "expression"
  | endOfInput => "end of input"

/-- What is wrong when `found` stands in its place. -/
def message (found : Token) : Wanted → String
  | token (.mark .rparen) =>
    match found with
    | .eof => "Unclosed '(' - missing ')'"
    | _ => "Expected ')', found " ++ found.describe
  | token (.mark .rbracket) =>
    match found with
    | .eof => "Unclosed '[' - missing ']'"
    | _ => "Expected ']', found " ++ found.describe
  | token (.mark .rbrace) => "Expected '\x7d' to close the function body, found " ++ found.describe
  | token (.mark .lbrace) => "Expected '\x7b' to start the function body, found " ++ found.describe
  | endOfInput => "Unexpected " ++ found.describe ++ " after expression"
  | wanted => "Expected " ++ wanted.describe ++ ", found " ++ found.describe

/-- What to do about it. -/
def hint (found : Token) : Wanted → Option String
  | token (.mark .lbrace) => some "function bodies look like '\x7b return expr; \x7d'"
  | token (.mark .rbrace) =>
    match found with
    | .mark .semi => some "a body holds a single 'return' statement"
    | _ => some "every '\x7b' needs a matching '\x7d'"
  | token (.word .ret) => some "lambda form allows only '\x7b return expr; \x7d' in a body"
  | token (.mark .arrow) => some "arrow functions are written '(a, b) => expr'"
  | token (.mark .rparen) =>
    match found with
    | .eof => some "add ')' to close the parenthesis"
    | _ => none
  | token (.mark .rbracket) =>
    match found with
    | .eof => some "add ']' to close the bracket"
    | _ => none
  | token (.mark .colon) => some "a conditional needs both branches: test ? a : b"
  | token _ => none
  | expression =>
    match found with
    | .mark .lbrace =>
      some "object literals are not supported; build values with functions or arrays"
    | .mark .assign => some "assignment is not an expression in lambda form"
    | .mark .semi => some "only a single expression is accepted"
    | .eof => some "the expression is incomplete"
    | _ => some "try a value, variable, or function call"
  | name =>
    match found with
    | .number _ => some "names can't start with a number"
    | _ => some "names start with a letter, '_' or '$'"
  | propertyName => some "use o[expr] for computed properties"
  | endOfInput =>
    match found with
    | .mark .semi => some "statements are not supported; pass one expression"
    | _ => some "only a single expression is accepted"

end Wanted

/-- A token in a place where another was wanted. -/
structure SyntaxFault where
  /-- What was wanted. -/
  wanted : Wanted
  /-- The token found and its place. -/
  found : Lexeme

/-- The message about a fault. -/
def SyntaxFault.diagnostic (f : SyntaxFault) : Diagnostic :=
  ⟨f.found.span, f.wanted.message f.found.token, f.wanted.hint f.found.token⟩

/-! ### Operators between operands -/

/-- An operator between two operands. -/
inductive Connective
  | binary (op : BinaryOp)
  | logical (op : LogicalOp)
  deriving DecidableEq, Repr

namespace Connective

/-- The node of a connective. -/
def node (site : Site) (left right : Expr) : Connective → Expr
  | binary op => .binary site op left right
  | logical op => .logical site op left right

/-- How tightly it binds its left and its right operand. -/
def power : Connective → Nat × Nat
  | logical .coalesce | logical .or => (4, 5)
  | logical .and => (6, 7)
  | binary .bitOr => (8, 9)
  | binary .bitXor => (10, 11)
  | binary .bitAnd => (12, 13)
  | binary .eq | binary .ne | binary .strictEq | binary .strictNe => (14, 15)
  | binary .lt | binary .gt | binary .le | binary .ge | binary .isIn => (16, 17)
  | binary .shl | binary .shr | binary .ushr => (18, 19)
  | binary .add | binary .sub => (20, 21)
  | binary .mul | binary .div | binary .mod => (22, 23)
  | binary .pow => (25, 24)

end Connective

namespace Token

/-- The operator between operands that a token is. -/
def connective? : Token → Option Connective
  | .mark .and => some (.logical .and)
  | .mark .or => some (.logical .or)
  | .mark .coalesce => some (.logical .coalesce)
  | .mark .plus => some (.binary .add)
  | .mark .minus => some (.binary .sub)
  | .mark .star => some (.binary .mul)
  | .mark .slash => some (.binary .div)
  | .mark .percent => some (.binary .mod)
  | .mark .power => some (.binary .pow)
  | .mark .eq => some (.binary .eq)
  | .mark .ne => some (.binary .ne)
  | .mark .strictEq => some (.binary .strictEq)
  | .mark .strictNe => some (.binary .strictNe)
  | .mark .lt => some (.binary .lt)
  | .mark .gt => some (.binary .gt)
  | .mark .le => some (.binary .le)
  | .mark .ge => some (.binary .ge)
  | .word .isIn => some (.binary .isIn)
  | .mark .amp => some (.binary .bitAnd)
  | .mark .bar => some (.binary .bitOr)
  | .mark .caret => some (.binary .bitXor)
  | .mark .shl => some (.binary .shl)
  | .mark .shr => some (.binary .shr)
  | .mark .ushr => some (.binary .ushr)
  | _ => none

/-- The operator before an operand that a token is. -/
def unary? : Token → Option UnaryOp
  | .mark .bang => some .not
  | .mark .minus => some .neg
  | .mark .plus => some .plus
  | .mark .tilde => some .bitNot
  | .word .typeof => some .typeof
  | .word .void => some .void
  | _ => none

/-- The property name that a token is after a point: a name or any reserved word. -/
def propertyName? : Token → Option String
  | .name s => some s
  | .word k => some k.text
  | .bool true => some "true"
  | .bool false => some "false"
  | .null => some "null"
  | .undefined => some "undefined"
  | _ => none

/-- Whether two tokens are of the same kind, whatever they carry. -/
def sameKind : Token → Token → Bool
  | .number _, .number _ => true
  | .string _, .string _ => true
  | .bool _, .bool _ => true
  | .null, .null => true
  | .undefined, .undefined => true
  | .name _, .name _ => true
  | .word a, .word b => a == b
  | .mark a, .mark b => a == b
  | .eof, .eof => true
  | _, _ => false

end Token

namespace Parser

/-- The binding power of a conditional. -/
def conditionalPower : Nat := 3

/-- The binding power of an operator before an operand. -/
def unaryPower : Nat := 26

/-- The binding power of calls and property access. -/
def accessPower : Nat := 28

/-! ### The state of the parser -/

/-- Where the parser stands. -/
structure Cursor where
  /-- The tokens to come. -/
  rest : List Lexeme
  /-- Where the token before them ended. -/
  before : Nat
  /-- The number of the next node. -/
  next : Nat

/-- Why there is no expression. -/
inductive Failure
  /-- A token is out of place. -/
  | fault (f : SyntaxFault)
  /-- The bound on the depth of the recursion was too small. -/
  | tooDeep

/-- A step of the parser. -/
abbrev Step (α : Type) := Cursor → Except Failure (α × Cursor)

/-- A step that consumes nothing. -/
def Step.pure {α : Type} (a : α) : Step α := fun c => .ok (a, c)

/-- One step after another. -/
def Step.bind {α β : Type} (s : Step α) (k : α → Step β) : Step β := fun c =>
  match s c with
  | .ok (a, c) => k a c
  | .error e => .error e

instance : Monad Step where
  pure := Step.pure
  bind := Step.bind

/-- The next token and its place; after the last one the input has ended. -/
def Cursor.current (c : Cursor) : Lexeme :=
  c.rest.headD ⟨.eof, ⟨c.before, c.before⟩⟩

/-- Looks at the next token. -/
def peek : Step Lexeme := fun c => .ok (c.current, c)

/-- Fails because of the next token. -/
def refuse {α : Type} (wanted : Wanted) : Step α := fun c => .error (.fault ⟨wanted, c.current⟩)

/-- Consumes the next token, unless it is the end of the input. -/
def advance : Step Span := fun c =>
  match c.rest with
  | ⟨.eof, span⟩ :: _ => .ok (span, c)
  | ⟨_, span⟩ :: rest => .ok (span, { c with rest := rest, before := span.stop })
  | [] => .ok (c.current.span, c)

/-- Where the last consumed token ended. -/
def lastEnd : Step Nat := fun c => .ok (c.before, c)

/-- Consumes a token of a kind. -/
def expect (t : Token) : Step Span := fun c =>
  if c.current.token.sameKind t then advance c else refuse (.token t) c

/-- Consumes a token of a kind if it is the next one, and tells whether it was. -/
def accept (t : Token) : Step Bool := fun c =>
  if c.current.token.sameKind t then (advance >>= fun _ => pure true) c else .ok (false, c)

/-- Consumes a name. -/
def expectName : Step String := fun c =>
  match c.current.token with
  | .name s => (advance >>= fun _ => pure s) c
  | _ => refuse .name c

/-- Consumes a property name. -/
def expectProperty : Step String := fun c =>
  match c.current.token.propertyName? with
  | some s => (advance >>= fun _ => pure s) c
  | none => refuse .propertyName c

/-- Finishes a node, giving it the next number. -/
def finish (span : Span) (node : Site → Expr) : Step Expr := fun c =>
  .ok (node ⟨some c.next, span⟩, { c with next := c.next + 1 })

/-! ### Looking ahead -/

/-- Whether the bracket that closes the innermost `depth` open ones is followed by `=>`. Brackets
are counted, whatever their kind. -/
def closesBeforeArrow (depth : Nat) : List Lexeme → Bool
  | [] => false
  | l :: rest =>
    match l.token with
    | .mark .lparen | .mark .lbracket | .mark .lbrace => closesBeforeArrow (depth + 1) rest
    | .mark .rparen | .mark .rbracket | .mark .rbrace =>
      if depth ≤ 1 then
        match rest with
        | ⟨.mark .arrow, _⟩ :: _ => true
        | _ => false
      else closesBeforeArrow (depth - 1) rest
    | .eof => false
    | _ => closesBeforeArrow depth rest

/-- Whether the bracket that opens here closes before `=>`. -/
def opensArrow (c : Cursor) : Bool := closesBeforeArrow 0 c.rest

/-- Whether the token after the next one is `=>`. -/
def arrowFollows (c : Cursor) : Bool :=
  match c.rest with
  | _ :: ⟨.mark .arrow, _⟩ :: _ => true
  | _ => false

/-- A way to read what starts with a `(`, made of the ways to read an arrow function and an
expression in parentheses. -/
abbrev Strategy := Step Expr → Step Expr → Step Expr

/-- Reads an arrow function if there is an arrow after the bracket that closes. -/
def lookahead : Strategy := fun arrow paren c => if opensArrow c then arrow c else paren c

/-! ### Expressions -/

/-- The node of a literal or a name. -/
def leaf? : Token → Option (Site → Expr)
  | .number v => some (.number · v)
  | .string s => some (.string · s)
  | .bool b => some (.bool · b)
  | .null => some .null
  | .undefined => some .undefined
  | .name s => some (.ident · s)
  | _ => none

variable (σ : Strategy)

mutual

/-- Reads an expression whose operators bind at least as tightly as `least`. -/
def expr (fuel : Nat) (least : Nat) : Step Expr := fun c =>
  match fuel with
  | 0 => .error .tooDeep
  | fuel + 1 =>
    (do
      let first ← peek
      let left ← operand fuel
      operators fuel least first.span.start left) c

/-- Reads the operators and accesses after `left`, an operand that starts at `start`. -/
def operators (fuel : Nat) (least start : Nat) (left : Expr) : Step Expr := fun c =>
  match fuel with
  | 0 => .error .tooDeep
  | fuel + 1 =>
    match c.current.token with
    | .mark .lparen | .mark .lbracket | .mark .dot =>
      if accessPower < least then .ok (left, c)
      else (do
        let left ← access fuel left
        operators fuel least start left) c
    | .mark .question =>
      if conditionalPower < least then .ok (left, c)
      else (do
        let _ ← advance
        let consequent ← expr fuel 0
        let _ ← expect (.mark .colon)
        let alternate ← expr fuel conditionalPower
        let node ← finish ⟨start, alternate.span.stop⟩ (.conditional · left consequent alternate)
        operators fuel least start node) c
    | t =>
      match t.connective? with
      | none => .ok (left, c)
      | some op =>
        if op.power.1 < least then .ok (left, c)
        else (do
          let _ ← advance
          let right ← expr fuel op.power.2
          let node ← finish ⟨start, right.span.stop⟩ (op.node · left right)
          operators fuel least start node) c

/-- Reads an operand: a literal, a name, a bracketed expression, a function, or an operator before
an operand. -/
def operand (fuel : Nat) : Step Expr := fun c =>
  match fuel with
  | 0 => .error .tooDeep
  | fuel + 1 =>
    let first := c.current
    match first.token.unary? with
    | some op =>
      (do
        let _ ← advance
        let e ← expr fuel unaryPower
        finish ⟨first.span.start, e.span.stop⟩ (.unary · op e)) c
    | none =>
      match first.token with
      | .mark .lparen => σ (arrow fuel) (paren fuel) c
      | .mark .lbracket =>
        (do
          let _ ← advance
          let es ← items fuel (.mark .rbracket)
          let stop ← lastEnd
          finish ⟨first.span.start, stop⟩ (.array · es)) c
      | .word .func => function fuel c
      | .name s =>
        if arrowFollows c then arrow fuel c
        else (advance >>= fun span => finish span (.ident · s)) c
      | t =>
        match leaf? t with
        | some node => (advance >>= fun span => finish span node) c
        | none => refuse .expression c

/-- Reads an expression in parentheses, whose place includes them. -/
def paren (fuel : Nat) : Step Expr := fun c =>
  match fuel with
  | 0 => .error .tooDeep
  | fuel + 1 =>
    (do
      let opening ← expect (.mark .lparen)
      let inner ← expr fuel 0
      let closing ← expect (.mark .rparen)
      pure (inner.withSpan ⟨opening.start, closing.stop⟩)) c

/-- Reads expressions with commas between them up to a closing bracket; a comma may stand before
it. -/
def items (fuel : Nat) (closing : Token) : Step (List Expr) := fun c =>
  match fuel with
  | 0 => .error .tooDeep
  | fuel + 1 =>
    if c.current.token.sameKind closing || c.current.token.sameKind .eof then
      (expect closing >>= fun _ => pure []) c
    else
      (do
        let e ← expr fuel 0
        if ← accept (.mark .comma) then
          let es ← items fuel closing
          pure (e :: es)
        else
          let _ ← expect closing
          pure [e]) c

/-- Reads the call or property access after `left`. -/
def access (fuel : Nat) (left : Expr) : Step Expr := fun c =>
  match fuel with
  | 0 => .error .tooDeep
  | fuel + 1 =>
    let start := left.span.start
    match c.current.token with
    | .mark .lparen =>
      (do
        let _ ← advance
        let args ← items fuel (.mark .rparen)
        let stop ← lastEnd
        finish ⟨start, stop⟩ (.call · left args)) c
    | .mark .lbracket =>
      (do
        let _ ← advance
        let property ← expr fuel 0
        let closing ← expect (.mark .rbracket)
        finish ⟨start, closing.stop⟩ (.member · left property true)) c
    | _ =>
      (do
        let _ ← expect (.mark .dot)
        let place ← peek
        let name ← expectProperty
        let property ← finish place.span (.ident · name)
        finish ⟨start, place.span.stop⟩ (.member · left property false)) c

/-- Reads an arrow function. -/
def arrow (fuel : Nat) : Step Expr := fun c =>
  match fuel with
  | 0 => .error .tooDeep
  | fuel + 1 =>
    let first := c.current
    (do
      let ps ← (match first.token with
        | .mark .lparen => params fuel
        | _ => expectName >>= fun name => pure [.required name first.span])
      let _ ← expect (.mark .arrow)
      let next ← peek
      let body ← (match next.token with
        | .mark .lbrace => block fuel
        | _ => expr fuel 0)
      let last ← lastEnd
      finish ⟨first.span.start, max body.span.stop last⟩ (.function · none ps body true)) c

/-- Reads a function with the word `function`. -/
def function (fuel : Nat) : Step Expr := fun c =>
  match fuel with
  | 0 => .error .tooDeep
  | fuel + 1 =>
    (do
      let start ← expect (.word .func)
      let next ← peek
      let name ← (match next.token with
        | .name _ => expectName >>= fun name => pure (some name)
        | _ => pure none)
      let ps ← params fuel
      let body ← block fuel
      let stop ← lastEnd
      finish ⟨start.start, stop⟩ (.function · name ps body false)) c

/-- Reads parameters in parentheses. -/
def params (fuel : Nat) : Step (List Param) := fun c =>
  match fuel with
  | 0 => .error .tooDeep
  | fuel + 1 => (expect (.mark .lparen) >>= fun _ => moreParams fuel) c

/-- Reads parameters with commas between them up to the closing parenthesis; a comma may stand
before it. -/
def moreParams (fuel : Nat) : Step (List Param) := fun c =>
  match fuel with
  | 0 => .error .tooDeep
  | fuel + 1 =>
    if c.current.token.sameKind (.mark .rparen) || c.current.token.sameKind .eof then
      (expect (.mark .rparen) >>= fun _ => pure []) c
    else
      let start := c.current.span.start
      (do
        let name ← expectName
        let default ← (do
          if ← accept (.mark .assign) then some <$> expr fuel 0 else pure none)
        let stop ← lastEnd
        let p : Param := match default with
          | none => .required name ⟨start, stop⟩
          | some e => .optional name ⟨start, stop⟩ e
        if ← accept (.mark .comma) then
          let ps ← moreParams fuel
          pure (p :: ps)
        else
          let _ ← expect (.mark .rparen)
          pure [p]) c

/-- Reads the body of a function in braces: nothing, or one `return`. -/
def block (fuel : Nat) : Step Expr := fun c =>
  match fuel with
  | 0 => .error .tooDeep
  | fuel + 1 =>
    (do
      let opening ← expect (.mark .lbrace)
      let next ← peek
      match next.token with
      | .mark .rbrace =>
        let closing ← advance
        finish (opening.join closing) .undefined
      | .word .ret =>
        let word ← advance
        let next ← peek
        let body ← (match next.token with
          | .mark .semi | .mark .rbrace => finish word .undefined
          | _ => expr fuel 0)
        let _ ← accept (.mark .semi)
        let _ ← expect (.mark .rbrace)
        pure body
      | _ => refuse (.token (.word .ret))) c

end

/-- A bound for the depth of the recursion on a list of tokens. -/
def depthBound (tokens : List Lexeme) : Nat := 8 * (tokens.length + 1)

end Parser

/-- What the parser makes of a source: a tree, unless it met a fault before its end, and what is
wrong. -/
structure Parsed where
  /-- The tree. -/
  expr : Option Expr
  /-- What is wrong. -/
  faults : List Diagnostic

/-- Whether there is a tree and nothing is wrong. -/
def Parsed.isOk (p : Parsed) : Bool := p.faults.isEmpty && p.expr.isSome

/-- Reads one expression from a list of tokens that ends with the end of the input. Tokens after the
expression are a fault, but there is a tree all the same. -/
def Parser.parse (σ : Strategy) (tokens : List Lexeme) : Parsed :=
  match expr σ (depthBound tokens) 0 ⟨tokens, 0, 0⟩ with
  | .ok (e, c) =>
    match c.current.token with
    | .eof => ⟨some e, []⟩
    | _ => ⟨some e, [(SyntaxFault.mk .endOfInput c.current).diagnostic]⟩
  | .error (.fault f) => ⟨none, [f.diagnostic]⟩
  | .error .tooDeep => ⟨none, []⟩

/-- Reads one expression from a list of tokens, looking ahead for arrows. -/
def parseTokens (tokens : List Lexeme) : Parsed := Parser.parse Parser.lookahead tokens

end DeltaForm
