import DeltaForm.Number.Word
import DeltaForm.Value.Equality
import DeltaForm.Value.Property

/-!
# Operators on values

What the operators of the language compute. `+` joins texts when one of its operands is a string, a
container or a function, and adds numbers otherwise. Strings are compared by code points, all else
by numbers; the bitwise operators work on 32-bit words.
-/

namespace DeltaForm

namespace Value

/-- Whether `+` joins texts because of this operand. -/
def isTextual : Value → Bool
  | string _ | array .. | object .. | closure .. | native .. => true
  | _ => false

/-- The sum of two values. -/
def add (a b : Value) : Value :=
  if a.isTextual || b.isTextual then string (a.text ++ b.text)
  else number (a.toNumber + b.toNumber)

/-- The order of two values, if they have one. -/
def order (a b : Value) : Option Ordering :=
  match a, b with
  | string s, string t => some (if s < t then .lt else if s = t then .eq else .gt)
  | _, _ =>
    let x := a.toNumber
    let y := b.toNumber
    if x < y then some .lt else if x == y then some .eq else if y < x then some .gt else none

/-- The word of a value. -/
def toWord (v : Value) : BitVec 32 := Word.ofFloat v.toNumber

/-- The value of an operator on two operands. -/
def binary (op : BinaryOp) (a b : Value) : Except RunFault Value :=
  match op with
  | .add => .ok (add a b)
  | .sub => .ok (number (a.toNumber - b.toNumber))
  | .mul => .ok (number (a.toNumber * b.toNumber))
  | .div => .ok (number (a.toNumber / b.toNumber))
  | .mod => .ok (number (Number.remainder a.toNumber b.toNumber))
  | .pow => .ok (number (a.toNumber.pow b.toNumber))
  | .eq => .ok (bool (looseEquals a b))
  | .ne => .ok (bool (!looseEquals a b))
  | .strictEq => .ok (bool (strictEquals a b))
  | .strictNe => .ok (bool (!strictEquals a b))
  | .lt => .ok (bool (order a b == some .lt))
  | .gt => .ok (bool (order a b == some .gt))
  | .le => .ok (bool (order a b == some .lt || order a b == some .eq))
  | .ge => .ok (bool (order a b == some .gt || order a b == some .eq))
  | .isIn => (hasProperty b a.text).map bool
  | .bitAnd => .ok (number (Word.signed (a.toWord &&& b.toWord)))
  | .bitOr => .ok (number (Word.signed (a.toWord ||| b.toWord)))
  | .bitXor => .ok (number (Word.signed (a.toWord ^^^ b.toWord)))
  | .shl => .ok (number (Word.signed (Word.shl a.toWord b.toWord)))
  | .shr => .ok (number (Word.signed (Word.shr a.toWord b.toWord)))
  | .ushr => .ok (number (Word.unsigned (Word.ushr a.toWord b.toWord)))

/-- The value of an operator on one operand. -/
def unary (op : UnaryOp) (v : Value) : Value :=
  match op with
  | .not => bool !v.isTruthy
  | .neg => number (-v.toNumber)
  | .plus => number v.toNumber
  | .bitNot => number (Word.signed (~~~v.toWord))
  | .typeof => string v.typeOf
  | .void => undefined

/-- Whether the first operand of a short-circuiting operator is its result. -/
def decides (op : LogicalOp) (v : Value) : Bool :=
  match op with
  | .and => !v.isTruthy
  | .or => v.isTruthy
  | .coalesce => !v.isNullish

end Value

namespace Native

/-- The names of the operators that the runtime knows, in table order. -/
def operatorNames : List String :=
  BinaryOp.all.map BinaryOp.symbol ++ LogicalOp.all.map LogicalOp.symbol ++
    UnaryOp.all.map UnaryOp.operatorName ++ [memberOperator, arrayOperator]

/-- The operator of the runtime with a name. -/
def ofOperator? (name : String) : Option Native :=
  ((BinaryOp.all.find? (·.symbol = name)).map binary).orElse fun _ =>
  ((LogicalOp.all.find? (·.symbol = name)).map logical).orElse fun _ =>
  ((UnaryOp.all.find? (·.operatorName = name)).map unary).orElse fun _ =>
  if name = memberOperator then some member
  else if name = arrayOperator then some array
  else none

end Native

end DeltaForm
