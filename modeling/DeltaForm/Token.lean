import DeltaForm.Span
import DeltaForm.Number.Layout
import DeltaForm.Text.Quoted

/-!
# Tokens

The tokens of the language: literals, names, keywords, the operator and bracket marks, and the end
of the input. A `Lexeme` is a token with its place in the source.
-/

namespace DeltaForm

/-- The words that are no names and no literals. -/
inductive Keyword
  | func | ret | typeof | void | isIn
  deriving DecidableEq, Repr

/-- The spelling of a keyword. -/
def Keyword.text : Keyword → String
  | .func => "function"
  | .ret => "return"
  | .typeof => "typeof"
  | .void => "void"
  | .isIn => "in"

/-- The name of a keyword in token listings. -/
def Keyword.label : Keyword → String
  | .func => "Function"
  | .ret => "Return"
  | .typeof => "Typeof"
  | .void => "Void"
  | .isIn => "In"

/-- The operator and bracket marks. -/
inductive Mark
  | plus | minus | star | power | slash | percent
  | assign | eq | strictEq | ne | strictNe | lt | gt | le | ge
  | shl | shr | ushr | amp | bar | caret | tilde | bang
  | and | or | coalesce | question | colon | dot | arrow
  | lparen | rparen | lbracket | rbracket | lbrace | rbrace | comma | semi
  deriving DecidableEq, Repr

namespace Mark

/-- The spelling of a mark. -/
def text : Mark → String
  | plus => "+"
  | minus => "-"
  | star => "*"
  | power => "**"
  | slash => "/"
  | percent => "%"
  | assign => "="
  | eq => "=="
  | strictEq => "==="
  | ne => "!="
  | strictNe => "!=="
  | lt => "<"
  | gt => ">"
  | le => "<="
  | ge => ">="
  | shl => "<<"
  | shr => ">>"
  | ushr => ">>>"
  | amp => "&"
  | bar => "|"
  | caret => "^"
  | tilde => "~"
  | bang => "!"
  | and => "&&"
  | or => "||"
  | coalesce => "??"
  | question => "?"
  | colon => ":"
  | dot => "."
  | arrow => "=>"
  | lparen => "("
  | rparen => ")"
  | lbracket => "["
  | rbracket => "]"
  | lbrace => "\x7b"
  | rbrace => "\x7d"
  | comma => ","
  | semi => ";"

/-- The name of a mark in token listings. -/
def label : Mark → String
  | plus => "Plus"
  | minus => "Minus"
  | star => "Star"
  | power => "StarStar"
  | slash => "Slash"
  | percent => "Percent"
  | assign => "Eq"
  | eq => "EqEq"
  | strictEq => "EqEqEq"
  | ne => "BangEq"
  | strictNe => "BangEqEq"
  | lt => "Lt"
  | gt => "Gt"
  | le => "LtEq"
  | ge => "GtEq"
  | shl => "LtLt"
  | shr => "GtGt"
  | ushr => "GtGtGt"
  | amp => "Amp"
  | bar => "Pipe"
  | caret => "Caret"
  | tilde => "Tilde"
  | bang => "Bang"
  | and => "AmpAmp"
  | or => "PipePipe"
  | coalesce => "QuestionQuestion"
  | question => "Question"
  | colon => "Colon"
  | dot => "Dot"
  | arrow => "FatArrow"
  | lparen => "LParen"
  | rparen => "RParen"
  | lbracket => "LBracket"
  | rbracket => "RBracket"
  | lbrace => "LBrace"
  | rbrace => "RBrace"
  | comma => "Comma"
  | semi => "Semi"

/-- All marks, the longer spellings first. -/
def all : List Mark :=
  [strictEq, strictNe, ushr,
   power, eq, ne, le, ge, shl, shr, and, or, coalesce, arrow,
   plus, minus, star, slash, percent, assign, lt, gt, amp, bar, caret, tilde, bang,
   question, colon, dot, lparen, rparen, lbracket, rbracket, lbrace, rbrace, comma, semi]

/-- The longest mark that a text starts with. -/
def longest? (cs : List Char) : Option Mark :=
  all.find? fun m => m.text.toList.isPrefixOf cs

end Mark

/-- A token of the language. -/
inductive Token
  | number (value : Float)
  | string (value : String)
  | bool (value : Bool)
  | null
  | undefined
  | name (value : String)
  | word (keyword : Keyword)
  | mark (mark : Mark)
  | eof
  deriving DecidableEq, Repr, Inhabited

namespace Token

/-- The tokens spelled like a name that are none. -/
def reserved : List (String × Token) :=
  [Keyword.func, .ret, .typeof, .void, .isIn].map (fun k => (k.text, word k)) ++
    [("true", bool true), ("false", bool false), ("null", null), ("undefined", undefined)]

/-- The token spelled like a name: a reserved word or a name. -/
def ofWord (s : String) : Token := (reserved.lookup s).getD (name s)

/-- What messages call a token. -/
def describe : Token → String
  | number _ => "a number"
  | string _ => "a string"
  | bool _ => "'true' or 'false'"
  | null => "'null'"
  | undefined => "'undefined'"
  | name _ => "a name"
  | word k => "'" ++ k.text ++ "'"
  | mark m => "'" ++ m.text ++ "'"
  | eof => "end of input"

/-- A token in a listing. -/
def listing : Token → String
  | number v => "Number(" ++ String.ofList (Layout.listing.write v) ++ ")"
  | string s => "String(" ++ Quoted.display s ++ ")"
  | bool true => "Bool(true)"
  | bool false => "Bool(false)"
  | null => "Null"
  | undefined => "Undefined"
  | name s => "Ident(" ++ Quoted.display s ++ ")"
  | word k => k.label
  | mark m => m.label
  | eof => "Eof"

end Token

/-- A token and its place in the source. -/
structure Lexeme where
  /-- The token. -/
  token : Token
  /-- Where it stands. -/
  span : Span
  deriving DecidableEq, Repr, Inhabited

end DeltaForm
