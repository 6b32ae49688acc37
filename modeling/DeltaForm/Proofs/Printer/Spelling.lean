import DeltaForm.Expr.Printer
import DeltaForm.Proofs.Lexer.Numbers
import DeltaForm.Proofs.Parser.Places

/-!
# Texts that stand for expressions

`Stands p point cs e` says that the text `cs` can be put at a place `p` of a source and is read as
the expression `e` there: it is cut into tokens that fit the place. It has to be followed by a
delimiter, so that its last token ends with it, or by a point if `point` allows that. There is one
rule for each kind of node, which puts its text together from those of its parts.
-/

namespace DeltaForm

open DeltaForm.Lexer DeltaForm.Parser

/-! ### Operators and their tokens -/

/-- The token of an operator before an operand. -/
def UnaryOp.token : UnaryOp → Token
  | .not => .mark .bang
  | .neg => .mark .minus
  | .plus => .mark .plus
  | .bitNot => .mark .tilde
  | .typeof => .word .typeof
  | .void => .word .void

/-- The token of an operator between operands. -/
def Connective.token : Connective → Token
  | .logical .and => .mark .and
  | .logical .or => .mark .or
  | .logical .coalesce => .mark .coalesce
  | .binary .add => .mark .plus
  | .binary .sub => .mark .minus
  | .binary .mul => .mark .star
  | .binary .div => .mark .slash
  | .binary .mod => .mark .percent
  | .binary .pow => .mark .power
  | .binary .eq => .mark .eq
  | .binary .ne => .mark .ne
  | .binary .strictEq => .mark .strictEq
  | .binary .strictNe => .mark .strictNe
  | .binary .lt => .mark .lt
  | .binary .gt => .mark .gt
  | .binary .le => .mark .le
  | .binary .ge => .mark .ge
  | .binary .isIn => .word .isIn
  | .binary .bitAnd => .mark .amp
  | .binary .bitOr => .mark .bar
  | .binary .bitXor => .mark .caret
  | .binary .shl => .mark .shl
  | .binary .shr => .mark .shr
  | .binary .ushr => .mark .ushr

/-- The spelling of an operator between operands. -/
def Connective.symbol : Connective → String
  | .logical op => op.symbol
  | .binary op => op.symbol

theorem unary?_token (op : UnaryOp) : op.token.unary? = some op := by cases op <;> rfl

theorem connective?_token (op : Connective) : op.token.connective? = some op := by
  rcases op with op | op <;> cases op <;> rfl

namespace Lexer

variable {rest : List Char}

theorem lexes_keyword (k : Keyword) (hrest : delimited false rest = true) :
    Lexes (k.text.toList ++ rest) [.word k] rest := by
  have hword : isWord k.text.toList = true := by cases k <;> rfl
  have htoken : Token.ofWord (String.ofList k.text.toList) = .word k := by
    rw [String.ofList_toList]
    cases k <;> rfl
  rw [← htoken]
  exact lexes_word hword (endsWord_of_delimited hrest)

/-- A mark between blanks. -/
theorem lexes_spaced (m : Mark) (rest : List Char) :
    Lexes (' ' :: (m.text.toList ++ ' ' :: rest)) [.mark m] rest :=
  (lexes_blank _).trans ((lexes_mark_blank m rest).trans (lexes_blank rest))

theorem lexes_connective_mark {op : Connective} {m : Mark} (ht : op.token = .mark m)
    (hs : op.symbol = m.text) (rest : List Char) :
    Lexes (' ' :: (op.symbol.toList ++ ' ' :: rest)) [op.token] rest := by
  rw [ht, hs]
  exact lexes_spaced m rest

theorem lexes_connective (op : Connective) (rest : List Char) :
    Lexes (' ' :: (op.symbol.toList ++ ' ' :: rest)) [op.token] rest := by
  have hkeyword : Lexes (' ' :: (Keyword.isIn.text.toList ++ ' ' :: rest)) [.word .isIn] rest :=
    (lexes_blank _).trans ((lexes_keyword .isIn rfl).trans (lexes_blank rest))
  rcases op with op | op <;> cases op
  case binary.isIn => exact hkeyword
  all_goals exact lexes_connective_mark rfl rfl rest

end Lexer

/-! ### Texts and their tokens -/

/-- The text is cut into the tokens, whatever comes after it: a delimiter, or a point if `point`
allows one. -/
def Spells (point : Bool) (cs : List Char) (ts : List Token) : Prop :=
  ∀ rest, delimited point rest = true → Lexes (cs ++ rest) ts rest

/-- The text is not empty and does not start with `=`, which a `!` before it would take. -/
def StartsPlain (cs : List Char) : Prop := ∃ c cs', cs = c :: cs' ∧ c ≠ '='

/-- The text is read as the tree at every place that asks no more than `p`. -/
def Stands (p : Place) (point : Bool) (cs : List Char) (e : Expr) : Prop :=
  ∃ ts, StartsPlain cs ∧ Spells point cs ts ∧ Fits p ts e

/-- The text is read as the trees before a closing bracket. -/
def StandItems (cs : List Char) (trees : List Expr) : Prop :=
  ∃ ts, Spells false cs ts ∧ FitsItems ts trees

/-- The text is read as the parameter before a comma or the closing parenthesis. -/
def StandParam (cs : List Char) (a : Param) : Prop :=
  ∃ ts, Spells false cs ts ∧ FitsParam ts a

/-- The text is read as the parameters before the closing parenthesis. -/
def StandParams (cs : List Char) (ps : List Param) : Prop :=
  ∃ ts, Spells false cs ts ∧ FitsParams ts ps

variable {p q : Place} {point point' : Bool} {cs ds es : List Char} {e f : Expr}
  {ts : List Token} {trees : List Expr} {a : Param} {ps : List Param} {name : String}

theorem StartsPlain.append (h : StartsPlain cs) (ds : List Char) : StartsPlain (cs ++ ds) := by
  obtain ⟨c, cs', rfl, hc⟩ := h
  exact ⟨c, cs' ++ ds, rfl, hc⟩

theorem Spells.mono (h : Spells point cs ts) (hpoint : point' = true → point = true) :
    Spells point' cs ts := by
  intro rest hrest
  refine h rest ?_
  cases rest with
  | nil => rfl
  | cons c rest =>
    simp only [delimited, List.head?_cons, Option.all_some, Bool.or_eq_true,
      Bool.and_eq_true] at hrest ⊢
    rcases hrest with hc | ⟨hp, hc⟩
    · exact .inl hc
    · exact .inr ⟨hpoint hp, hc⟩

theorem Stands.mono (h : Stands q point cs e) (hpq : p ≤ q)
    (hpoint : point' = true → point = true) : Stands p point' cs e := by
  obtain ⟨ts, hstarts, hspells, hfits⟩ := h
  exact ⟨ts, hstarts, hspells.mono hpoint, hfits.mono hpq⟩

/-- The text is cut into its tokens before a delimiter. -/
theorem Spells.before (h : Spells point cs ts) {c : Char} (hc : isDelimiter c = true)
    (rest : List Char) : Lexes (cs ++ c :: rest) ts (c :: rest) :=
  h _ (by simp [delimited, hc])

/-! ### Literals and names -/

theorem startsPlain_word (h : isWord cs = true) : StartsPlain cs := by
  cases cs with
  | nil => cases h
  | cons c cs =>
    refine ⟨c, cs, rfl, ?_⟩
    rintro rfl
    cases h

theorem spells_word (h : isWord name.toList = true) :
    Spells point name.toList [.ofWord name] := by
  intro rest hrest
  have hlexes := lexes_word h (endsWord_of_delimited hrest)
  rwa [String.ofList_toList] at hlexes

theorem spells_name (h : IsName name) : Spells point name.toList [.name name] := by
  obtain ⟨hword, hreserved⟩ := isName_iff.1 h
  have hspells := @spells_word point name hword
  rwa [Token.ofWord, hreserved] at hspells

theorem stands_word (word : String) (h : isWord word.toList = true) (node : Site → Expr)
    (hnode : leaf? (.ofWord word) = some node) :
    Stands .operand true word.toList (node default) :=
  ⟨[.ofWord word], startsPlain_word h, spells_word h, fits_leaf node hnode⟩

theorem stands_ident (h : IsName name) :
    Stands .operand true name.toList (.ident default name) :=
  ⟨[.name name], startsPlain_word (isName_iff.1 h).1, spells_name h,
    fits_leaf (.ident · name) rfl⟩

theorem stands_string (s : String) :
    Stands .operand true (Quoted.literal s) (.string default s) :=
  ⟨[.string s], ⟨'"', _, rfl, by decide⟩, fun rest _ => lexes_literal s rest,
    fits_leaf (.string · s) rfl⟩

/-- The number is finite and has no minus sign. -/
def Number.IsLiteral (v : Float) : Prop := ∃ mant exp, Parts.of v = .finite false mant exp

theorem stands_number {v : Float} (h : Number.IsLiteral v) :
    Stands .operand false (Layout.plain.write v) (.number default v) := by
  obtain ⟨mant, exp, hparts⟩ := h
  have hread := Decimal.read?_write hparts
  obtain ⟨whole, fraction, hwrite, hne, hwhole, hfraction⟩ := Layout.write_eq_numeral hparts
  rw [hwrite] at hread ⊢
  refine ⟨[.number v], ?_, fun rest => lexes_numeral hne hwhole hfraction hread,
    fits_leaf (.number · v) rfl⟩
  obtain ⟨c, cs, rfl⟩ := List.exists_cons_of_ne_nil hne
  refine ⟨c, numeral cs fraction, rfl, ?_⟩
  rintro rfl
  cases hwhole

/-! ### Brackets -/

theorem Spells.parens (h : Spells point cs ts) (rest : List Char) :
    Lexes ('(' :: (cs ++ ')' :: rest)) (.mark .lparen :: (ts ++ [.mark .rparen])) rest :=
  (lexes_solitary .lparen '(' rfl rfl _).trans
    ((h.before rfl rest).trans (lexes_solitary .rparen ')' rfl rfl rest))

theorem Spells.brackets (h : Spells point cs ts) (rest : List Char) :
    Lexes ('[' :: (cs ++ ']' :: rest)) (.mark .lbracket :: (ts ++ [.mark .rbracket])) rest :=
  (lexes_solitary .lbracket '[' rfl rfl _).trans
    ((h.before rfl rest).trans (lexes_solitary .rbracket ']' rfl rfl rest))

theorem Stands.parens (h : Stands p point cs e) : Stands .operand true ('(' :: cs ++ [')']) e := by
  obtain ⟨ts, -, hspells, hfits⟩ := h
  refine ⟨_, ⟨'(', _, rfl, by decide⟩, fun rest _ => ?_, hfits.parens⟩
  simpa using hspells.parens rest

/-- A text put in parentheses unless it can do without them. -/
theorem Stands.parenthesize {needed : Bool} (h : Stands q point cs e) (hp : p ≤ .operand)
    (hq : needed = false → p ≤ q ∧ (point' = true → point = true)) :
    Stands p point' (Expr.parenthesize needed cs) e := by
  cases needed with
  | false => exact h.mono (hq rfl).1 (hq rfl).2
  | true => exact h.parens.mono hp fun _ => rfl

/-! ### Operators -/

theorem Stands.unary {op : UnaryOp} (h : Stands ⟨unaryPower, unaryPower⟩ point cs e) :
    Stands ⟨accessPower, unaryPower⟩ point
      (op.symbol.toList ++ (match op with | .typeof | .void => [' '] | _ => []) ++ cs)
      (.unary default op e) := by
  obtain ⟨ts, ⟨c, cs', rfl, hc⟩, hspells, hfits⟩ := h
  refine ⟨op.token :: ts, ?_, fun rest hrest => ?_, hfits.unary (unary?_token op)⟩
  · cases op <;> exact ⟨_, _, rfl, by decide⟩
  · have hoperand := hspells rest hrest
    have hword (k : Keyword) :
        Lexes (k.text.toList ++ ' ' :: (c :: cs' ++ rest)) (.word k :: ts) rest :=
      (lexes_keyword k rfl).trans ((lexes_blank _).trans hoperand)
    cases op with
    | not => exact (lexes_bang hc _).trans hoperand
    | neg => exact (lexes_solitary .minus '-' rfl rfl _).trans hoperand
    | plus => exact (lexes_solitary .plus '+' rfl rfl _).trans hoperand
    | bitNot => exact (lexes_solitary .tilde '~' rfl rfl _).trans hoperand
    | typeof => exact hword .typeof
    | void => exact hword .void

theorem Stands.connective {op : Connective} (hl : Stands ⟨op.power.1, op.power.1 + 1⟩ point cs e)
    (hr : Stands ⟨op.power.2, op.power.2⟩ point' ds f) :
    Stands ⟨op.power.1, op.power.2⟩ point' (cs ++ ' ' :: op.symbol.toList ++ ' ' :: ds)
      (op.node default e f) := by
  obtain ⟨ts, hstarts, hspells, hfits⟩ := hl
  obtain ⟨us, -, hspells', hfits'⟩ := hr
  refine ⟨_, (hstarts.append _).append _, fun rest hrest => ?_,
    hfits.connective (connective?_token op) hfits'⟩
  simpa using (hspells.before rfl _).trans ((lexes_connective op _).trans (hspells' rest hrest))

theorem Stands.conditional {point'' : Bool} {a b : Expr}
    (ht : Stands ⟨conditionalPower, conditionalPower + 1⟩ point cs e)
    (hc : Stands p point' ds a) (ha : Stands ⟨conditionalPower, 0⟩ point'' es b) :
    Stands ⟨conditionalPower, 0⟩ point'' (cs ++ " ? ".toList ++ ds ++ " : ".toList ++ es)
      (.conditional default e a b) := by
  obtain ⟨ts, hstarts, hspells, hfits⟩ := ht
  obtain ⟨us, -, hspells', hfits'⟩ := hc
  obtain ⟨vs, -, hspells'', hfits''⟩ := ha
  refine ⟨_, (((hstarts.append _).append _).append _).append _, fun rest hrest => ?_,
    hfits.conditional hfits' hfits''⟩
  have halternate := (lexes_spaced .colon _).trans (hspells'' rest hrest)
  have hbranches := (lexes_spaced .question _).trans ((hspells'.before rfl _).trans halternate)
  simpa [Mark.text] using (hspells.before rfl _).trans hbranches

/-! ### Lists -/

/-- A comma and a blank after it. -/
theorem lexes_comma (rest : List Char) : Lexes (',' :: ' ' :: rest) [.mark .comma] rest :=
  (lexes_solitary .comma ',' rfl rfl _).trans (lexes_blank rest)

theorem standItems_nil : StandItems [] [] :=
  ⟨[], fun rest _ => .done rest, fitsItems_nil⟩

theorem Stands.items_singleton (h : Stands p point cs e) : StandItems cs [e] := by
  obtain ⟨ts, -, hspells, hfits⟩ := h
  exact ⟨ts, hspells.mono (by simp), hfits.items_singleton⟩

theorem Stands.items_cons (h : Stands p point cs e) (hes : StandItems ds trees) :
    StandItems (cs ++ (Expr.comma ++ ds)) (e :: trees) := by
  obtain ⟨ts, -, hspells, hfits⟩ := h
  obtain ⟨us, hspells', hfits'⟩ := hes
  refine ⟨_, fun rest hrest => ?_, hfits.items_cons hfits'⟩
  simpa [Expr.comma] using
    (hspells.before rfl _).trans ((lexes_comma _).trans (hspells' rest hrest))

/-! ### Calls, property access and arrays -/

theorem Stands.call (h : Stands .operand point cs e) (hes : StandItems ds trees) :
    Stands .operand true (cs ++ '(' :: ds ++ [')']) (.call default e trees) := by
  obtain ⟨ts, hstarts, hspells, hfits⟩ := h
  obtain ⟨us, hspells', hfits'⟩ := hes
  refine ⟨_, (hstarts.append _).append _, fun rest _ => ?_, hfits.call hfits'⟩
  simpa using (hspells.before rfl _).trans (hspells'.parens rest)

theorem Stands.index (h : Stands .operand point cs e) (hf : Stands p point' ds f) :
    Stands .operand true (cs ++ '[' :: ds ++ [']']) (.member default e f true) := by
  obtain ⟨ts, hstarts, hspells, hfits⟩ := h
  obtain ⟨us, -, hspells', hfits'⟩ := hf
  refine ⟨_, (hstarts.append _).append _, fun rest _ => ?_, hfits.index hfits'⟩
  simpa using (hspells.before rfl _).trans (hspells'.brackets rest)

theorem Stands.property (h : Stands .operand true cs e) (hname : IsPropertyName name) :
    Stands .operand true (cs ++ '.' :: name.toList)
      (.member default e (.ident default name) false) := by
  obtain ⟨ts, hstarts, hspells, hfits⟩ := h
  have hword := isPropertyName_iff.1 hname
  refine ⟨_, hstarts.append _, fun rest hrest => ?_, hfits.property (propertyName?_ofWord name)⟩
  -- a point before a name starts no number
  have hdot : Lexes ('.' :: (name.toList ++ rest)) [.mark .dot] (name.toList ++ rest) := by
    cases hchars : name.toList with
    | nil =>
      rw [hchars] at hword
      cases hword
    | cons d ds =>
      rw [hchars, isWord, Bool.and_eq_true] at hword
      exact lexes_dot (isDigit_of_isNameStart hword.1) _
  simpa using (hspells ('.' :: _) rfl).trans (hdot.trans (spells_word hword rest hrest))

theorem StandItems.array (h : StandItems cs trees) :
    Stands .operand true ('[' :: cs ++ [']']) (.array default trees) := by
  obtain ⟨ts, hspells, hfits⟩ := h
  refine ⟨_, ⟨'[', _, rfl, by decide⟩, fun rest _ => ?_, hfits.array⟩
  simpa using hspells.brackets rest

/-! ### Functions -/

theorem standParam_required (h : IsName name) : StandParam name.toList (.required name default) :=
  ⟨_, spells_name h, fitsParam_required name⟩

theorem Stands.param_optional (h : Stands p point cs e) (hname : IsName name) :
    StandParam (name.toList ++ " = ".toList ++ cs) (.optional name default e) := by
  obtain ⟨ts, -, hspells, hfits⟩ := h
  refine ⟨_, fun rest hrest => ?_, hfits.param_optional name⟩
  have hname' : Spells false name.toList [.name name] := spells_name hname
  have hdefault := (lexes_spaced .assign _).trans (hspells.mono (by simp) rest hrest)
  simpa [Mark.text] using (hname'.before rfl _).trans hdefault

theorem standParams_nil : StandParams [] [] :=
  ⟨[], fun rest _ => .done rest, fitsParams_nil⟩

theorem StandParam.singleton (h : StandParam cs a) : StandParams cs [a] := by
  obtain ⟨ts, hspells, hfits⟩ := h
  exact ⟨ts, hspells, hfits.singleton⟩

theorem StandParam.cons (h : StandParam cs a) (hps : StandParams ds ps) :
    StandParams (cs ++ (Expr.comma ++ ds)) (a :: ps) := by
  obtain ⟨ts, hspells, hfits⟩ := h
  obtain ⟨us, hspells', hfits'⟩ := hps
  refine ⟨_, fun rest hrest => ?_, hfits.cons hfits'⟩
  simpa [Expr.comma] using
    (hspells.before rfl _).trans ((lexes_comma _).trans (hspells' rest hrest))

theorem StandParams.arrow (hps : StandParams cs ps) (h : Stands ⟨0, 0⟩ point ds e) :
    Stands ⟨accessPower, 0⟩ point ('(' :: cs ++ ") => ".toList ++ ds)
      (.function default none ps e true) := by
  obtain ⟨ts, hspells, hfits⟩ := hps
  obtain ⟨us, -, hspells', hfits'⟩ := h
  refine ⟨_, ⟨'(', _, rfl, by decide⟩, fun rest hrest => ?_, hfits.arrow hfits'⟩
  have hbody := (lexes_spaced .arrow _).trans (hspells' rest hrest)
  simpa [Mark.text] using (hspells.parens _).trans hbody

/-- The name of a function after the word `function`. -/
def functionName : Option String → List Char
  | some name => ' ' :: name.toList
  | none => []

theorem spells_functionName {name : Option String} (h : ∀ s ∈ name, IsName s) :
    Spells false ("function".toList ++ functionName name)
      (.word .func :: name.toList.map .name) := by
  intro rest hrest
  cases name with
  | none => simpa [functionName, Keyword.text] using lexes_keyword .func hrest
  | some name =>
    have hname := spells_name (h name rfl) rest hrest
    have hword : Lexes (Keyword.func.text.toList ++ ' ' :: (name.toList ++ rest)) [.word .func]
        (' ' :: (name.toList ++ rest)) := lexes_keyword .func rfl
    simpa [functionName, Keyword.text] using hword.trans ((lexes_blank _).trans hname)

theorem StandParams.function (hps : StandParams cs ps) (h : Stands p point ds e)
    {name : Option String} (hname : ∀ s ∈ name, IsName s) :
    Stands .operand true ("function".toList ++ functionName name ++ '(' :: cs ++
        ") \x7b return ".toList ++ ds ++ "; \x7d".toList)
      (.function default name ps e false) := by
  obtain ⟨ts, hspells, hfits⟩ := hps
  obtain ⟨us, -, hspells', hfits'⟩ := h
  refine ⟨_, ⟨'f', _, rfl, by decide⟩, fun rest _ => ?_, hfits.function hfits' name⟩
  have hend : Lexes (';' :: ' ' :: '\x7d' :: rest) [.mark .semi, .mark .rbrace] rest :=
    (lexes_solitary .semi ';' rfl rfl _).trans
      ((lexes_blank _).trans (lexes_solitary .rbrace '\x7d' rfl rfl rest))
  have hbody := (hspells'.before rfl _).trans hend
  have hreturn := (lexes_keyword .ret rfl).trans ((lexes_blank _).trans hbody)
  have hblock := (lexes_solitary .lbrace '\x7b' rfl rfl _).trans ((lexes_blank _).trans hreturn)
  have hparams := (hspells.parens _).trans ((lexes_blank _).trans hblock)
  simpa [Keyword.text] using ((spells_functionName hname).before rfl _).trans hparams

end DeltaForm
