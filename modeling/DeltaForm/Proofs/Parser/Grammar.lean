import DeltaForm.Proofs.Parser.Progress

/-!
# The grammar that the parser reads

The parser that looks ahead, as rules about lists of tokens, without its bound on the depth, the
places of tokens and the numbers of nodes: `ReadsExpr least e ts ts'` says that an expression at the
binding power `least` is read from the tokens `ts`, that `ts'` are left, and that it is `e` up to
the sites of its nodes. There is such a relation for each part of the parser, and one rule for each
way it can go.
-/

namespace DeltaForm

/-! ### Trees without sites -/

namespace Expr

mutual

/-- The tree with the sites of its nodes and the places of its parameters blanked out. -/
def erase : Expr → Expr
  | number _ v => number default v
  | string _ s => string default s
  | bool _ b => bool default b
  | null _ => null default
  | undefined _ => undefined default
  | ident _ name => ident default name
  | unary _ op e => unary default op e.erase
  | binary _ op l r => binary default op l.erase r.erase
  | logical _ op l r => logical default op l.erase r.erase
  | call _ f args => call default f.erase (eraseList args)
  | conditional _ t c a => conditional default t.erase c.erase a.erase
  | array _ es => array default (eraseList es)
  | member _ o p computed => member default o.erase p.erase computed
  | function _ name ps body arrow => function default name (eraseParams ps) body.erase arrow
  | success _ v => success default v.erase
  | wrap _ f args => wrap default f.erase (eraseList args)
  | depend _ lifted f args => depend default lifted f.erase (eraseList args)
  | operator _ name => operator default name
  | choice _ => choice default

/-- The trees without sites. -/
def eraseList : List Expr → List Expr
  | [] => []
  | e :: es => e.erase :: eraseList es

/-- The parameters without places and sites. -/
def eraseParams : List Param → List Param
  | [] => []
  | .required name _ :: ps => .required name default :: eraseParams ps
  | .optional name _ e :: ps => .optional name default e.erase :: eraseParams ps

end

theorem erase_withSpan {e : Expr} {span : Span} : (e.withSpan span).erase = e.erase := by
  cases e <;> rfl

end Expr

namespace Parser

/-! ### Tokens to come -/

/-- The tokens to come. -/
def Cursor.tokens (c : Cursor) : List Token := c.rest.map Lexeme.token

variable {α β : Type} {c : Cursor} {t : Token} {ts ts' : List Token}

theorem Cursor.length_tokens : c.tokens.length = c.rest.length := List.length_map _

theorem Cursor.current_token (h : c.tokens = t :: ts) : c.current.token = t := by
  obtain ⟨rest, before, next⟩ := c
  cases rest with
  | nil => cases h
  | cons l rest => exact (List.cons.inj h).1

theorem bind_eq_of_ok {s : Step α} {next : α → Step β} {a : α} {c' : Cursor}
    (h : s c = .ok (a, c')) : (s >>= next) c = next a c' := by
  change Step.bind s next c = _
  rw [Step.bind, h]

theorem advance_eq (h : c.tokens = t :: ts) (ht : t ≠ .eof) :
    ∃ span c', advance c = .ok (span, c') ∧ c'.tokens = ts := by
  obtain ⟨rest, before, next⟩ := c
  cases rest with
  | nil => cases h
  | cons l rest =>
    obtain ⟨u, span⟩ := l
    obtain ⟨hu, hts⟩ := List.cons.inj h
    refine ⟨span, ⟨rest, span.stop, next⟩, ?_, hts⟩
    cases u <;> first | rfl | exact absurd hu.symm ht

theorem expect_eq {u : Token} (h : c.tokens = t :: ts) (ht : t ≠ .eof)
    (hu : t.sameKind u = true) : ∃ span c', expect u c = .ok (span, c') ∧ c'.tokens = ts := by
  rw [expect, Cursor.current_token h, if_pos hu]
  exact advance_eq h ht

theorem accept_eq_true {u : Token} (h : c.tokens = t :: ts) (ht : t ≠ .eof)
    (hu : t.sameKind u = true) : ∃ c', accept u c = .ok (true, c') ∧ c'.tokens = ts := by
  obtain ⟨span, c', hadvance, hc'⟩ := advance_eq h ht
  rw [accept, Cursor.current_token h, if_pos hu, bind_eq_of_ok hadvance]
  exact ⟨c', rfl, hc'⟩

theorem accept_eq_false {u : Token} (h : c.tokens = t :: ts) (hu : t.sameKind u = false) :
    accept u c = .ok (false, c) := by
  rw [accept, Cursor.current_token h, hu]
  rfl

theorem expectName_eq {name : String} (h : c.tokens = .name name :: ts) :
    ∃ c', expectName c = .ok (name, c') ∧ c'.tokens = ts := by
  obtain ⟨span, c', hadvance, hc'⟩ := advance_eq h (by simp)
  refine ⟨c', ?_, hc'⟩
  simp only [expectName, Cursor.current_token h]
  rw [bind_eq_of_ok hadvance]
  rfl

theorem expectProperty_eq {name : String} (h : c.tokens = t :: ts)
    (ht : t.propertyName? = some name) :
    ∃ c', expectProperty c = .ok (name, c') ∧ c'.tokens = ts := by
  have hne : t ≠ .eof := by
    rintro rfl
    cases ht
  obtain ⟨span, c', hadvance, hc'⟩ := advance_eq h hne
  refine ⟨c', ?_, hc'⟩
  simp only [expectProperty, Cursor.current_token h, ht]
  rw [bind_eq_of_ok hadvance]
  rfl

theorem finish_eq {span : Span} {node : Site → Expr} :
    ∃ site c', finish span node c = .ok (node site, c') ∧ c'.tokens = c.tokens :=
  ⟨_, _, rfl, rfl⟩

/-! ### What the parts of the parser read -/

/-- The step reads a result with `P` from the tokens `ts` and leaves `ts'`, if it has a depth of
eight for each token and `slack` more. -/
def Reads (s : Nat → Step α) (slack : Nat) (P : α → Prop) (ts ts' : List Token) : Prop :=
  ∀ fuel c, c.tokens = ts → 8 * ts.length + slack ≤ fuel →
    ∃ a c', s fuel c = .ok (a, c') ∧ P a ∧ c'.tokens = ts'

/-- Reads the expression `e` at a binding power. -/
abbrev ReadsExpr (least : Nat) (e : Expr) : List Token → List Token → Prop :=
  Reads (expr lookahead · least) 4 (·.erase = e)

/-- Reads the operand `e`. -/
abbrev ReadsOperand (e : Expr) : List Token → List Token → Prop :=
  Reads (operand lookahead) 3 (·.erase = e)

/-- Reads what comes after `left`, which makes it `e`. -/
def ReadsOperators (least : Nat) (left e : Expr) (ts ts' : List Token) : Prop :=
  ∀ start left', left'.erase = left →
    Reads (operators lookahead · least start left') 2 (·.erase = e) ts ts'

/-- Reads the call or property access after `left`, which makes it `e`. -/
def ReadsAccess (left e : Expr) (ts ts' : List Token) : Prop :=
  ∀ left', left'.erase = left → Reads (access lookahead · left') 1 (·.erase = e) ts ts'

/-- Reads expressions up to a closing bracket. -/
abbrev ReadsItems (closing : Token) (es : List Expr) : List Token → List Token → Prop :=
  Reads (items lookahead · closing) 5 (Expr.eraseList · = es)

/-- Reads parameters up to the closing parenthesis. -/
abbrev ReadsParams (ps : List Param) : List Token → List Token → Prop :=
  Reads (moreParams lookahead) 1 (Expr.eraseParams · = ps)

/-- Reads the body of a function in braces. -/
abbrev ReadsBlock (e : Expr) : List Token → List Token → Prop :=
  Reads (block lookahead) 1 (·.erase = e)

/-- A cursor before given tokens. -/
def Cursor.ofTokens (ts : List Token) : Cursor := ⟨ts.map (⟨·, default⟩), 0, 0⟩

theorem Cursor.tokens_ofTokens : (Cursor.ofTokens ts).tokens = ts := by
  simp [ofTokens, tokens, Function.comp_def]

/-- A step that makes progress leaves fewer tokens than it is given. -/
theorem Reads.length_le {s : Nat → Step α} {slack k : Nat} {P : α → Prop}
    (h : Reads s slack P ts ts')
    (hs : ∀ fuel c, Ends (fuel < 8 * c.rest.length + slack) k c (s fuel c)) :
    ts'.length + k ≤ ts.length := by
  have hlen : (Cursor.ofTokens ts).rest.length = ts.length := List.length_map _
  obtain ⟨a, c', hok, -, hc'⟩ := h (8 * ts.length + slack) (.ofTokens ts)
    Cursor.tokens_ofTokens (Nat.le_refl _)
  have hends := hs (8 * ts.length + slack) (.ofTokens ts)
  rw [hok] at hends
  have := hends.length_le
  rw [← hc', Cursor.length_tokens]
  omega

theorem ReadsExpr.length_lt {least : Nat} {e : Expr} (h : ReadsExpr least e ts ts') :
    ts'.length + 1 ≤ ts.length :=
  h.length_le fun fuel _ => (progressTo selects_lookahead fuel).expr

theorem ReadsOperand.length_lt {e : Expr} (h : ReadsOperand e ts ts') :
    ts'.length + 1 ≤ ts.length :=
  h.length_le fun fuel _ => (progressTo selects_lookahead fuel).operand

theorem ReadsParams.length_lt {ps : List Param} (h : ReadsParams ps ts ts') :
    ts'.length + 1 ≤ ts.length :=
  h.length_le fun fuel _ => (progressTo selects_lookahead fuel).moreParams

theorem ReadsAccess.length_lt {left e : Expr} (h : ReadsAccess left e ts ts')
    {left' : Expr} (hleft : left'.erase = left) : ts'.length + 1 ≤ ts.length :=
  (h left' hleft).length_le fun fuel _ => (progressTo selects_lookahead fuel).access

/-! ### Expressions and operators -/

variable {ts₁ ts₂ ts₃ : List Token} {least : Nat} {e left : Expr}

theorem readsExpr_of {e₁ : Expr} (h₁ : ReadsOperand e₁ ts ts₁)
    (h₂ : ReadsOperators least e₁ e ts₁ ts₂) : ReadsExpr least e ts ts₂ := by
  have hlen := h₁.length_lt
  rintro (_ | fuel) c hc hfuel
  · omega
  obtain ⟨left, c₁, hleft, heq, hc₁⟩ := h₁ fuel c hc (by omega)
  obtain ⟨e', c₂, he, heq₂, hc₂⟩ := h₂ c.current.span.start left heq fuel c₁ hc₁ (by omega)
  refine ⟨e', c₂, ?_, heq₂, hc₂⟩
  simp only [expr]
  rw [bind_peek, bind_eq_of_ok hleft]
  exact he

/-- Whether an expression at a binding power ends before a token. -/
def stopsBefore (least : Nat) (t : Token) : Bool :=
  match t with
  | .mark .lparen | .mark .lbracket | .mark .dot => accessPower < least
  | .mark .question => conditionalPower < least
  | t => t.connective?.all fun op => op.power.1 < least

theorem operators_of_stopsBefore {σ : Strategy} {fuel start : Nat} {c : Cursor}
    (h : stopsBefore least c.current.token = true) :
    operators σ (fuel + 1) least start left c = .ok (left, c) := by
  simp only [operators]
  unfold stopsBefore at h
  split at h
  · simp_all
  · simp_all
  · simp_all
  · simp_all
  · cases hop : c.current.token.connective? with
    | none => simp_all
    | some op => simp_all

theorem readsOperators_stop (h : stopsBefore least t = true) :
    ReadsOperators least left left (t :: ts) (t :: ts) := by
  rintro start left' hleft (_ | fuel) c hc hfuel
  · omega
  rw [← Cursor.current_token hc] at h
  exact ⟨left', c, operators_of_stopsBefore h, hleft, hc⟩

theorem readsOperators_access {e₁ : Expr} (hleast : least ≤ accessPower)
    (ht : t = .mark .lparen ∨ t = .mark .lbracket ∨ t = .mark .dot)
    (h₁ : ReadsAccess left e₁ (t :: ts) ts₁) (h₂ : ReadsOperators least e₁ e ts₁ ts₂) :
    ReadsOperators least left e (t :: ts) ts₂ := by
  intro start left' hleft
  have hlen := ReadsAccess.length_lt h₁ hleft
  rintro (_ | fuel) c hc hfuel
  · omega
  obtain ⟨left₁, c₁, hleft₁, heq, hc₁⟩ := h₁ left' hleft fuel c hc (by omega)
  obtain ⟨e', c₂, he, heq₂, hc₂⟩ := h₂ start left₁ heq fuel c₁ hc₁ (by omega)
  refine ⟨e', c₂, ?_, heq₂, hc₂⟩
  simp only [operators, Cursor.current_token hc]
  rcases ht with rfl | rfl | rfl
  all_goals
    rw [if_neg (by omega), bind_eq_of_ok hleft₁]
    exact he

theorem readsOperators_conditional {c a : Expr} (hleast : least ≤ conditionalPower)
    (hc : ReadsExpr 0 c ts (.mark .colon :: ts₁)) (ha : ReadsExpr conditionalPower a ts₁ ts₂)
    (h : ReadsOperators least (.conditional default left c a) e ts₂ ts₃) :
    ReadsOperators least left e (.mark .question :: ts) ts₃ := by
  have hlen₁ := hc.length_lt
  have hlen₂ := ha.length_lt
  simp only [List.length_cons] at hlen₁
  rintro start left' hleft (_ | fuel) cur hcur hfuel
  · omega
  rw [List.length_cons] at hfuel
  obtain ⟨_, c₁, hq, hc₁⟩ := advance_eq hcur (by simp)
  obtain ⟨c', c₂, hc', hceq, hc₂⟩ := hc fuel c₁ hc₁ (by omega)
  obtain ⟨_, c₃, hcolon, hc₃⟩ := expect_eq (u := .mark .colon) hc₂ (by simp) rfl
  obtain ⟨a', c₄, ha', haeq, hc₄⟩ := ha fuel c₃ hc₃ (by omega)
  obtain ⟨site, c₅, hfinish, hc₅⟩ :=
    @finish_eq c₄ ⟨start, a'.span.stop⟩ (.conditional · left' c' a')
  obtain ⟨e', c₆, he, heq, hc₆⟩ := h start (.conditional site left' c' a')
    (by rw [Expr.erase, hleft, hceq, haeq]) fuel c₅ (hc₅.trans hc₄) (by omega)
  refine ⟨e', c₆, ?_, heq, hc₆⟩
  simp only [operators, Cursor.current_token hcur]
  rw [if_neg (by omega), bind_eq_of_ok hq, bind_eq_of_ok hc', bind_eq_of_ok hcolon,
    bind_eq_of_ok ha', bind_eq_of_ok hfinish]
  exact he

theorem readsOperators_connective {op : Connective} {r : Expr} (hop : t.connective? = some op)
    (hleast : least ≤ op.power.1) (hr : ReadsExpr op.power.2 r ts ts₁)
    (h : ReadsOperators least (op.node default left r) e ts₁ ts₂) :
    ReadsOperators least left e (t :: ts) ts₂ := by
  have hlen := hr.length_lt
  rintro start left' hleft (_ | fuel) c hc hfuel
  · omega
  rw [List.length_cons] at hfuel
  have hne : t ≠ .eof := by
    rintro rfl
    cases hop
  obtain ⟨_, c₁, hadvance, hc₁⟩ := advance_eq hc hne
  obtain ⟨r', c₂, hr', hreq, hc₂⟩ := hr fuel c₁ hc₁ (by omega)
  obtain ⟨site, c₃, hfinish, hc₃⟩ := @finish_eq c₂ ⟨start, r'.span.stop⟩ (op.node · left' r')
  obtain ⟨e', c₄, he, heq, hc₄⟩ := h start (op.node site left' r')
    (by cases op <;> simp [Connective.node, Expr.erase, hleft, hreq]) fuel c₃ (hc₃.trans hc₂)
    (by omega)
  refine ⟨e', c₄, ?_, heq, hc₄⟩
  simp only [operators, Cursor.current_token hc]
  split
  · cases hop
  · cases hop
  · cases hop
  · cases hop
  · simp only [hop]
    rw [if_neg (by omega), bind_eq_of_ok hadvance, bind_eq_of_ok hr', bind_eq_of_ok hfinish]
    exact he

/-! ### Starts of expressions -/

/-- Whether an expression can start with a token. -/
def opensExpr (t : Token) : Bool :=
  match t with
  | .mark .lparen | .mark .lbracket | .word .func => true
  | t => t.unary?.isSome || (leaf? t).isSome

theorem opensExpr_of_sameKind {u : Token} (h : t.sameKind u = true) :
    opensExpr t = opensExpr u := by
  cases t <;> cases u <;> simp_all [Token.sameKind, opensExpr, Token.unary?, leaf?]

theorem operand_eq_error (ht : opensExpr t = false) (hc : c.tokens = t :: ts) (fuel : Nat) :
    ∃ f, operand lookahead fuel c = .error f := by
  cases fuel with
  | zero => exact ⟨_, rfl⟩
  | succ fuel =>
    refine ⟨.fault ⟨.expression, c.current⟩, ?_⟩
    simp only [operand, Cursor.current_token hc]
    unfold opensExpr at ht
    split at ht
    · cases ht
    · cases ht
    · cases ht
    · simp only [Bool.or_eq_false_iff, Option.isSome_eq_false_iff, Option.isNone_iff_eq_none] at ht
      simp only [ht.1]
      split
      · contradiction
      · contradiction
      · contradiction
      · cases ht.2
      · simp only [ht.2, refuse]

theorem ReadsExpr.opens (h : ReadsExpr least e (t :: ts) ts') : opensExpr t = true := by
  by_contra ht
  obtain ⟨e', c', he, -, -⟩ := h (8 * (t :: ts).length + 4) (.ofTokens (t :: ts))
    Cursor.tokens_ofTokens (Nat.le_refl _)
  obtain ⟨f, hf⟩ := operand_eq_error (Bool.not_eq_true _ ▸ ht) Cursor.tokens_ofTokens
    (8 * (t :: ts).length + 3)
  have hexpr :
      expr lookahead (8 * (t :: ts).length + 4) least (.ofTokens (t :: ts)) = .error f := by
    simp only [expr]
    rw [bind_peek]
    change Step.bind _ _ _ = _
    rw [Step.bind, hf]
  cases he.symm.trans hexpr

theorem ReadsExpr.exists_cons (h : ReadsExpr least e ts ts') : ∃ t us, ts = t :: us := by
  cases ts with
  | nil => exact absurd h.length_lt (by simp)
  | cons t us => exact ⟨t, us, rfl⟩

theorem ReadsExpr.not_sameKind {u : Token} (h : ReadsExpr least e (t :: ts) ts')
    (hu : opensExpr u = false) : t.sameKind u = false := by
  by_contra hk
  have := opensExpr_of_sameKind (Bool.not_eq_false _ ▸ hk)
  rw [h.opens, hu] at this
  cases this

/-! ### Lists -/

variable {closing : Token}

theorem readsItems_nil (hclosing : closing ≠ .eof) :
    ReadsItems closing [] (closing :: ts) ts := by
  have hself : closing.sameKind closing = true := by
    cases closing <;> simp [Token.sameKind]
  rintro (_ | fuel) c hc hfuel
  · omega
  obtain ⟨_, c', hexpect, hc'⟩ := expect_eq hc hclosing hself
  refine ⟨[], c', ?_, rfl, hc'⟩
  simp only [items]
  rw [Cursor.current_token hc, hself, Bool.true_or, if_pos rfl, bind_eq_of_ok hexpect]
  rfl

theorem readsItems_singleton (hclosing : closing ≠ .eof) (hstart : opensExpr closing = false)
    (hcomma : closing.sameKind (.mark .comma) = false) (h : ReadsExpr 0 e ts (closing :: ts')) :
    ReadsItems closing [e] ts ts' := by
  have hself : closing.sameKind closing = true := by
    cases closing <;> simp [Token.sameKind]
  obtain ⟨t, us, rfl⟩ := h.exists_cons
  rintro (_ | fuel) c hc hfuel
  · omega
  obtain ⟨e', c₁, he, heq, hc₁⟩ := h fuel c hc (by omega)
  obtain ⟨_, c₂, hexpect, hc₂⟩ := expect_eq hc₁ hclosing hself
  refine ⟨[e'], c₂, ?_, by simp only [Expr.eraseList, heq], hc₂⟩
  simp only [items]
  rw [Cursor.current_token hc, h.not_sameKind hstart, h.not_sameKind (u := .eof) rfl,
    Bool.false_or, if_neg (by simp), bind_eq_of_ok he,
    bind_eq_of_ok (accept_eq_false hc₁ hcomma), if_neg (by simp), bind_eq_of_ok hexpect]
  rfl

theorem readsItems_cons {es : List Expr} (hstart : opensExpr closing = false)
    (h : ReadsExpr 0 e ts (.mark .comma :: ts₁)) (hes : ReadsItems closing es ts₁ ts₂) :
    ReadsItems closing (e :: es) ts ts₂ := by
  have hlen := h.length_lt
  rw [List.length_cons] at hlen
  obtain ⟨t, us, rfl⟩ := h.exists_cons
  rintro (_ | fuel) c hc hfuel
  · omega
  obtain ⟨e', c₁, he, heq, hc₁⟩ := h fuel c hc (by omega)
  obtain ⟨c₂, hcomma, hc₂⟩ := accept_eq_true (u := .mark .comma) hc₁ (by simp) rfl
  obtain ⟨es', c₃, hes', heqs, hc₃⟩ := hes fuel c₂ hc₂ (by omega)
  refine ⟨e' :: es', c₃, ?_, by simp only [Expr.eraseList, heq, heqs], hc₃⟩
  simp only [items]
  rw [Cursor.current_token hc, h.not_sameKind hstart, h.not_sameKind (u := .eof) rfl,
    Bool.false_or, if_neg (by simp), bind_eq_of_ok he, bind_eq_of_ok hcomma, if_pos rfl,
    bind_eq_of_ok hes']
  rfl

/-! ### Calls and property access -/

theorem readsAccess_call {args : List Expr} (h : ReadsItems (.mark .rparen) args ts ts') :
    ReadsAccess left (.call default left args) (.mark .lparen :: ts) ts' := by
  rintro left' hleft (_ | fuel) c hc hfuel
  · omega
  rw [List.length_cons] at hfuel
  obtain ⟨_, c₁, hadvance, hc₁⟩ := advance_eq hc (by simp)
  obtain ⟨args', c₂, hargs, heq, hc₂⟩ := h fuel c₁ hc₁ (by omega)
  obtain ⟨site, c₃, hfinish, hc₃⟩ :=
    @finish_eq c₂ ⟨left'.span.start, c₂.before⟩ (.call · left' args')
  refine ⟨.call site left' args', c₃, ?_, ?_, hc₃.trans hc₂⟩
  · simp only [access, Cursor.current_token hc]
    rw [bind_eq_of_ok hadvance, bind_eq_of_ok hargs]
    exact hfinish
  · simp only [Expr.erase, hleft, heq]

theorem readsAccess_computed {p : Expr} (h : ReadsExpr 0 p ts (.mark .rbracket :: ts')) :
    ReadsAccess left (.member default left p true) (.mark .lbracket :: ts) ts' := by
  rintro left' hleft (_ | fuel) c hc hfuel
  · omega
  rw [List.length_cons] at hfuel
  obtain ⟨_, c₁, hadvance, hc₁⟩ := advance_eq hc (by simp)
  obtain ⟨p', c₂, hp, heq, hc₂⟩ := h fuel c₁ hc₁ (by omega)
  obtain ⟨close, c₃, hexpect, hc₃⟩ := expect_eq (u := .mark .rbracket) hc₂ (by simp) rfl
  obtain ⟨site, c₄, hfinish, hc₄⟩ :=
    @finish_eq c₃ ⟨left'.span.start, close.stop⟩ (.member · left' p' true)
  refine ⟨.member site left' p' true, c₄, ?_, ?_, hc₄.trans hc₃⟩
  · simp only [access, Cursor.current_token hc]
    rw [bind_eq_of_ok hadvance, bind_eq_of_ok hp, bind_eq_of_ok hexpect]
    exact hfinish
  · simp only [Expr.erase, hleft, heq]

theorem readsAccess_named {name : String} (ht : t.propertyName? = some name) :
    ReadsAccess left (.member default left (.ident default name) false) (.mark .dot :: t :: ts)
      ts := by
  rintro left' hleft (_ | fuel) c hc hfuel
  · omega
  obtain ⟨_, c₁, hdot, hc₁⟩ := expect_eq (u := .mark .dot) hc (by simp) rfl
  obtain ⟨c₂, hname, hc₂⟩ := expectProperty_eq hc₁ ht
  obtain ⟨site, c₃, hident, hc₃⟩ := @finish_eq c₂ c₁.current.span (.ident · name)
  obtain ⟨site', c₄, hmember, hc₄⟩ := @finish_eq c₃ ⟨left'.span.start, c₁.current.span.stop⟩
    (.member · left' (.ident site name) false)
  refine ⟨.member site' left' (.ident site name) false, c₄, ?_, ?_, hc₄.trans (hc₃.trans hc₂)⟩
  · simp only [access, Cursor.current_token hc]
    rw [bind_eq_of_ok hdot, bind_peek, bind_eq_of_ok hname, bind_eq_of_ok hident]
    exact hmember
  · simp only [Expr.erase, hleft]

/-! ### Looking ahead -/

/-- Whether an arrow comes next. -/
def arrowNext : List Token → Bool
  | .mark .arrow :: _ => true
  | _ => false

/-- Whether the bracket that closes the innermost `depth` open ones is followed by an arrow. -/
def closesArrow (depth : Nat) : List Token → Bool
  | [] => false
  | t :: ts =>
    match t with
    | .mark .lparen | .mark .lbracket | .mark .lbrace => closesArrow (depth + 1) ts
    | .mark .rparen | .mark .rbracket | .mark .rbrace =>
      if depth ≤ 1 then arrowNext ts else closesArrow (depth - 1) ts
    | .eof => false
    | _ => closesArrow depth ts

theorem arrowNext_map (ls : List Lexeme) : arrowNext (ls.map Lexeme.token) = match ls with
    | ⟨.mark .arrow, _⟩ :: _ => true
    | _ => false := by
  rcases ls with _ | ⟨⟨t, span⟩, ls⟩
  · rfl
  · cases t with
    | mark m => cases m <;> rfl
    | _ => rfl

theorem closesBeforeArrow_eq (depth : Nat) (ls : List Lexeme) :
    closesBeforeArrow depth ls = closesArrow depth (ls.map Lexeme.token) := by
  induction ls generalizing depth with
  | nil => rfl
  | cons l ls ih =>
    obtain ⟨t, span⟩ := l
    have hclose := if_congr (P := depth ≤ 1) Iff.rfl (arrowNext_map ls).symm (ih (depth - 1))
    cases t with
    | mark m => cases m <;> first | exact ih _ | exact hclose
    | eof => rfl
    | _ => exact ih depth

theorem opensArrow_eq (hc : c.tokens = .mark .lparen :: ts) :
    opensArrow c = closesArrow 1 ts := by
  rw [opensArrow, closesBeforeArrow_eq]
  exact congrArg (closesArrow 0) hc

theorem arrowFollows_eq (hc : c.tokens = t :: ts) : arrowFollows c = arrowNext ts := by
  obtain ⟨rest, before, next⟩ := c
  rcases rest with _ | ⟨l, _ | ⟨⟨u, span⟩, rest⟩⟩
  · cases hc
  · cases hc
    rfl
  · cases hc
    cases u with
    | mark m => cases m <;> rfl
    | _ => rfl

/-! ### Operands -/

theorem readsOperand_unary {op : UnaryOp} (hop : t.unary? = some op)
    (h : ReadsExpr unaryPower e ts ts') : ReadsOperand (.unary default op e) (t :: ts) ts' := by
  have hne : t ≠ .eof := by
    rintro rfl
    cases hop
  rintro (_ | fuel) c hc hfuel
  · omega
  rw [List.length_cons] at hfuel
  obtain ⟨_, c₁, hadvance, hc₁⟩ := advance_eq hc hne
  obtain ⟨e', c₂, he, heq, hc₂⟩ := h fuel c₁ hc₁ (by omega)
  obtain ⟨site, c₃, hfinish, hc₃⟩ :=
    @finish_eq c₂ ⟨c.current.span.start, e'.span.stop⟩ (.unary · op e')
  refine ⟨.unary site op e', c₃, ?_, ?_, hc₃.trans hc₂⟩
  · simp only [operand, Cursor.current_token hc, hop]
    rw [bind_eq_of_ok hadvance, bind_eq_of_ok he]
    exact hfinish
  · simp only [Expr.erase, heq]

theorem readsOperand_leaf {node : Site → Expr} (ht : leaf? t = some node)
    (hts : arrowNext ts = false) : ReadsOperand (node default) (t :: ts) ts := by
  rintro (_ | fuel) c hc hfuel
  · omega
  have hne : t ≠ .eof := by
    rintro rfl
    cases ht
  obtain ⟨span, c₁, hadvance, hc₁⟩ := advance_eq hc hne
  obtain ⟨site, c₂, hfinish, hc₂⟩ := @finish_eq c₁ span node
  refine ⟨node site, c₂, ?_, ?_, hc₂.trans hc₁⟩
  · have hread : (advance >>= fun span => finish span node) c = .ok (node site, c₂) := by
      rw [bind_eq_of_ok hadvance]
      exact hfinish
    cases t with
    | word k => cases ht
    | mark m => cases ht
    | eof => cases ht
    | name s =>
      cases ht
      simp only [operand, Cursor.current_token hc, Token.unary?, arrowFollows_eq hc, hts]
      exact hread
    | _ =>
      simp only [operand, Cursor.current_token hc, Token.unary?, ht]
      exact hread
  · cases t <;> cases ht <;> rfl

theorem readsOperand_paren (hts : closesArrow 1 ts = false)
    (h : ReadsExpr 0 e ts (.mark .rparen :: ts')) :
    ReadsOperand e (.mark .lparen :: ts) ts' := by
  rintro (_ | _ | fuel) c hc hfuel
  · omega
  · omega
  rw [List.length_cons] at hfuel
  obtain ⟨first, c₁, hopen, hc₁⟩ := expect_eq (u := .mark .lparen) hc (by simp) rfl
  obtain ⟨e', c₂, he, heq, hc₂⟩ := h fuel c₁ hc₁ (by omega)
  obtain ⟨last, c₃, hclose, hc₃⟩ := expect_eq (u := .mark .rparen) hc₂ (by simp) rfl
  refine ⟨e'.withSpan ⟨first.start, last.stop⟩, c₃, ?_, Expr.erase_withSpan.trans heq, hc₃⟩
  simp only [operand, Cursor.current_token hc, Token.unary?, lookahead, opensArrow_eq hc,
    hts, Bool.false_eq_true, if_false, paren]
  rw [bind_eq_of_ok hopen, bind_eq_of_ok he, bind_eq_of_ok hclose]
  rfl

theorem readsOperand_array {es : List Expr} (h : ReadsItems (.mark .rbracket) es ts ts') :
    ReadsOperand (.array default es) (.mark .lbracket :: ts) ts' := by
  rintro (_ | fuel) c hc hfuel
  · omega
  rw [List.length_cons] at hfuel
  obtain ⟨_, c₁, hadvance, hc₁⟩ := advance_eq hc (by simp)
  obtain ⟨es', c₂, hes, heq, hc₂⟩ := h fuel c₁ hc₁ (by omega)
  obtain ⟨site, c₃, hfinish, hc₃⟩ :=
    @finish_eq c₂ ⟨c.current.span.start, c₂.before⟩ (.array · es')
  refine ⟨.array site es', c₃, ?_, ?_, hc₃.trans hc₂⟩
  · simp only [operand, Cursor.current_token hc, Token.unary?]
    rw [bind_eq_of_ok hadvance, bind_eq_of_ok hes]
    exact hfinish
  · simp only [Expr.erase, heq]

/-! ### Functions -/

/-- Reads one parameter, up to the comma or the closing parenthesis after it. -/
inductive ReadsParam : Param → List Token → List Token → Prop
  | required {name : String} {t : Token} {ts : List Token}
      (ht : t.sameKind (.mark .assign) = false) :
      ReadsParam (.required name default) (.name name :: t :: ts) (t :: ts)
  | optional {name : String} {e : Expr} {ts ts' : List Token} (he : ReadsExpr 0 e ts ts') :
      ReadsParam (.optional name default e) (.name name :: .mark .assign :: ts) ts'

variable {p : Param} {ps : List Param}

theorem ReadsParam.length_lt (h : ReadsParam p ts ts') : ts'.length + 1 ≤ ts.length := by
  cases h with
  | required ht => exact Nat.le_refl _
  | optional he =>
    have := he.length_lt
    simp only [List.length_cons]
    omega

/-- What comes after a parameter: more of them, or the closing parenthesis. -/
def afterParam (σ : Strategy) (fuel : Nat) (p : Param) : Step (List Param) := do
  if ← accept (.mark .comma) then
    let ps ← moreParams σ fuel
    pure (p :: ps)
  else
    let _ ← expect (.mark .rparen)
    pure [p]

theorem moreParams_succ {σ : Strategy} {fuel : Nat} {name : String}
    (hname : c.current.token = .name name) :
    moreParams σ (fuel + 1) c = (do
      let name ← expectName
      let default ← (do
        if ← accept (.mark .assign) then some <$> expr σ fuel 0 else pure none)
      let stop ← lastEnd
      afterParam σ fuel (match default with
        | none => .required name ⟨c.current.span.start, stop⟩
        | some e => .optional name ⟨c.current.span.start, stop⟩ e)) c := by
  simp only [moreParams, hname]
  exact if_neg (by simp [Token.sameKind])

theorem ReadsParam.moreParams_eq (h : ReadsParam p ts ts') (hc : c.tokens = ts) (fuel : Nat)
    (hfuel : 8 * ts.length ≤ fuel) :
    ∃ p' c', Expr.eraseParams [p'] = [p] ∧ c'.tokens = ts' ∧
      moreParams lookahead (fuel + 1) c = afterParam lookahead fuel p' c' := by
  cases h with
  | @required name t ts ht =>
    obtain ⟨c₁, hname, hc₁⟩ := expectName_eq hc
    have hdefault : (do
        if ← accept (.mark .assign) then some <$> expr lookahead fuel 0 else pure none) c₁ =
        .ok (none, c₁) := by
      rw [bind_eq_of_ok (accept_eq_false hc₁ ht)]
      rfl
    refine ⟨.required name ⟨c.current.span.start, c₁.before⟩, c₁, rfl, hc₁, ?_⟩
    rw [moreParams_succ (Cursor.current_token hc), bind_eq_of_ok hname, bind_eq_of_ok hdefault]
    rfl
  | @optional name e ts _ he =>
    simp only [List.length_cons] at hfuel
    obtain ⟨c₁, hname, hc₁⟩ := expectName_eq hc
    obtain ⟨c₂, hassign, hc₂⟩ := accept_eq_true (u := .mark .assign) hc₁ (by simp) rfl
    obtain ⟨e', c₃, he', heq, hc₃⟩ := he fuel c₂ hc₂ (by omega)
    have hdefault : (do
        if ← accept (.mark .assign) then some <$> expr lookahead fuel 0 else pure none) c₁ =
        .ok (some e', c₃) := by
      rw [bind_eq_of_ok hassign]
      change (expr lookahead fuel 0 >>= fun e => pure (some e)) c₂ = _
      rw [bind_eq_of_ok he']
      rfl
    refine ⟨.optional name ⟨c.current.span.start, c₃.before⟩ e', c₃, ?_, hc₃, ?_⟩
    · simp only [Expr.eraseParams, heq]
    · rw [moreParams_succ (Cursor.current_token hc), bind_eq_of_ok hname, bind_eq_of_ok hdefault]
      rfl

theorem readsParams_nil : ReadsParams [] (.mark .rparen :: ts) ts := by
  rintro (_ | fuel) c hc hfuel
  · omega
  obtain ⟨_, c', hexpect, hc'⟩ := expect_eq (u := .mark .rparen) hc (by simp) rfl
  refine ⟨[], c', ?_, rfl, hc'⟩
  simp only [moreParams, Cursor.current_token hc]
  rw [if_pos (by rfl), bind_eq_of_ok hexpect]
  rfl

theorem readsParams_singleton (h : ReadsParam p ts (.mark .rparen :: ts')) :
    ReadsParams [p] ts ts' := by
  rintro (_ | fuel) c hc hfuel
  · omega
  obtain ⟨p', c₁, hp, hc₁, hread⟩ := h.moreParams_eq hc fuel (by omega)
  obtain ⟨_, c₂, hexpect, hc₂⟩ := expect_eq (u := .mark .rparen) hc₁ (by simp) rfl
  refine ⟨[p'], c₂, ?_, hp, hc₂⟩
  rw [hread, afterParam, bind_eq_of_ok (accept_eq_false hc₁ rfl), if_neg (by simp),
    bind_eq_of_ok hexpect]
  rfl

theorem readsParams_cons (h : ReadsParam p ts (.mark .comma :: ts₁))
    (hps : ReadsParams ps ts₁ ts₂) : ReadsParams (p :: ps) ts ts₂ := by
  have hlen := h.length_lt
  rw [List.length_cons] at hlen
  rintro (_ | fuel) c hc hfuel
  · omega
  obtain ⟨p', c₁, hp, hc₁, hread⟩ := h.moreParams_eq hc fuel (by omega)
  obtain ⟨c₂, hcomma, hc₂⟩ := accept_eq_true (u := .mark .comma) hc₁ (by simp) rfl
  obtain ⟨ps', c₃, hps', heq, hc₃⟩ := hps fuel c₂ hc₂ (by omega)
  refine ⟨p' :: ps', c₃, ?_, ?_, hc₃⟩
  · rw [hread, afterParam, bind_eq_of_ok hcomma, if_pos rfl, bind_eq_of_ok hps']
    rfl
  · cases p' <;> simp_all [Expr.eraseParams]

theorem params_eq (h : ReadsParams ps ts ts') (hc : c.tokens = .mark .lparen :: ts) (fuel : Nat)
    (hfuel : 8 * ts.length + 2 ≤ fuel) :
    ∃ ps' c', params lookahead fuel c = .ok (ps', c') ∧ Expr.eraseParams ps' = ps ∧
      c'.tokens = ts' := by
  obtain ⟨fuel, rfl⟩ := Nat.exists_eq_succ_of_ne_zero (n := fuel) (by omega)
  obtain ⟨_, c₁, hopen, hc₁⟩ := expect_eq (u := .mark .lparen) hc (by simp) rfl
  obtain ⟨ps', c₂, hps, heq, hc₂⟩ := h fuel c₁ hc₁ (by omega)
  refine ⟨ps', c₂, ?_, heq, hc₂⟩
  simp only [params]
  rw [bind_eq_of_ok hopen]
  exact hps

/-- What stands after `return` is an expression if its first token can start one. -/
theorem returned_eq {word : Span} {fuel : Nat} (s : Step Expr)
    (hs : (match t with
      | .mark .semi | .mark .rbrace => finish word .undefined
      | _ => expr lookahead fuel 0) = s) (ht : opensExpr t = true) : s = expr lookahead fuel 0 := by
  split at hs
  · cases ht
  · cases ht
  · exact hs.symm

/-- What stands after an arrow is an expression if its first token can start one. -/
theorem arrowBody_eq {fuel : Nat} (s : Step Expr)
    (hs : (match t with
      | .mark .lbrace => block lookahead fuel
      | _ => expr lookahead fuel 0) = s) (ht : opensExpr t = true) : s = expr lookahead fuel 0 := by
  split at hs
  · cases ht
  · exact hs.symm

theorem readsBlock_return (h : ReadsExpr 0 e ts (.mark .semi :: .mark .rbrace :: ts')) :
    ReadsBlock e (.mark .lbrace :: .word .ret :: ts) ts' := by
  obtain ⟨t, us, rfl⟩ := h.exists_cons
  rintro (_ | fuel) c hc hfuel
  · omega
  simp only [List.length_cons] at hfuel
  obtain ⟨_, c₁, hopen, hc₁⟩ := expect_eq (u := .mark .lbrace) hc (by simp) rfl
  obtain ⟨word, c₂, hret, hc₂⟩ := advance_eq hc₁ (by simp)
  obtain ⟨e', c₃, he, heq, hc₃⟩ := h fuel c₂ hc₂ (by simp only [List.length_cons]; omega)
  obtain ⟨c₄, hsemi, hc₄⟩ := accept_eq_true (u := .mark .semi) hc₃ (by simp) rfl
  obtain ⟨_, c₅, hclose, hc₅⟩ := expect_eq (u := .mark .rbrace) hc₄ (by simp) rfl
  refine ⟨e', c₅, ?_, heq, hc₅⟩
  simp only [block]
  rw [bind_eq_of_ok hopen, bind_peek, Cursor.current_token hc₁]
  change (advance >>= _) c₁ = _
  rw [bind_eq_of_ok hret, bind_peek, Cursor.current_token hc₂]
  refine (bind_eq_of_ok ((congrFun (returned_eq _ rfl h.opens) c₂).trans he)).trans ?_
  rw [bind_eq_of_ok hsemi, bind_eq_of_ok hclose]
  rfl

theorem readsOperand_arrow (hts : closesArrow 1 ts = true)
    (hps : ReadsParams ps ts (.mark .arrow :: ts₁)) (he : ReadsExpr 0 e ts₁ ts₂) :
    ReadsOperand (.function default none ps e true) (.mark .lparen :: ts) ts₂ := by
  have hlen := hps.length_lt
  rw [List.length_cons] at hlen
  obtain ⟨t, us, rfl⟩ := he.exists_cons
  rintro (_ | _ | fuel) c hc hfuel
  · omega
  · omega
  simp only [List.length_cons] at hfuel hlen
  obtain ⟨ps', c₁, hps', heqs, hc₁⟩ := params_eq hps hc fuel (by omega)
  obtain ⟨_, c₂, harrow, hc₂⟩ := expect_eq (u := .mark .arrow) hc₁ (by simp) rfl
  obtain ⟨e', c₃, he', heq, hc₃⟩ := he fuel c₂ hc₂ (by simp only [List.length_cons]; omega)
  obtain ⟨site, c₄, hfinish, hc₄⟩ := @finish_eq c₃
    ⟨c.current.span.start, max e'.span.stop c₃.before⟩ (.function · none ps' e' true)
  refine ⟨.function site none ps' e' true, c₄, ?_, ?_, hc₄.trans hc₃⟩
  · simp only [operand, Cursor.current_token hc, Token.unary?, lookahead, opensArrow_eq hc,
      hts, if_true, arrow]
    rw [bind_eq_of_ok hps', bind_eq_of_ok harrow, bind_peek, Cursor.current_token hc₂]
    refine (bind_eq_of_ok ((congrFun (arrowBody_eq _ rfl he.opens) c₂).trans he')).trans ?_
    exact hfinish
  · simp only [Expr.erase, heqs, heq]

theorem functionName_eq {name : Option String}
    (hc : c.tokens = name.toList.map .name ++ .mark .lparen :: ts) (s : Step (Option String))
    (hs : (match c.current.token with
      | .name _ => expectName >>= fun name => pure (some name)
      | _ => pure none) = s) :
    ∃ c', s c = .ok (name, c') ∧ c'.tokens = .mark .lparen :: ts := by
  cases name with
  | none =>
    rw [Cursor.current_token hc] at hs
    subst hs
    exact ⟨c, rfl, hc⟩
  | some name =>
    rw [Cursor.current_token hc] at hs
    subst hs
    obtain ⟨c', hname, hc'⟩ := expectName_eq hc
    exact ⟨c', (bind_eq_of_ok hname).trans rfl, hc'⟩

theorem readsOperand_function {name : Option String} (hps : ReadsParams ps ts ts₁)
    (he : ReadsBlock e ts₁ ts₂) :
    ReadsOperand (.function default name ps e false)
      (.word .func :: (name.toList.map .name ++ .mark .lparen :: ts)) ts₂ := by
  have hlen := hps.length_lt
  rintro (_ | _ | fuel) c hc hfuel
  · omega
  · omega
  simp only [List.length_cons, List.length_append] at hfuel
  obtain ⟨start, c₁, hword, hc₁⟩ := expect_eq (u := .word .func) hc (by simp) rfl
  obtain ⟨c₂, hname', hc₂⟩ := functionName_eq hc₁ _ rfl
  obtain ⟨ps', c₃, hps', heqs, hc₃⟩ := params_eq hps hc₂ fuel (by omega)
  obtain ⟨e', c₄, he', heq, hc₄⟩ := he fuel c₃ hc₃ (by omega)
  obtain ⟨site, c₅, hfinish, hc₅⟩ := @finish_eq c₄
    ⟨start.start, c₄.before⟩ (.function · name ps' e' false)
  refine ⟨.function site name ps' e' false, c₅, ?_, ?_, hc₅.trans hc₄⟩
  · simp only [operand, Cursor.current_token hc, Token.unary?, function]
    rw [bind_eq_of_ok hword, bind_peek]
    refine (bind_eq_of_ok hname').trans ?_
    rw [bind_eq_of_ok hps', bind_eq_of_ok he']
    exact hfinish
  · simp only [Expr.erase, heqs, heq]

/-- A list of tokens that is one expression is parsed without a fault. -/
theorem parseTokens_eq {ls : List Lexeme} (h : ReadsExpr 0 e (ls.map Lexeme.token) [.eof]) :
    ∃ e', parseTokens ls = ⟨some e', []⟩ ∧ e'.erase = e := by
  have hbound : 8 * (ls.map Lexeme.token).length + 4 ≤ depthBound ls := by
    rw [List.length_map, depthBound]
    omega
  obtain ⟨e', c, hok, heq, hc⟩ := h (depthBound ls) ⟨ls, 0, 0⟩ rfl hbound
  refine ⟨e', ?_, heq⟩
  rw [parseTokens, parse, show expr lookahead (depthBound ls) 0 ⟨ls, 0, 0⟩ = .ok (e', c) from hok]
  simp only [Cursor.current_token hc]

end Parser

end DeltaForm
