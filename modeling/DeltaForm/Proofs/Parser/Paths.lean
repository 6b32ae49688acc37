import DeltaForm.Proofs.Parser.Grammar

/-!
# The paths through the parser

What each part of the parser does when it succeeds: the tokens it consumes, the parts it calls, and
the node it finishes. A part with several ways to go has a relation with one rule for each of them
(`OperandPath`, `OperatorsPath`, …), and yields a result if and only if one of them leads to it
(`operand_eq_ok_iff`, `operators_eq_ok_iff`, …). What is proved about everything that the parser
accepts is proved along the paths, by induction on the depth.
-/

namespace DeltaForm

namespace Parser

variable {α β : Type} {c c' : Cursor} {t : Token} {m : Mark} {span : Span} {e : Expr}

/-! ### Consuming tokens -/

/-- The next token is `t` at a place, and it is consumed. -/
structure Takes (t : Token) (span : Span) (c c' : Cursor) : Prop where
  rest : c.rest = ⟨t, span⟩ :: c'.rest
  ne_eof : t ≠ .eof
  before : c'.before = span.stop
  next : c'.next = c.next

namespace Takes

theorem current (h : Takes t span c c') : c.current = ⟨t, span⟩ := by
  rw [Cursor.current, h.rest, List.headD_cons]

theorem current_token (h : Takes t span c c') : c.current.token = t := by
  rw [h.current]

theorem tokens (h : Takes t span c c') : c.tokens = t :: c'.tokens := by
  rw [Cursor.tokens, h.rest, List.map_cons, Cursor.tokens]

end Takes

/-- The same place in the tokens, after one more node. -/
def Cursor.counted (c : Cursor) : Cursor := { c with next := c.next + 1 }

theorem bind_eq_ok_iff {s : Step α} {next : α → Step β} {b : β} :
    (s >>= next) c = .ok (b, c') ↔ ∃ a c₁, s c = .ok (a, c₁) ∧ next a c₁ = .ok (b, c') := by
  change Step.bind s next c = _ ↔ _
  unfold Step.bind
  rcases s c with f | ⟨a, c₁⟩
  · simp
  · simp

theorem pure_eq_ok_iff {a b : α} : (pure a : Step α) c = .ok (b, c') ↔ b = a ∧ c' = c := by
  change Except.ok (a, c) = _ ↔ _
  simp [eq_comm]

theorem lastEnd_eq_ok_iff {n : Nat} : lastEnd c = .ok (n, c') ↔ n = c.before ∧ c' = c := by
  simp [lastEnd, eq_comm]

theorem finish_eq_ok_iff {node : Site → Expr} :
    finish span node c = .ok (e, c') ↔ e = node ⟨some c.next, span⟩ ∧ c' = c.counted := by
  simp [finish, Cursor.counted, eq_comm]

theorem advance_eq_ok_iff (h : c.current.token ≠ .eof) :
    advance c = .ok (span, c') ↔ Takes c.current.token span c c' := by
  obtain ⟨rest, before, next⟩ := c
  obtain ⟨rest', before', next'⟩ := c'
  cases rest with
  | nil => exact absurd rfl h
  | cons l rest =>
    obtain ⟨t, place⟩ := l
    have ht : t ≠ .eof := h
    have heq :
        advance ⟨⟨t, place⟩ :: rest, before, next⟩ = .ok (place, ⟨rest, place.stop, next⟩) := by
      cases t <;> first | rfl | exact absurd rfl ht
    rw [heq]
    constructor
    · intro hok
      cases hok
      exact ⟨rfl, ht, rfl, rfl⟩
    · rintro ⟨hrest, -, hbefore, hnext⟩
      cases hrest
      cases hbefore
      cases hnext
      rfl

/-- As `advance_eq_ok_iff`, where the next token is known. -/
theorem advance_eq_ok_iff_of_eq (h : c.current.token = t) (ht : t ≠ .eof) :
    advance c = .ok (span, c') ↔ Takes t span c c' := by
  subst h
  exact advance_eq_ok_iff ht

theorem Takes.advance_eq (h : Takes t span c c') : advance c = .ok (span, c') :=
  (advance_eq_ok_iff_of_eq h.current_token h.ne_eof).2 h

theorem sameKind_mark_iff : t.sameKind (.mark m) = true ↔ t = .mark m := by
  cases t <;> simp [Token.sameKind]

theorem sameKind_eof_iff : t.sameKind .eof = true ↔ t = .eof := by
  cases t <;> simp [Token.sameKind]

theorem expect_eq_ok_iff {u : Token} (hu : u ≠ .eof)
    (hkind : ∀ t : Token, t.sameKind u = true ↔ t = u) :
    expect u c = .ok (span, c') ↔ Takes u span c c' := by
  unfold expect
  split
  · rename_i h
    exact advance_eq_ok_iff_of_eq ((hkind _).1 h) hu
  · rename_i h
    simp only [refuse, reduceCtorEq, false_iff]
    exact fun htakes => h ((hkind _).2 htakes.current_token)

theorem expect_mark_eq_ok_iff :
    expect (.mark m) c = .ok (span, c') ↔ Takes (.mark m) span c c' :=
  expect_eq_ok_iff (by simp) fun _ => sameKind_mark_iff

theorem expect_func_eq_ok_iff :
    expect (.word .func) c = .ok (span, c') ↔ Takes (.word .func) span c c' :=
  expect_eq_ok_iff (by simp) fun t => by cases t <;> simp [Token.sameKind]

theorem accept_mark_eq_ok_iff {b : Bool} :
    accept (.mark m) c = .ok (b, c') ↔
      b = true ∧ (∃ span, Takes (.mark m) span c c') ∨
        b = false ∧ c' = c ∧ c.current.token ≠ .mark m := by
  unfold accept
  split
  · rename_i h
    have h := sameKind_mark_iff.1 h
    simp only [bind_eq_ok_iff, advance_eq_ok_iff_of_eq h (by simp), pure_eq_ok_iff]
    constructor
    · rintro ⟨span, c₁, htakes, rfl, rfl⟩
      exact .inl ⟨rfl, span, htakes⟩
    · rintro (⟨rfl, span, htakes⟩ | ⟨-, -, hne⟩)
      · exact ⟨span, c', htakes, rfl, rfl⟩
      · exact absurd h hne
  · rename_i h
    have h := mt sameKind_mark_iff.2 h
    constructor
    · intro hok
      cases hok
      exact .inr ⟨rfl, rfl, h⟩
    · rintro (⟨-, span, htakes⟩ | ⟨rfl, rfl, -⟩)
      · exact absurd htakes.current_token h
      · rfl

theorem expectName_eq_ok_iff {name : String} :
    expectName c = .ok (name, c') ↔ ∃ span, Takes (.name name) span c c' := by
  unfold expectName
  split
  · rename_i s h
    simp only [bind_eq_ok_iff, advance_eq_ok_iff_of_eq h (by simp), pure_eq_ok_iff]
    constructor
    · rintro ⟨span, c₁, htakes, rfl, rfl⟩
      exact ⟨span, htakes⟩
    · rintro ⟨span, htakes⟩
      cases h.symm.trans htakes.current_token
      exact ⟨span, c', htakes, rfl, rfl⟩
  · rename_i h
    simp only [refuse, reduceCtorEq, false_iff]
    rintro ⟨span, htakes⟩
    exact h name htakes.current_token

theorem expectProperty_eq_ok_iff {name : String} :
    expectProperty c = .ok (name, c') ↔
      ∃ t span, t.propertyName? = some name ∧ Takes t span c c' := by
  unfold expectProperty
  split
  · rename_i s h
    have hne : c.current.token ≠ .eof := by
      intro heof
      rw [heof] at h
      cases h
    simp only [bind_eq_ok_iff, advance_eq_ok_iff hne, pure_eq_ok_iff]
    constructor
    · rintro ⟨span, c₁, htakes, rfl, rfl⟩
      exact ⟨_, span, h, htakes⟩
    · rintro ⟨t, span, hname, htakes⟩
      rw [htakes.current_token] at h
      cases h.symm.trans hname
      rw [htakes.current_token]
      exact ⟨span, c', htakes, rfl, rfl⟩
  · rename_i h
    simp only [refuse, reduceCtorEq, false_iff]
    rintro ⟨t, span, hname, htakes⟩
    rw [htakes.current_token] at h
    cases h.symm.trans hname

/-! ### Expressions and operators -/

section Paths

variable {σ : Strategy} {fuel least start : Nat} {left : Expr}

theorem expr_eq_ok_iff :
    expr σ (fuel + 1) least c = .ok (e, c') ↔
      ∃ left c₁, operand σ fuel c = .ok (left, c₁) ∧
        operators σ fuel least c.current.span.start left c₁ = .ok (e, c') := by
  simp only [expr]
  rw [bind_peek, bind_eq_ok_iff]

/-- Whether a call or property access starts with a token. -/
def opensAccess : Token → Bool
  | .mark .lparen | .mark .lbracket | .mark .dot => true
  | _ => false

/-- The ways on after an operand. -/
inductive OperatorsPath (σ : Strategy) (fuel least start : Nat) (left : Expr) (c : Cursor) :
    Expr → Cursor → Prop
  | stop (h : stopsBefore least c.current.token = true) :
    OperatorsPath σ fuel least start left c left c
  | access {left' e : Expr} {c₁ c' : Cursor} (h : opensAccess c.current.token = true)
    (hleast : least ≤ accessPower) (hleft : access σ fuel left c = .ok (left', c₁))
    (hrest : operators σ fuel least start left' c₁ = .ok (e, c')) :
    OperatorsPath σ fuel least start left c e c'
  | conditional {a b e : Expr} {question colon : Span} {c₁ c₂ c₃ c₄ c' : Cursor}
    (hleast : least ≤ conditionalPower) (hquestion : Takes (.mark .question) question c c₁)
    (ha : expr σ fuel 0 c₁ = .ok (a, c₂)) (hcolon : Takes (.mark .colon) colon c₂ c₃)
    (hb : expr σ fuel conditionalPower c₃ = .ok (b, c₄))
    (hrest : operators σ fuel least start
      (.conditional ⟨some c₄.next, ⟨start, b.span.stop⟩⟩ left a b) c₄.counted = .ok (e, c')) :
    OperatorsPath σ fuel least start left c e c'
  | connective {op : Connective} {t : Token} {r e : Expr} {span : Span} {c₁ c₂ c' : Cursor}
    (hop : t.connective? = some op) (hleast : least ≤ op.power.1) (ht : Takes t span c c₁)
    (hr : expr σ fuel op.power.2 c₁ = .ok (r, c₂))
    (hrest : operators σ fuel least start
      (op.node ⟨some c₂.next, ⟨start, r.span.stop⟩⟩ left r) c₂.counted = .ok (e, c')) :
    OperatorsPath σ fuel least start left c e c'

theorem goes_on_of_not_stopsBefore (h : stopsBefore least t = false) :
    opensAccess t = true ∧ least ≤ accessPower ∨
      t = .mark .question ∧ least ≤ conditionalPower ∨
        ∃ op, t.connective? = some op ∧ least ≤ op.power.1 := by
  unfold stopsBefore at h
  split at h
  · exact .inl ⟨rfl, Nat.le_of_not_lt (of_decide_eq_false h)⟩
  · exact .inl ⟨rfl, Nat.le_of_not_lt (of_decide_eq_false h)⟩
  · exact .inl ⟨rfl, Nat.le_of_not_lt (of_decide_eq_false h)⟩
  · exact .inr (.inl ⟨rfl, Nat.le_of_not_lt (of_decide_eq_false h)⟩)
  · cases hop : t.connective? with
    | none =>
      rw [hop] at h
      cases h
    | some op =>
      rw [hop] at h
      exact .inr (.inr ⟨op, rfl, Nat.le_of_not_lt (of_decide_eq_false h)⟩)

theorem operators_of_opensAccess (h : opensAccess c.current.token = true)
    (hleast : least ≤ accessPower) :
    operators σ (fuel + 1) least start left c = (do
      let left ← access σ fuel left
      operators σ fuel least start left) c := by
  have hnot := Nat.not_lt.2 hleast
  unfold opensAccess at h
  split at h
  · rename_i htoken
    simp only [operators, htoken, hnot, if_false]
  · rename_i htoken
    simp only [operators, htoken, hnot, if_false]
  · rename_i htoken
    simp only [operators, htoken, hnot, if_false]
  · cases h

theorem operators_of_question (h : c.current.token = .mark .question)
    (hleast : least ≤ conditionalPower) :
    operators σ (fuel + 1) least start left c = (do
      let _ ← advance
      let consequent ← expr σ fuel 0
      let _ ← expect (.mark .colon)
      let alternate ← expr σ fuel conditionalPower
      let node ← finish ⟨start, alternate.span.stop⟩ (.conditional · left consequent alternate)
      operators σ fuel least start node) c := by
  simp only [operators, h, Nat.not_lt.2 hleast, if_false]

theorem operators_of_connective {op : Connective} (h : c.current.token.connective? = some op)
    (hleast : least ≤ op.power.1) :
    operators σ (fuel + 1) least start left c = (do
      let _ ← advance
      let right ← expr σ fuel op.power.2
      let node ← finish ⟨start, right.span.stop⟩ (op.node · left right)
      operators σ fuel least start node) c := by
  simp only [operators]
  split
  · simp_all [Token.connective?]
  · simp_all [Token.connective?]
  · simp_all [Token.connective?]
  · simp_all [Token.connective?]
  · simp only [h, Nat.not_lt.2 hleast, if_false]

theorem operators_eq_ok_iff :
    operators σ (fuel + 1) least start left c = .ok (e, c') ↔
      OperatorsPath σ fuel least start left c e c' := by
  constructor
  · intro h
    cases hstop : stopsBefore least c.current.token with
    | true =>
      cases (operators_of_stopsBefore hstop).symm.trans h
      exact .stop hstop
    | false =>
      rcases goes_on_of_not_stopsBefore hstop with
        ⟨hopens, hleast⟩ | ⟨hq, hleast⟩ | ⟨op, hop, hleast⟩
      · rw [operators_of_opensAccess hopens hleast, bind_eq_ok_iff] at h
        obtain ⟨left', c₁, hleft, hrest⟩ := h
        exact .access hopens hleast hleft hrest
      · rw [operators_of_question hq hleast] at h
        simp only [bind_eq_ok_iff, advance_eq_ok_iff_of_eq hq (by simp), expect_mark_eq_ok_iff,
          finish_eq_ok_iff] at h
        obtain ⟨question, c₁, hquestion, a, c₂, ha, colon, c₃, hcolon, b, c₄, hb, node, c₅,
          ⟨rfl, rfl⟩, hrest⟩ := h
        exact .conditional hleast hquestion ha hcolon hb hrest
      · have hne : c.current.token ≠ .eof := by
          intro heof
          rw [heof] at hop
          cases hop
        rw [operators_of_connective hop hleast] at h
        simp only [bind_eq_ok_iff, advance_eq_ok_iff hne, finish_eq_ok_iff] at h
        obtain ⟨span, c₁, ht, r, c₂, hr, node, c₃, ⟨rfl, rfl⟩, hrest⟩ := h
        exact .connective hop hleast ht hr hrest
  · intro h
    cases h with
    | stop h => exact operators_of_stopsBefore h
    | access h hleast hleft hrest =>
      rw [operators_of_opensAccess h hleast, bind_eq_of_ok hleft]
      exact hrest
    | conditional hleast hquestion ha hcolon hb hrest =>
      rw [operators_of_question hquestion.current_token hleast, bind_eq_of_ok hquestion.advance_eq,
        bind_eq_of_ok ha, bind_eq_of_ok (expect_mark_eq_ok_iff.2 hcolon), bind_eq_of_ok hb]
      exact hrest
    | connective hop hleast ht hr hrest =>
      rw [operators_of_connective (ht.current_token ▸ hop) hleast, bind_eq_of_ok ht.advance_eq,
        bind_eq_of_ok hr]
      exact hrest

/-! ### Operands -/

/-- The ways to read an operand. -/
inductive OperandPath (σ : Strategy) (fuel : Nat) (c : Cursor) : Expr → Cursor → Prop
  | unary {op : UnaryOp} {t : Token} {e : Expr} {span : Span} {c₁ c₂ : Cursor}
    (hop : t.unary? = some op) (ht : Takes t span c c₁)
    (he : expr σ fuel unaryPower c₁ = .ok (e, c₂)) :
    OperandPath σ fuel c (.unary ⟨some c₂.next, ⟨span.start, e.span.stop⟩⟩ op e) c₂.counted
  /-- An arrow function or an expression in parentheses. -/
  | opening {e : Expr} {c' : Cursor} (h : c.current.token = .mark .lparen)
    (he : σ (arrow σ fuel) (paren σ fuel) c = .ok (e, c')) : OperandPath σ fuel c e c'
  | array {es : List Expr} {span : Span} {c₁ c₂ : Cursor} (ht : Takes (.mark .lbracket) span c c₁)
    (hes : items σ fuel (.mark .rbracket) c₁ = .ok (es, c₂)) :
    OperandPath σ fuel c (.array ⟨some c₂.next, ⟨span.start, c₂.before⟩⟩ es) c₂.counted
  | function {e : Expr} {c' : Cursor} (h : c.current.token = .word .func)
    (he : function σ fuel c = .ok (e, c')) : OperandPath σ fuel c e c'
  /-- An arrow function with one parameter and no parentheses. -/
  | arrow {name : String} {e : Expr} {c' : Cursor} (h : c.current.token = .name name)
    (harrow : arrowFollows c = true) (he : arrow σ fuel c = .ok (e, c')) : OperandPath σ fuel c e c'
  | leaf {node : Site → Expr} {t : Token} {span : Span} {c₁ : Cursor} (hleaf : leaf? t = some node)
    (ht : Takes t span c c₁) (harrow : ∀ name, t = .name name → arrowFollows c = false) :
    OperandPath σ fuel c (node ⟨some c₁.next, span⟩) c₁.counted

theorem leaf_eq_ok_iff {node : Site → Expr} (h : c.current.token = t) (ht : t ≠ .eof) :
    (advance >>= fun span => finish span node) c = .ok (e, c') ↔
      ∃ span c₁, Takes t span c c₁ ∧ e = node ⟨some c₁.next, span⟩ ∧ c' = c₁.counted := by
  simp only [bind_eq_ok_iff, advance_eq_ok_iff_of_eq h ht, finish_eq_ok_iff]

theorem operandPath_of_eq_ok (h : operand σ (fuel + 1) c = .ok (e, c')) :
    OperandPath σ fuel c e c' := by
  simp only [operand] at h
  split at h
  · rename_i op hop
    have hne : c.current.token ≠ .eof := by
      intro heof
      rw [heof] at hop
      cases hop
    simp only [bind_eq_ok_iff, advance_eq_ok_iff hne, finish_eq_ok_iff] at h
    obtain ⟨span, c₁, ht, e₁, c₂, he, rfl, rfl⟩ := h
    rw [ht.current]
    exact .unary hop ht he
  · split at h
    · rename_i htoken
      exact .opening htoken h
    · rename_i htoken
      simp only [bind_eq_ok_iff, advance_eq_ok_iff_of_eq htoken (by simp), lastEnd_eq_ok_iff,
        finish_eq_ok_iff] at h
      obtain ⟨span, c₁, ht, es, c₂, hes, stop, c₃, ⟨rfl, rfl⟩, rfl, rfl⟩ := h
      rw [ht.current]
      exact .array ht hes
    · rename_i htoken
      exact .function htoken h
    · rename_i name htoken
      split at h
      · rename_i harrow
        exact .arrow htoken harrow h
      · rename_i harrow
        obtain ⟨span, c₁, ht, rfl, rfl⟩ := (leaf_eq_ok_iff htoken (by simp)).1 h
        have hleaf : leaf? (.name name) = some (.ident · name) := rfl
        exact .leaf hleaf ht fun _ _ => Bool.not_eq_true _ ▸ harrow
    · rename_i hparen hbracket hfunc hname
      split at h
      · rename_i node hleaf
        have hne : c.current.token ≠ .eof := by
          intro heof
          rw [heof] at hleaf
          cases hleaf
        obtain ⟨span, c₁, ht, rfl, rfl⟩ := (leaf_eq_ok_iff rfl hne).1 h
        exact .leaf hleaf ht fun name heq => absurd heq (hname name)
      · cases h

theorem operand_eq_ok_of_path (h : OperandPath σ fuel c e c') :
    operand σ (fuel + 1) c = .ok (e, c') := by
  cases h with
  | unary hop ht he =>
    simp only [operand, ht.current, hop]
    rw [bind_eq_of_ok ht.advance_eq, bind_eq_of_ok he]
    rfl
  | opening h he =>
    simp only [operand, h, Token.unary?]
    exact he
  | array ht hes =>
    simp only [operand, ht.current, Token.unary?]
    rw [bind_eq_of_ok ht.advance_eq, bind_eq_of_ok hes]
    rfl
  | function h he =>
    simp only [operand, h, Token.unary?]
    exact he
  | arrow h harrow he =>
    simp only [operand, h, Token.unary?, harrow, if_true]
    exact he
  | @leaf node t span c₁ hleaf ht harrow =>
    have hok : (advance >>= fun span => finish span node) c =
        .ok (node ⟨some c₁.next, span⟩, c₁.counted) :=
      (leaf_eq_ok_iff ht.current_token ht.ne_eof).2 ⟨span, c₁, ht, rfl, rfl⟩
    cases t with
    | word | mark | eof => cases hleaf
    | name s =>
      cases hleaf
      simp only [operand, ht.current_token, Token.unary?, harrow s rfl]
      exact hok
    | _ =>
      simp only [operand, ht.current_token, Token.unary?, hleaf]
      exact hok

theorem operand_eq_ok_iff :
    operand σ (fuel + 1) c = .ok (e, c') ↔ OperandPath σ fuel c e c' :=
  ⟨operandPath_of_eq_ok, operand_eq_ok_of_path⟩

theorem paren_eq_ok_iff :
    paren σ (fuel + 1) c = .ok (e, c') ↔
      ∃ opening c₁ inner c₂ closing, Takes (.mark .lparen) opening c c₁ ∧
        expr σ fuel 0 c₁ = .ok (inner, c₂) ∧ Takes (.mark .rparen) closing c₂ c' ∧
        e = inner.withSpan ⟨opening.start, closing.stop⟩ := by
  simp only [paren, bind_eq_ok_iff, expect_mark_eq_ok_iff, pure_eq_ok_iff]
  constructor
  · rintro ⟨opening, c₁, hopen, inner, c₂, he, closing, c₃, hclose, rfl, rfl⟩
    exact ⟨opening, c₁, inner, c₂, closing, hopen, he, hclose, rfl⟩
  · rintro ⟨opening, c₁, inner, c₂, closing, hopen, he, hclose, rfl⟩
    exact ⟨opening, c₁, hopen, inner, c₂, he, closing, c', hclose, rfl, rfl⟩

/-! ### Lists and accesses -/

/-- The ways to read expressions up to the closing bracket `m`. -/
inductive ItemsPath (σ : Strategy) (fuel : Nat) (m : Mark) (c : Cursor) :
    List Expr → Cursor → Prop
  | nil {span : Span} {c' : Cursor} (hclose : Takes (.mark m) span c c') :
    ItemsPath σ fuel m c [] c'
  | last {e : Expr} {span : Span} {c₁ c' : Cursor} (hopen : c.current.token ≠ .mark m)
    (heof : c.current.token ≠ .eof) (he : expr σ fuel 0 c = .ok (e, c₁)) (hm : m ≠ .comma)
    (hclose : Takes (.mark m) span c₁ c') : ItemsPath σ fuel m c [e] c'
  | more {e : Expr} {es : List Expr} {span : Span} {c₁ c₂ c' : Cursor}
    (hopen : c.current.token ≠ .mark m) (heof : c.current.token ≠ .eof)
    (he : expr σ fuel 0 c = .ok (e, c₁)) (hcomma : Takes (.mark .comma) span c₁ c₂)
    (hes : items σ fuel (.mark m) c₂ = .ok (es, c')) : ItemsPath σ fuel m c (e :: es) c'

theorem items_eq_ok_iff {es : List Expr} :
    items σ (fuel + 1) (.mark m) c = .ok (es, c') ↔ ItemsPath σ fuel m c es c' := by
  have hstart : (c.current.token.sameKind (.mark m) || c.current.token.sameKind .eof) = true ↔
      c.current.token = .mark m ∨ c.current.token = .eof := by
    rw [Bool.or_eq_true, sameKind_mark_iff, sameKind_eof_iff]
  simp only [items]
  constructor
  · intro h
    split at h
    · simp only [bind_eq_ok_iff, expect_mark_eq_ok_iff, pure_eq_ok_iff] at h
      obtain ⟨span, c₁, hclose, rfl, rfl⟩ := h
      exact .nil hclose
    · rename_i hne
      rw [hstart, not_or] at hne
      obtain ⟨e, c₁, he, hnext⟩ := bind_eq_ok_iff.1 h
      obtain ⟨more, c₂, haccept, hrest⟩ := bind_eq_ok_iff.1 hnext
      rcases accept_mark_eq_ok_iff.1 haccept with ⟨rfl, span, hcomma⟩ | ⟨rfl, rfl, hcomma⟩
      · simp only [if_true, bind_eq_ok_iff, pure_eq_ok_iff] at hrest
        obtain ⟨es', c₃, hes, rfl, rfl⟩ := hrest
        exact .more hne.1 hne.2 he hcomma hes
      · simp only [Bool.false_eq_true, if_false, bind_eq_ok_iff, expect_mark_eq_ok_iff,
          pure_eq_ok_iff] at hrest
        obtain ⟨span, c₃, hclose, rfl, rfl⟩ := hrest
        exact .last hne.1 hne.2 he (fun hm => hcomma (hm ▸ hclose.current_token)) hclose
  · intro h
    cases h with
    | nil hclose =>
      rw [if_pos (hstart.2 (.inl hclose.current_token)),
        bind_eq_of_ok (expect_mark_eq_ok_iff.2 hclose)]
      rfl
    | @last e span c₁ _ hopen heof he hm hclose =>
      have haccept : accept (.mark .comma) c₁ = .ok (false, c₁) :=
        accept_mark_eq_ok_iff.2 (.inr ⟨rfl, rfl, by simpa [hclose.current_token] using hm⟩)
      rw [if_neg (mt hstart.1 (not_or.2 ⟨hopen, heof⟩)), bind_eq_of_ok he, bind_eq_of_ok haccept,
        if_neg (by simp), bind_eq_of_ok (expect_mark_eq_ok_iff.2 hclose)]
      rfl
    | @more e es span c₁ c₂ _ hopen heof he hcomma hes =>
      have haccept : accept (.mark .comma) c₁ = .ok (true, c₂) :=
        accept_mark_eq_ok_iff.2 (.inl ⟨rfl, span, hcomma⟩)
      rw [if_neg (mt hstart.1 (not_or.2 ⟨hopen, heof⟩)), bind_eq_of_ok he, bind_eq_of_ok haccept,
        if_pos rfl, bind_eq_of_ok hes]
      rfl

/-- The calls and property accesses after `left`. -/
inductive AccessPath (σ : Strategy) (fuel : Nat) (left : Expr) (c : Cursor) : Expr → Cursor → Prop
  | call {args : List Expr} {span : Span} {c₁ c₂ : Cursor} (ht : Takes (.mark .lparen) span c c₁)
    (hargs : items σ fuel (.mark .rparen) c₁ = .ok (args, c₂)) :
    AccessPath σ fuel left c (.call ⟨some c₂.next, ⟨left.span.start, c₂.before⟩⟩ left args)
      c₂.counted
  | computed {p : Expr} {opening closing : Span} {c₁ c₂ c₃ : Cursor}
    (ht : Takes (.mark .lbracket) opening c c₁) (hp : expr σ fuel 0 c₁ = .ok (p, c₂))
    (hclose : Takes (.mark .rbracket) closing c₂ c₃) :
    AccessPath σ fuel left c (.member ⟨some c₃.next, ⟨left.span.start, closing.stop⟩⟩ left p true)
      c₃.counted
  | named {name : String} {t : Token} {dot span : Span} {c₁ c₂ : Cursor}
    (hdot : Takes (.mark .dot) dot c c₁) (hname : t.propertyName? = some name)
    (ht : Takes t span c₁ c₂) :
    AccessPath σ fuel left c
      (.member ⟨some c₂.counted.next, ⟨left.span.start, span.stop⟩⟩ left
        (.ident ⟨some c₂.next, span⟩ name) false)
      c₂.counted.counted

theorem access_eq_ok_iff :
    access σ (fuel + 1) left c = .ok (e, c') ↔ AccessPath σ fuel left c e c' := by
  constructor
  · intro h
    simp only [access] at h
    split at h
    · rename_i htoken
      simp only [bind_eq_ok_iff, advance_eq_ok_iff_of_eq htoken (by simp), lastEnd_eq_ok_iff,
        finish_eq_ok_iff] at h
      obtain ⟨span, c₁, ht, args, c₂, hargs, stop, c₃, ⟨rfl, rfl⟩, rfl, rfl⟩ := h
      exact .call ht hargs
    · rename_i htoken
      simp only [bind_eq_ok_iff, advance_eq_ok_iff_of_eq htoken (by simp), expect_mark_eq_ok_iff,
        finish_eq_ok_iff] at h
      obtain ⟨opening, c₁, ht, p, c₂, hp, closing, c₃, hclose, rfl, rfl⟩ := h
      exact .computed ht hp hclose
    · simp only [bind_eq_ok_iff, expect_mark_eq_ok_iff] at h
      obtain ⟨dot, c₁, hdot, place, c₂, hplace, h⟩ := h
      cases hplace
      simp only [expectProperty_eq_ok_iff, finish_eq_ok_iff] at h
      obtain ⟨name, c₂, ⟨t, span, hname, ht⟩, property, c₃, ⟨rfl, rfl⟩, rfl, rfl⟩ := h
      rw [ht.current]
      exact .named hdot hname ht
  · intro h
    cases h with
    | call ht hargs =>
      simp only [access, ht.current_token]
      rw [bind_eq_of_ok ht.advance_eq, bind_eq_of_ok hargs]
      rfl
    | computed ht hp hclose =>
      simp only [access, ht.current_token]
      rw [bind_eq_of_ok ht.advance_eq, bind_eq_of_ok hp,
        bind_eq_of_ok (expect_mark_eq_ok_iff.2 hclose)]
      rfl
    | named hdot hname ht =>
      simp only [access, hdot.current_token]
      rw [bind_eq_of_ok (expect_mark_eq_ok_iff.2 hdot), bind_peek, ht.current,
        bind_eq_of_ok (expectProperty_eq_ok_iff.2 ⟨_, _, hname, ht⟩)]
      rfl

/-! ### Functions -/

/-- The parameters of an arrow function, which may be a single name. -/
inductive ArrowParams (σ : Strategy) (fuel : Nat) (c : Cursor) : List Param → Cursor → Prop
  | params {ps : List Param} {c' : Cursor} (h : c.current.token = .mark .lparen)
    (hps : params σ fuel c = .ok (ps, c')) : ArrowParams σ fuel c ps c'
  | name {name : String} {span : Span} {c' : Cursor} (hname : Takes (.name name) span c c') :
    ArrowParams σ fuel c [.required name span] c'

/-- The body of an arrow function. -/
inductive ArrowBody (σ : Strategy) (fuel : Nat) (c : Cursor) : Expr → Cursor → Prop
  | block {e : Expr} {c' : Cursor} (h : c.current.token = .mark .lbrace)
    (he : block σ fuel c = .ok (e, c')) : ArrowBody σ fuel c e c'
  | expr {e : Expr} {c' : Cursor} (h : c.current.token ≠ .mark .lbrace)
    (he : expr σ fuel 0 c = .ok (e, c')) : ArrowBody σ fuel c e c'

theorem arrowParams_iff {ps : List Param} (s : Step (List Param))
    (hs : (match c.current.token with
      | .mark .lparen => params σ fuel
      | _ => expectName >>= fun name => pure [.required name c.current.span]) = s) :
    s c = .ok (ps, c') ↔ ArrowParams σ fuel c ps c' := by
  split at hs
  · rename_i h
    subst hs
    constructor
    · exact fun hps => .params h hps
    · intro hps
      cases hps with
      | params _ hps => exact hps
      | name hname => cases h.symm.trans hname.current_token
  · rename_i h
    subst hs
    simp only [bind_eq_ok_iff, expectName_eq_ok_iff, pure_eq_ok_iff]
    constructor
    · rintro ⟨name, c₁, ⟨span, hname⟩, rfl, rfl⟩
      rw [hname.current]
      exact .name hname
    · intro hps
      cases hps with
      | params hparen => exact absurd hparen h
      | @name name span _ hname =>
        exact ⟨name, c', ⟨span, hname⟩, by rw [hname.current], rfl⟩

theorem arrowBody_iff (s : Step Expr)
    (hs : (match c.current.token with
      | .mark .lbrace => block σ fuel
      | _ => expr σ fuel 0) = s) :
    s c = .ok (e, c') ↔ ArrowBody σ fuel c e c' := by
  split at hs
  · rename_i h
    subst hs
    constructor
    · exact fun he => .block h he
    · intro he
      cases he with
      | block _ he => exact he
      | expr hne => exact absurd h hne
  · rename_i h
    subst hs
    constructor
    · exact fun he => .expr h he
    · intro he
      cases he with
      | block hbrace => exact absurd hbrace h
      | expr _ he => exact he

theorem arrow_eq_ok_iff :
    arrow σ (fuel + 1) c = .ok (e, c') ↔
      ∃ ps c₁ span c₂ body c₃, ArrowParams σ fuel c ps c₁ ∧ Takes (.mark .arrow) span c₁ c₂ ∧
        ArrowBody σ fuel c₂ body c₃ ∧ c' = c₃.counted ∧
        e = .function ⟨some c₃.next, ⟨c.current.span.start, max body.span.stop c₃.before⟩⟩ none ps
          body true := by
  simp only [arrow, bind_eq_ok_iff, expect_mark_eq_ok_iff]
  constructor
  · rintro ⟨ps, c₁, hps, span, c₂, harrow, next, c₂', hnext, body, c₃, hbody, last, c₃', hlast, h⟩
    cases hnext
    cases hlast
    obtain ⟨rfl, rfl⟩ := finish_eq_ok_iff.1 h
    exact ⟨ps, c₁, span, _, body, _, (arrowParams_iff _ rfl).1 hps, harrow,
      (arrowBody_iff _ rfl).1 hbody, rfl, rfl⟩
  · rintro ⟨ps, c₁, span, c₂, body, c₃, hps, harrow, hbody, rfl, rfl⟩
    exact ⟨ps, c₁, (arrowParams_iff _ rfl).2 hps, span, c₂, harrow, c₂.current, c₂, rfl, body, c₃,
      (arrowBody_iff _ rfl).2 hbody, c₃.before, c₃, rfl, rfl⟩

/-- The name of a function, if it has one. -/
inductive FunctionName (c : Cursor) : Option String → Cursor → Prop
  | some {name : String} {span : Span} {c' : Cursor} (hname : Takes (.name name) span c c') :
    FunctionName c (some name) c'
  | none (h : ∀ name, c.current.token ≠ .name name) : FunctionName c none c

theorem functionName_iff {name : Option String} (s : Step (Option String))
    (hs : (match c.current.token with
      | .name _ => expectName >>= fun name => pure (some name)
      | _ => pure none) = s) :
    s c = .ok (name, c') ↔ FunctionName c name c' := by
  split at hs
  · rename_i h
    subst hs
    simp only [bind_eq_ok_iff, expectName_eq_ok_iff, pure_eq_ok_iff]
    constructor
    · rintro ⟨name, c₁, ⟨span, hname⟩, rfl, rfl⟩
      exact .some hname
    · intro hname
      cases hname with
      | @some name span _ hname => exact ⟨name, c', ⟨span, hname⟩, rfl, rfl⟩
      | none hne => exact absurd h (hne _)
  · rename_i h
    subst hs
    rw [pure_eq_ok_iff]
    constructor
    · rintro ⟨rfl, rfl⟩
      exact .none h
    · intro hname
      cases hname with
      | some hname => exact absurd hname.current_token (h _)
      | none => exact ⟨rfl, rfl⟩

theorem function_eq_ok_iff :
    function σ (fuel + 1) c = .ok (e, c') ↔
      ∃ word c₁ name c₂ ps c₃ body c₄, Takes (.word .func) word c c₁ ∧ FunctionName c₁ name c₂ ∧
        params σ fuel c₂ = .ok (ps, c₃) ∧ block σ fuel c₃ = .ok (body, c₄) ∧ c' = c₄.counted ∧
        e = .function ⟨some c₄.next, ⟨word.start, c₄.before⟩⟩ name ps body false := by
  simp only [function, bind_eq_ok_iff, expect_func_eq_ok_iff]
  constructor
  · rintro ⟨word, c₁, hword, next, c₁', hnext, name, c₂, hname, ps, c₃, hps, body, c₄, hbody, last,
      c₄', hlast, h⟩
    cases hnext
    cases hlast
    obtain ⟨rfl, rfl⟩ := finish_eq_ok_iff.1 h
    exact ⟨word, _, name, c₂, ps, c₃, body, _, hword, (functionName_iff _ rfl).1 hname, hps, hbody,
      rfl, rfl⟩
  · rintro ⟨word, c₁, name, c₂, ps, c₃, body, c₄, hword, hname, hps, hbody, rfl, rfl⟩
    exact ⟨word, c₁, hword, c₁.current, c₁, rfl, name, c₂, (functionName_iff _ rfl).2 hname, ps, c₃,
      hps, body, c₄, hbody, c₄.before, c₄, rfl, rfl⟩

theorem params_eq_ok_iff {ps : List Param} :
    params σ (fuel + 1) c = .ok (ps, c') ↔
      ∃ span c₁, Takes (.mark .lparen) span c c₁ ∧ moreParams σ fuel c₁ = .ok (ps, c') := by
  simp only [params, bind_eq_ok_iff, expect_mark_eq_ok_iff]

/-- A parameter, up to the comma or the closing parenthesis after it. -/
inductive ParamPath (σ : Strategy) (fuel : Nat) (c : Cursor) : Param → Cursor → Prop
  | required {name : String} {span : Span} {c' : Cursor} (hname : Takes (.name name) span c c')
    (hassign : c'.current.token ≠ .mark .assign) : ParamPath σ fuel c (.required name span) c'
  | optional {name : String} {d : Expr} {span assign : Span} {c₁ c₂ c' : Cursor}
    (hname : Takes (.name name) span c c₁) (hassign : Takes (.mark .assign) assign c₁ c₂)
    (hd : expr σ fuel 0 c₂ = .ok (d, c')) :
    ParamPath σ fuel c (.optional name ⟨span.start, c'.before⟩ d) c'

/-- The ways to read parameters up to the closing parenthesis. -/
inductive MoreParamsPath (σ : Strategy) (fuel : Nat) (c : Cursor) : List Param → Cursor → Prop
  | nil {span : Span} {c' : Cursor} (hclose : Takes (.mark .rparen) span c c') :
    MoreParamsPath σ fuel c [] c'
  | last {p : Param} {span : Span} {c₁ c' : Cursor} (hp : ParamPath σ fuel c p c₁)
    (hclose : Takes (.mark .rparen) span c₁ c') : MoreParamsPath σ fuel c [p] c'
  | more {p : Param} {ps : List Param} {span : Span} {c₁ c₂ c' : Cursor}
    (hp : ParamPath σ fuel c p c₁) (hcomma : Takes (.mark .comma) span c₁ c₂)
    (hps : moreParams σ fuel c₂ = .ok (ps, c')) : MoreParamsPath σ fuel c (p :: ps) c'

theorem afterParam_eq_ok_iff {p : Param} {ps : List Param} :
    afterParam σ fuel p c = .ok (ps, c') ↔
      (∃ span, ps = [p] ∧ Takes (.mark .rparen) span c c') ∨
        ∃ span c₁ qs, ps = p :: qs ∧ Takes (.mark .comma) span c c₁ ∧
          moreParams σ fuel c₁ = .ok (qs, c') := by
  unfold afterParam
  constructor
  · intro h
    obtain ⟨more, c₁, haccept, hrest⟩ := bind_eq_ok_iff.1 h
    rcases accept_mark_eq_ok_iff.1 haccept with ⟨rfl, span, hcomma⟩ | ⟨rfl, rfl, -⟩
    · simp only [if_true, bind_eq_ok_iff, pure_eq_ok_iff] at hrest
      obtain ⟨qs, c₂, hps, rfl, rfl⟩ := hrest
      exact .inr ⟨span, c₁, qs, rfl, hcomma, hps⟩
    · simp only [Bool.false_eq_true, if_false, bind_eq_ok_iff, expect_mark_eq_ok_iff,
        pure_eq_ok_iff] at hrest
      obtain ⟨span, c₂, hclose, rfl, rfl⟩ := hrest
      exact .inl ⟨span, rfl, hclose⟩
  · rintro (⟨span, rfl, hclose⟩ | ⟨span, c₁, qs, rfl, hcomma, hps⟩)
    · have haccept : accept (.mark .comma) c = .ok (false, c) :=
        accept_mark_eq_ok_iff.2 (.inr ⟨rfl, rfl, by simp [hclose.current_token]⟩)
      rw [bind_eq_of_ok haccept, if_neg (by simp), bind_eq_of_ok (expect_mark_eq_ok_iff.2 hclose)]
      rfl
    · have haccept : accept (.mark .comma) c = .ok (true, c₁) :=
        accept_mark_eq_ok_iff.2 (.inl ⟨rfl, span, hcomma⟩)
      rw [bind_eq_of_ok haccept, if_pos rfl, bind_eq_of_ok hps]
      rfl

theorem default_eq_ok_iff {d : Option Expr} :
    (do
      if ← accept (.mark .assign) then some <$> expr σ fuel 0 else pure none) c = .ok (d, c') ↔
      d = none ∧ c' = c ∧ c.current.token ≠ .mark .assign ∨
        ∃ span c₁ e, d = some e ∧ Takes (.mark .assign) span c c₁ ∧
          expr σ fuel 0 c₁ = .ok (e, c') := by
  rw [bind_eq_ok_iff]
  constructor
  · rintro ⟨given, c₁, haccept, hrest⟩
    rcases accept_mark_eq_ok_iff.1 haccept with ⟨rfl, span, hassign⟩ | ⟨rfl, rfl, hassign⟩
    · obtain ⟨e, c₂, he, hpure⟩ := bind_eq_ok_iff.1 hrest
      obtain ⟨rfl, rfl⟩ := pure_eq_ok_iff.1 hpure
      exact .inr ⟨span, c₁, e, rfl, hassign, he⟩
    · obtain ⟨rfl, rfl⟩ := pure_eq_ok_iff.1 hrest
      exact .inl ⟨rfl, rfl, hassign⟩
  · rintro (⟨rfl, rfl, hassign⟩ | ⟨span, c₁, e, rfl, hassign, he⟩)
    · exact ⟨false, _, accept_mark_eq_ok_iff.2 (.inr ⟨rfl, rfl, hassign⟩), rfl⟩
    · exact ⟨true, c₁, accept_mark_eq_ok_iff.2 (.inl ⟨rfl, span, hassign⟩),
        bind_eq_ok_iff.2 ⟨e, c', he, rfl⟩⟩

theorem ParamPath.then {p : Param} {ps : List Param} {c₁ : Cursor} (hp : ParamPath σ fuel c p c₁)
    (h : afterParam σ fuel p c₁ = .ok (ps, c')) : MoreParamsPath σ fuel c ps c' := by
  rcases afterParam_eq_ok_iff.1 h with ⟨span, rfl, hclose⟩ | ⟨span, c₂, qs, rfl, hcomma, hps⟩
  · exact .last hp hclose
  · exact .more hp hcomma hps

theorem moreParamsPath_of_eq_ok {ps : List Param} (h : moreParams σ (fuel + 1) c = .ok (ps, c')) :
    MoreParamsPath σ fuel c ps c' := by
  by_cases hname : ∃ name, c.current.token = .name name
  · obtain ⟨name, hname⟩ := hname
    rw [moreParams_succ hname] at h
    obtain ⟨name, c₁, hname, hdefault⟩ := bind_eq_ok_iff.1 h
    obtain ⟨span, hname⟩ := expectName_eq_ok_iff.1 hname
    obtain ⟨d, c₂, hd, hlast⟩ := bind_eq_ok_iff.1 hdefault
    obtain ⟨stop, c₃, hstop, hafter⟩ := bind_eq_ok_iff.1 hlast
    cases hstop
    rw [hname.current] at hafter
    rcases default_eq_ok_iff.1 hd with ⟨rfl, rfl, hassign⟩ | ⟨assign, c₂, e, rfl, hassign, he⟩
    · rw [hname.before] at hafter
      exact (ParamPath.required hname hassign).then hafter
    · exact (ParamPath.optional hname hassign he).then hafter
  · -- no name comes next, so this is the closing parenthesis
    simp only [moreParams] at h
    split at h
    · simp only [bind_eq_ok_iff, expect_mark_eq_ok_iff, pure_eq_ok_iff] at h
      obtain ⟨span, c₁, hclose, rfl, rfl⟩ := h
      exact .nil hclose
    · obtain ⟨name, c₁, hread, -⟩ := bind_eq_ok_iff.1 h
      obtain ⟨span, htakes⟩ := expectName_eq_ok_iff.1 hread
      exact absurd ⟨name, htakes.current_token⟩ hname

theorem ParamPath.moreParams_eq {p : Param} {c₁ : Cursor} (h : ParamPath σ fuel c p c₁) :
    moreParams σ (fuel + 1) c = afterParam σ fuel p c₁ := by
  cases h with
  | @required name span _ hname hassign =>
    rw [moreParams_succ hname.current_token,
      bind_eq_of_ok (expectName_eq_ok_iff.2 ⟨span, hname⟩),
      bind_eq_of_ok (default_eq_ok_iff.2 (.inl ⟨rfl, rfl, hassign⟩)), hname.current]
    change afterParam σ fuel (.required name ⟨span.start, c₁.before⟩) c₁ = _
    rw [hname.before]
  | @optional name d span assign c₂ c₃ _ hname hassign hd =>
    rw [moreParams_succ hname.current_token,
      bind_eq_of_ok (expectName_eq_ok_iff.2 ⟨span, hname⟩),
      bind_eq_of_ok (default_eq_ok_iff.2 (.inr ⟨assign, c₃, d, rfl, hassign, hd⟩)), hname.current]
    rfl

theorem moreParams_eq_ok_iff {ps : List Param} :
    moreParams σ (fuel + 1) c = .ok (ps, c') ↔ MoreParamsPath σ fuel c ps c' := by
  refine ⟨moreParamsPath_of_eq_ok, fun h => ?_⟩
  cases h with
  | nil hclose =>
    simp only [moreParams, hclose.current_token]
    rw [if_pos (by rfl), bind_eq_of_ok (expect_mark_eq_ok_iff.2 hclose)]
    rfl
  | @last p span c₁ _ hp hclose =>
    rw [hp.moreParams_eq]
    exact afterParam_eq_ok_iff.2 (.inl ⟨span, rfl, hclose⟩)
  | @more p ps span c₁ c₂ _ hp hcomma hps =>
    rw [hp.moreParams_eq]
    exact afterParam_eq_ok_iff.2 (.inr ⟨span, c₂, ps, rfl, hcomma, hps⟩)

/-- What stands after `return`. -/
inductive ReturnedPath (σ : Strategy) (fuel : Nat) (word : Span) (c : Cursor) :
    Expr → Cursor → Prop
  | nothing (h : c.current.token = .mark .semi ∨ c.current.token = .mark .rbrace) :
    ReturnedPath σ fuel word c (.undefined ⟨some c.next, word⟩) c.counted
  | expr {e : Expr} {c' : Cursor} (hsemi : c.current.token ≠ .mark .semi)
    (hbrace : c.current.token ≠ .mark .rbrace) (he : expr σ fuel 0 c = .ok (e, c')) :
    ReturnedPath σ fuel word c e c'

theorem returned_iff {word : Span} (s : Step Expr)
    (hs : (match c.current.token with
      | .mark .semi | .mark .rbrace => finish word .undefined
      | _ => expr σ fuel 0) = s) :
    s c = .ok (e, c') ↔ ReturnedPath σ fuel word c e c' := by
  have hnothing (h : c.current.token = .mark .semi ∨ c.current.token = .mark .rbrace) :
      finish word .undefined c = .ok (e, c') ↔ ReturnedPath σ fuel word c e c' := by
    rw [finish_eq_ok_iff]
    constructor
    · rintro ⟨rfl, rfl⟩
      exact .nothing h
    · intro he
      cases he with
      | nothing => exact ⟨rfl, rfl⟩
      | expr hsemi hbrace => exact absurd h (not_or.2 ⟨hsemi, hbrace⟩)
  split at hs
  · rename_i h
    subst hs
    exact hnothing (.inl h)
  · rename_i h
    subst hs
    exact hnothing (.inr h)
  · rename_i hsemi hbrace
    subst hs
    constructor
    · exact fun he => .expr hsemi hbrace he
    · intro he
      cases he with
      | nothing h => exact absurd h (not_or.2 ⟨hsemi, hbrace⟩)
      | expr _ _ he => exact he

/-- A semicolon that may be left out. -/
inductive SemiPath (c : Cursor) : Cursor → Prop
  | semi {span : Span} {c' : Cursor} (h : Takes (.mark .semi) span c c') : SemiPath c c'
  | none (h : c.current.token ≠ .mark .semi) : SemiPath c c

/-- The ways to read the body of a function in braces. -/
inductive BlockPath (σ : Strategy) (fuel : Nat) (c : Cursor) : Expr → Cursor → Prop
  | empty {opening closing : Span} {c₁ c₂ : Cursor} (hopen : Takes (.mark .lbrace) opening c c₁)
    (hclose : Takes (.mark .rbrace) closing c₁ c₂) :
    BlockPath σ fuel c (.undefined ⟨some c₂.next, opening.join closing⟩) c₂.counted
  | ret {e : Expr} {opening word closing : Span} {c₁ c₂ c₃ c₄ c' : Cursor}
    (hopen : Takes (.mark .lbrace) opening c c₁) (hret : Takes (.word .ret) word c₁ c₂)
    (he : ReturnedPath σ fuel word c₂ e c₃) (hsemi : SemiPath c₃ c₄)
    (hclose : Takes (.mark .rbrace) closing c₄ c') : BlockPath σ fuel c e c'

theorem accept_semi_iff : (∃ b, accept (.mark .semi) c = .ok (b, c')) ↔ SemiPath c c' := by
  simp only [accept_mark_eq_ok_iff]
  constructor
  · rintro ⟨b, ⟨-, span, hsemi⟩ | ⟨-, rfl, hsemi⟩⟩
    · exact .semi hsemi
    · exact .none hsemi
  · intro h
    cases h with
    | @semi span _ h => exact ⟨true, .inl ⟨rfl, span, h⟩⟩
    | none h => exact ⟨false, .inr ⟨rfl, rfl, h⟩⟩

/-- A step that is chosen by its context can be split into what it may be. -/
theorem of_step_eq {p : Prop} {s : Step α} {r : Except Failure (α × Cursor)} (h : s c = r)
    (hp : ∀ t, s = t → t c = r → p) : p := hp s rfl h

theorem block_eq_ok_iff :
    block σ (fuel + 1) c = .ok (e, c') ↔ BlockPath σ fuel c e c' := by
  simp only [block, bind_eq_ok_iff, expect_mark_eq_ok_iff]
  constructor
  · rintro ⟨opening, c₁, hopen, next, c₁', hnext, h⟩
    cases hnext
    refine of_step_eq h fun s hs h => ?_
    split at hs <;> subst hs
    · rename_i htoken
      simp only [bind_eq_ok_iff, advance_eq_ok_iff_of_eq htoken (by simp), finish_eq_ok_iff] at h
      obtain ⟨closing, c₂, hclose, rfl, rfl⟩ := h
      exact .empty hopen hclose
    · rename_i htoken
      simp only [bind_eq_ok_iff, advance_eq_ok_iff_of_eq htoken (by simp), expect_mark_eq_ok_iff,
        pure_eq_ok_iff] at h
      obtain ⟨word, c₂, hret, next, c₂', hnext, body, c₃, hbody, b, c₄, hsemi, closing, c₅, hclose,
        rfl, rfl⟩ := h
      cases hnext
      exact .ret hopen hret ((returned_iff _ rfl).1 hbody) (accept_semi_iff.1 ⟨b, hsemi⟩) hclose
    · cases h
  · intro h
    cases h with
    | @empty opening closing c₁ c₂ hopen hclose =>
      refine ⟨opening, c₁, hopen, c₁.current, c₁, rfl, ?_⟩
      simp only [hclose.current_token]
      rw [bind_eq_of_ok hclose.advance_eq]
      rfl
    | @ret _ opening word closing c₁ c₂ c₃ c₄ _ hopen hret he hsemi hclose =>
      obtain ⟨b, hsemi⟩ := accept_semi_iff.2 hsemi
      refine ⟨opening, c₁, hopen, c₁.current, c₁, rfl, ?_⟩
      simp only [hret.current_token]
      rw [bind_eq_of_ok hret.advance_eq, bind_peek]
      refine (bind_eq_of_ok ((returned_iff _ rfl).2 he)).trans ?_
      rw [bind_eq_of_ok hsemi, bind_eq_of_ok (expect_mark_eq_ok_iff.2 hclose)]
      rfl

end Paths

end Parser

end DeltaForm
