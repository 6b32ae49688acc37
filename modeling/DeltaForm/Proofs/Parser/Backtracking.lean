import DeltaForm.Expr.Printer
import DeltaForm.Proofs.Parser.Brackets
import DeltaForm.Token.Lexer

/-!
# Looking ahead and backtracking

A parenthesis where an operand is due starts an arrow function or an expression in parentheses. The
parser looks ahead for an arrow behind the closing parenthesis; `backtracking` instead tries to read
an arrow function, and goes back where that fails. The two accept the same sources, with the same
trees.

`TransfersAt σ τ fuel` carries what the parser accepts with one strategy over to another, part by
part, given that the strategies agree at a parenthesis (`Strategy.Agrees`). They agree because of
the brackets: an arrow function is read only where the search finds its arrow, and after an
expression in parentheses the search finds an arrow only if one comes next. No expression is
complete before an arrow, so the second case never leads to a tree. Hence the parts that may be
followed by anything are carried over where no arrow follows.

Both strategies take one of the two ways that they are given, so with the depth that the parser has
neither gives up (`progressTo`): a parser that goes back does so because of a fault only.
-/

namespace DeltaForm

namespace Parser

variable {c c' : Cursor} {e : Expr}

/-- Tries to read an arrow function, and goes back where that fails. -/
def backtracking : Strategy := fun arrow paren c =>
  match arrow c with
  | .ok r => .ok r
  | .error _ => paren c

section Choice

variable {arrow paren : Step Expr}

theorem lookahead_of_opensArrow (h : opensArrow c = true) : lookahead arrow paren c = arrow c :=
  if_pos h

theorem lookahead_of_not_opensArrow (h : ¬ opensArrow c = true) :
    lookahead arrow paren c = paren c :=
  if_neg h

theorem backtracking_of_ok {r : Expr × Cursor} (h : arrow c = .ok r) :
    backtracking arrow paren c = arrow c := by
  simp only [backtracking, h]

theorem backtracking_of_error {f : Failure} (h : arrow c = .error f) :
    backtracking arrow paren c = paren c := by
  simp only [backtracking, h]

end Choice

theorem selects_backtracking : backtracking.Selects := by
  intro arrow paren c
  cases h : arrow c with
  | ok r => exact .inl ((backtracking_of_ok h).trans h)
  | error f => exact .inr (backtracking_of_error h)

/-- The next token is not an arrow. -/
def NoArrow (c : Cursor) : Prop := c.current.token ≠ .mark .arrow

theorem Takes.noArrow {t : Token} {span : Span} (h : Takes t span c c') (ht : t ≠ .mark .arrow) :
    NoArrow c := by
  rw [NoArrow, h.current_token]
  exact ht

theorem NoArrow.of_counted (h : NoArrow c.counted) : NoArrow c := h

/-- Wherever an arrow function or an expression in parentheses that `σ` chooses is also read with
`τ`, and no arrow follows, `τ` makes the same choice. -/
def Strategy.Agrees (σ τ : Strategy) : Prop :=
  ∀ {fuel : Nat} {c c' : Cursor} {e : Expr}, c.current.token = .mark .lparen → NoArrow c' →
    (arrow σ fuel c = .ok (e, c') → arrow τ fuel c = .ok (e, c')) →
    (paren σ fuel c = .ok (e, c') → paren τ fuel c = .ok (e, c')) →
    σ (arrow σ fuel) (paren σ fuel) c = .ok (e, c') →
    τ (arrow τ fuel) (paren τ fuel) c = .ok (e, c')

theorem agrees_lookahead_backtracking : lookahead.Agrees backtracking := by
  intro fuel c c' e hopen _ harrow hparen h
  by_cases hsearch : opensArrow c = true
  · rw [lookahead_of_opensArrow hsearch] at h
    rw [backtracking_of_ok (harrow h), harrow h]
  · rw [lookahead_of_not_opensArrow hsearch] at h
    -- an arrow function would have its arrow where the search looks for it
    cases hr : arrow backtracking fuel c with
    | ok r => exact absurd (opensArrow_of_arrow selects_backtracking hopen hr) hsearch
    | error f => rw [backtracking_of_error hr, hparen h]

theorem agrees_backtracking_lookahead : backtracking.Agrees lookahead := by
  intro fuel c c' e hopen hnot harrow hparen h
  cases hr : arrow backtracking fuel c with
  | ok r =>
    rw [backtracking_of_ok hr] at h
    rw [lookahead_of_opensArrow (opensArrow_of_arrow selects_backtracking hopen hr), harrow h]
  | error f =>
    rw [backtracking_of_error hr] at h
    -- the search would find the arrow after the parentheses, but none follows
    have hsearch : ¬ opensArrow c = true := by
      rw [opensArrow_of_paren selects_backtracking h, arrowNext_tokens_iff]
      exact hnot
    rw [lookahead_of_not_opensArrow hsearch, hparen h]

/-- What each part of the parser accepts with `σ` it accepts with `τ`. -/
structure TransfersAt (σ τ : Strategy) (fuel : Nat) : Prop where
  expr : ∀ {least : Nat} {c c' : Cursor} {e : Expr}, NoArrow c' →
    expr σ fuel least c = .ok (e, c') → expr τ fuel least c = .ok (e, c')
  operators : ∀ {least start : Nat} {left e : Expr} {c c' : Cursor}, NoArrow c' →
    operators σ fuel least start left c = .ok (e, c') →
    operators τ fuel least start left c = .ok (e, c')
  operand : ∀ {c c' : Cursor} {e : Expr}, NoArrow c' →
    operand σ fuel c = .ok (e, c') → operand τ fuel c = .ok (e, c')
  paren : ∀ {c c' : Cursor} {e : Expr},
    paren σ fuel c = .ok (e, c') → paren τ fuel c = .ok (e, c')
  items : ∀ {m : Mark} {c c' : Cursor} {es : List Expr}, m ≠ .arrow →
    items σ fuel (.mark m) c = .ok (es, c') → items τ fuel (.mark m) c = .ok (es, c')
  access : ∀ {left e : Expr} {c c' : Cursor},
    access σ fuel left c = .ok (e, c') → access τ fuel left c = .ok (e, c')
  arrow : ∀ {c c' : Cursor} {e : Expr}, NoArrow c' →
    arrow σ fuel c = .ok (e, c') → arrow τ fuel c = .ok (e, c')
  function : ∀ {c c' : Cursor} {e : Expr},
    function σ fuel c = .ok (e, c') → function τ fuel c = .ok (e, c')
  params : ∀ {c c' : Cursor} {ps : List Param},
    params σ fuel c = .ok (ps, c') → params τ fuel c = .ok (ps, c')
  moreParams : ∀ {c c' : Cursor} {ps : List Param},
    moreParams σ fuel c = .ok (ps, c') → moreParams τ fuel c = .ok (ps, c')
  block : ∀ {c c' : Cursor} {e : Expr},
    block σ fuel c = .ok (e, c') → block τ fuel c = .ok (e, c')

/-- The operators after an operand end right before an arrow, so where they end at another token the
operand does too. -/
theorem noArrow_of_operators {σ : Strategy} {fuel least start : Nat} {left : Expr}
    (hnot : NoArrow c') (h : operators σ fuel least start left c = .ok (e, c')) : NoArrow c := by
  intro harrow
  cases fuel with
  | zero => cases h
  | succ fuel =>
    have hstop : stopsBefore least c.current.token = true := by
      rw [harrow]
      rfl
    cases (operators_of_stopsBefore hstop).symm.trans h
    exact hnot harrow

namespace TransfersAt

variable {σ τ : Strategy} {fuel : Nat}

theorem zero : TransfersAt σ τ 0 := by
  constructor <;> intros <;> contradiction

theorem expr_succ (ih : TransfersAt σ τ fuel) {least : Nat} (hnot : NoArrow c')
    (h : Parser.expr σ (fuel + 1) least c = .ok (e, c')) :
    Parser.expr τ (fuel + 1) least c = .ok (e, c') := by
  obtain ⟨left, c₁, hleft, hrest⟩ := expr_eq_ok_iff.1 h
  -- if an arrow came after the operand, the expression would end there
  have hleft := ih.operand (noArrow_of_operators hnot hrest) hleft
  exact expr_eq_ok_iff.2 ⟨left, c₁, hleft, ih.operators hnot hrest⟩

theorem operators_succ (ih : TransfersAt σ τ fuel) {least start : Nat} {left : Expr}
    (hnot : NoArrow c') (h : Parser.operators σ (fuel + 1) least start left c = .ok (e, c')) :
    Parser.operators τ (fuel + 1) least start left c = .ok (e, c') := by
  refine operators_eq_ok_iff.2 ?_
  cases operators_eq_ok_iff.1 h with
  | stop hstop => exact .stop hstop
  | access hopens hleast hleft hrest =>
    exact .access hopens hleast (ih.access hleft) (ih.operators hnot hrest)
  | conditional hleast hquestion ha hcolon hb hrest =>
    have ha := ih.expr (hcolon.noArrow (by simp)) ha
    have hb := ih.expr (noArrow_of_operators hnot hrest).of_counted hb
    exact .conditional hleast hquestion ha hcolon hb (ih.operators hnot hrest)
  | connective hop hleast ht hr hrest =>
    have hr := ih.expr (noArrow_of_operators hnot hrest).of_counted hr
    exact .connective hop hleast ht hr (ih.operators hnot hrest)

theorem operand_succ (hagree : σ.Agrees τ) (ih : TransfersAt σ τ fuel) (hnot : NoArrow c')
    (h : Parser.operand σ (fuel + 1) c = .ok (e, c')) :
    Parser.operand τ (fuel + 1) c = .ok (e, c') := by
  refine operand_eq_ok_iff.2 ?_
  cases operand_eq_ok_iff.1 h with
  | unary hop ht he => exact .unary hop ht (ih.expr hnot he)
  | opening hopen he => exact .opening hopen (hagree hopen hnot (ih.arrow hnot) ih.paren he)
  | array ht hes => exact .array ht (ih.items (by simp) hes)
  | function hword he => exact .function hword (ih.function he)
  | arrow hname harrow he => exact .arrow hname harrow (ih.arrow hnot he)
  | leaf hleaf ht harrow => exact .leaf hleaf ht harrow

theorem paren_succ (ih : TransfersAt σ τ fuel) (h : Parser.paren σ (fuel + 1) c = .ok (e, c')) :
    Parser.paren τ (fuel + 1) c = .ok (e, c') := by
  obtain ⟨opening, c₁, inner, c₂, closing, hopen, he, hclose, rfl⟩ := paren_eq_ok_iff.1 h
  have he := ih.expr (hclose.noArrow (by simp)) he
  exact paren_eq_ok_iff.2 ⟨opening, c₁, inner, c₂, closing, hopen, he, hclose, rfl⟩

theorem items_succ (ih : TransfersAt σ τ fuel) {m : Mark} {es : List Expr} (hm : m ≠ .arrow)
    (h : Parser.items σ (fuel + 1) (.mark m) c = .ok (es, c')) :
    Parser.items τ (fuel + 1) (.mark m) c = .ok (es, c') := by
  refine items_eq_ok_iff.2 ?_
  cases items_eq_ok_iff.1 h with
  | nil hclose => exact .nil hclose
  | last hne heof he hcomma hclose =>
    have he := ih.expr (hclose.noArrow (by simpa using hm)) he
    exact .last hne heof he hcomma hclose
  | more hne heof he hcomma hes =>
    have he := ih.expr (hcomma.noArrow (by simp)) he
    exact .more hne heof he hcomma (ih.items hm hes)

theorem access_succ (ih : TransfersAt σ τ fuel) {left : Expr}
    (h : Parser.access σ (fuel + 1) left c = .ok (e, c')) :
    Parser.access τ (fuel + 1) left c = .ok (e, c') := by
  refine access_eq_ok_iff.2 ?_
  cases access_eq_ok_iff.1 h with
  | call ht hargs => exact .call ht (ih.items (by simp) hargs)
  | computed ht hp hclose => exact .computed ht (ih.expr (hclose.noArrow (by simp)) hp) hclose
  | named hdot hname ht => exact .named hdot hname ht

theorem arrow_succ (ih : TransfersAt σ τ fuel) (hnot : NoArrow c')
    (h : Parser.arrow σ (fuel + 1) c = .ok (e, c')) :
    Parser.arrow τ (fuel + 1) c = .ok (e, c') := by
  obtain ⟨ps, c₁, span, c₂, body, c₃, hps, harrow, hbody, rfl, he⟩ := arrow_eq_ok_iff.1 h
  have hps : ArrowParams τ fuel c ps c₁ := by
    cases hps with
    | params hopen hps => exact .params hopen (ih.params hps)
    | name hname => exact .name hname
  have hbody : ArrowBody τ fuel c₂ body c₃ := by
    cases hbody with
    | block hbrace hbody => exact .block hbrace (ih.block hbody)
    | expr hbrace hbody => exact .expr hbrace (ih.expr hnot hbody)
  exact arrow_eq_ok_iff.2 ⟨ps, c₁, span, c₂, body, c₃, hps, harrow, hbody, rfl, he⟩

theorem function_succ (ih : TransfersAt σ τ fuel)
    (h : Parser.function σ (fuel + 1) c = .ok (e, c')) :
    Parser.function τ (fuel + 1) c = .ok (e, c') := by
  obtain ⟨word, c₁, name, c₂, ps, c₃, body, c₄, hword, hname, hps, hbody, hc, he⟩ :=
    function_eq_ok_iff.1 h
  exact function_eq_ok_iff.2 ⟨word, c₁, name, c₂, ps, c₃, body, c₄, hword, hname, ih.params hps,
    ih.block hbody, hc, he⟩

theorem params_succ (ih : TransfersAt σ τ fuel) {ps : List Param}
    (h : Parser.params σ (fuel + 1) c = .ok (ps, c')) :
    Parser.params τ (fuel + 1) c = .ok (ps, c') := by
  obtain ⟨span, c₁, hopen, hps⟩ := params_eq_ok_iff.1 h
  exact params_eq_ok_iff.2 ⟨span, c₁, hopen, ih.moreParams hps⟩

theorem param (ih : TransfersAt σ τ fuel) {p : Param} (hnot : NoArrow c')
    (h : ParamPath σ fuel c p c') : ParamPath τ fuel c p c' := by
  cases h with
  | required hname hassign => exact .required hname hassign
  | optional hname hassign hd => exact .optional hname hassign (ih.expr hnot hd)

theorem moreParams_succ (ih : TransfersAt σ τ fuel) {ps : List Param}
    (h : Parser.moreParams σ (fuel + 1) c = .ok (ps, c')) :
    Parser.moreParams τ (fuel + 1) c = .ok (ps, c') := by
  refine moreParams_eq_ok_iff.2 ?_
  cases moreParams_eq_ok_iff.1 h with
  | nil hclose => exact .nil hclose
  | last hp hclose => exact .last (ih.param (hclose.noArrow (by simp)) hp) hclose
  | more hp hcomma hps =>
    exact .more (ih.param (hcomma.noArrow (by simp)) hp) hcomma (ih.moreParams hps)

theorem returned (ih : TransfersAt σ τ fuel) {word : Span} (hnot : NoArrow c')
    (h : ReturnedPath σ fuel word c e c') : ReturnedPath τ fuel word c e c' := by
  cases h with
  | nothing hend => exact .nothing hend
  | expr hsemi hbrace he => exact .expr hsemi hbrace (ih.expr hnot he)

theorem block_succ (ih : TransfersAt σ τ fuel) (h : Parser.block σ (fuel + 1) c = .ok (e, c')) :
    Parser.block τ (fuel + 1) c = .ok (e, c') := by
  refine block_eq_ok_iff.2 ?_
  cases block_eq_ok_iff.1 h with
  | empty hopen hclose => exact .empty hopen hclose
  | @ret _ _ _ _ _ _ c₃ _ _ hopen hret he hsemi hclose =>
    have hnot : NoArrow c₃ := by
      cases hsemi with
      | semi ht => exact ht.noArrow (by simp)
      | none => exact hclose.noArrow (by simp)
    exact .ret hopen hret (ih.returned hnot he) hsemi hclose

end TransfersAt

theorem transfersAt {σ τ : Strategy} (h : σ.Agrees τ) (fuel : Nat) : TransfersAt σ τ fuel := by
  induction fuel with
  | zero => exact .zero
  | succ fuel ih =>
    exact ⟨ih.expr_succ, ih.operators_succ, ih.operand_succ h, ih.paren_succ, ih.items_succ,
      ih.access_succ, ih.arrow_succ, ih.function_succ, ih.params_succ, ih.moreParams_succ,
      ih.block_succ⟩

/-! ### Whole sources -/

theorem parse_eq_ok_iff {σ : Strategy} {tokens : List Lexeme} :
    parse σ tokens = ⟨some e, []⟩ ↔
      ∃ c, expr σ (depthBound tokens) 0 ⟨tokens, 0, 0⟩ = .ok (e, c) ∧ c.current.token = .eof := by
  unfold parse
  split
  · rename_i e' c hexpr
    split
    · rename_i heof
      simp [hexpr, heof]
    · rename_i hne
      simpa [hexpr] using fun _ => hne
  · rename_i hexpr
    simp [hexpr]
  · rename_i hexpr
    simp [hexpr]

theorem parse_eq_ok_of_agrees {σ τ : Strategy} {tokens : List Lexeme} (h : σ.Agrees τ)
    (hparse : parse σ tokens = ⟨some e, []⟩) : parse τ tokens = ⟨some e, []⟩ := by
  obtain ⟨c, hexpr, heof⟩ := parse_eq_ok_iff.1 hparse
  have hnot : NoArrow c := by
    rw [NoArrow, heof]
    simp
  exact parse_eq_ok_iff.2 ⟨c, (transfersAt h _).expr hnot hexpr, heof⟩

/-- Looking ahead loses no tree: a source is read without a fault exactly if it is by the parser
that goes back, and the trees are the same. -/
theorem parseTokens_eq_ok_iff_backtracking (tokens : List Lexeme) (e : Expr) :
    parseTokens tokens = ⟨some e, []⟩ ↔ parse backtracking tokens = ⟨some e, []⟩ :=
  ⟨parse_eq_ok_of_agrees agrees_lookahead_backtracking,
    parse_eq_ok_of_agrees agrees_backtracking_lookahead⟩

example : ∀ read ∈ [parseTokens, parse backtracking],
    (read (tokenize "((a, b) => (a))(((c)))").lexemes).faults = [] ∧
      (read (tokenize "((a, b) => (a))(((c)))").lexemes).expr.map (Expr.print "δ") =
        some "((a, b) => a)(c)" := by
  decide +kernel

end Parser

end DeltaForm
