import DeltaForm.Proofs.Parser.Paths
import DeltaForm.Proofs.Parser.Places

/-!
# Brackets in what the parser accepts

The search for an arrow counts brackets whatever their kind, and looks at nothing between them. What
the parser accepts has its brackets in pairs of one kind, so the search passes over it: `Crosses c
c'` says that the tokens between two cursors are balanced. An expression, an access and a body in
braces cross the tokens that they consume; a list of items or of parameters crosses the tokens
before the bracket that closes it.

So at the parameters of an arrow function the search finds the arrow (`opensArrow_of_arrow`), and at
an expression in parentheses it finds what comes after it (`opensArrow_of_paren`).
-/

namespace DeltaForm

namespace Parser

variable {c c₁ c₂ c' : Cursor} {t : Token} {m left right : Mark} {span span' : Span} {e : Expr}

/-- The tokens between two cursors are balanced. -/
def Crosses (c c' : Cursor) : Prop := ∃ ts, c.tokens = ts ++ c'.tokens ∧ Balanced ts

namespace Crosses

theorem refl (c : Cursor) : Crosses c c := ⟨[], rfl, balanced_nil⟩

theorem trans (h : Crosses c c₁) (h' : Crosses c₁ c') : Crosses c c' := by
  obtain ⟨ts, htokens, hts⟩ := h
  obtain ⟨us, htokens', hus⟩ := h'
  exact ⟨ts ++ us, by rw [htokens, htokens', List.append_assoc], hts.append hus⟩

/-- Numbering a node does not move the cursor. -/
theorem counted (h : Crosses c c') : Crosses c c'.counted := h

theorem of_counted (h : Crosses c.counted c') : Crosses c c' := h

theorem of_takes (h : Takes t span c c') (ht : isInner t = true) : Crosses c c' :=
  ⟨[t], h.tokens, balanced_singleton ht⟩

theorem takes (h : Crosses c c₁) (h' : Takes t span c₁ c') (ht : isInner t = true) :
    Crosses c c' :=
  h.trans (of_takes h' ht)

theorem enclosed (hopen : Takes (.mark left) span c c₁) (h : Crosses c₁ c₂)
    (hclose : Takes (.mark right) span' c₂ c') (hpair : isPair left right = true) :
    Crosses c c' := by
  obtain ⟨ts, htokens, hts⟩ := h
  refine ⟨.mark left :: ts ++ [.mark right], ?_, hts.enclosed hpair⟩
  rw [hopen.tokens, htokens, hclose.tokens, List.append_assoc]
  rfl

end Crosses

/-- The tokens between two cursors are balanced, but for the bracket `m` at their end. -/
def CrossesTo (m : Mark) (c c' : Cursor) : Prop :=
  ∃ c₁ span, Crosses c c₁ ∧ Takes (.mark m) span c₁ c'

theorem CrossesTo.after (h : CrossesTo m c₁ c') (hc : Crosses c c₁) : CrossesTo m c c' := by
  obtain ⟨c₂, span, hcross, hclose⟩ := h
  exact ⟨c₂, span, hc.trans hcross, hclose⟩

theorem CrossesTo.enclosed (h : CrossesTo right c₁ c') (hopen : Takes (.mark left) span c c₁)
    (hpair : isPair left right = true) : Crosses c c' := by
  obtain ⟨c₂, span', hcross, hclose⟩ := h
  exact .enclosed hopen hcross hclose hpair

/-! ### The parts of the parser -/

theorem isInner_of_unary? {op : UnaryOp} (h : t.unary? = some op) : isInner t = true := by
  cases t with
  | mark m => cases m <;> first | rfl | cases h
  | word => rfl
  | _ => cases h

theorem isInner_of_leaf? {node : Site → Expr} (h : leaf? t = some node) : isInner t = true := by
  cases t <;> first | rfl | cases h

theorem isInner_of_propertyName? {name : String} (h : t.propertyName? = some name) :
    isInner t = true := by
  cases t <;> first | rfl | cases h

/-- What each part of the parser crosses when it succeeds. -/
structure CrossesAt (σ : Strategy) (fuel : Nat) : Prop where
  expr : ∀ {least : Nat} {c c' : Cursor} {e : Expr},
    expr σ fuel least c = .ok (e, c') → Crosses c c'
  operators : ∀ {least start : Nat} {left e : Expr} {c c' : Cursor},
    operators σ fuel least start left c = .ok (e, c') → Crosses c c'
  operand : ∀ {c c' : Cursor} {e : Expr}, operand σ fuel c = .ok (e, c') → Crosses c c'
  paren : ∀ {c c' : Cursor} {e : Expr}, paren σ fuel c = .ok (e, c') → Crosses c c'
  items : ∀ {m : Mark} {c c' : Cursor} {es : List Expr},
    items σ fuel (.mark m) c = .ok (es, c') → CrossesTo m c c'
  access : ∀ {left e : Expr} {c c' : Cursor}, access σ fuel left c = .ok (e, c') → Crosses c c'
  arrow : ∀ {c c' : Cursor} {e : Expr}, arrow σ fuel c = .ok (e, c') → Crosses c c'
  function : ∀ {c c' : Cursor} {e : Expr}, function σ fuel c = .ok (e, c') → Crosses c c'
  params : ∀ {c c' : Cursor} {ps : List Param}, params σ fuel c = .ok (ps, c') → Crosses c c'
  moreParams : ∀ {c c' : Cursor} {ps : List Param},
    moreParams σ fuel c = .ok (ps, c') → CrossesTo .rparen c c'
  block : ∀ {c c' : Cursor} {e : Expr}, block σ fuel c = .ok (e, c') → Crosses c c'

namespace CrossesAt

variable {σ : Strategy} {fuel : Nat}

theorem zero : CrossesAt σ 0 := by
  constructor <;> intros <;> contradiction

theorem expr_succ (ih : CrossesAt σ fuel) {least : Nat}
    (h : Parser.expr σ (fuel + 1) least c = .ok (e, c')) : Crosses c c' := by
  obtain ⟨left, c₁, hleft, hrest⟩ := expr_eq_ok_iff.1 h
  exact (ih.operand hleft).trans (ih.operators hrest)

theorem operators_succ (ih : CrossesAt σ fuel) {least start : Nat} {left : Expr}
    (h : Parser.operators σ (fuel + 1) least start left c = .ok (e, c')) : Crosses c c' := by
  cases operators_eq_ok_iff.1 h with
  | stop => exact .refl c
  | access _ _ hleft hrest => exact (ih.access hleft).trans (ih.operators hrest)
  | conditional _ hquestion ha hcolon hb hrest =>
    have hbranches := ((ih.expr ha).takes hcolon rfl).trans (ih.expr hb)
    exact ((Crosses.of_takes hquestion rfl).trans hbranches).trans (ih.operators hrest).of_counted
  | connective hop _ ht hr hrest =>
    have hright := (Crosses.of_takes ht (isInner_of_connective? hop)).trans (ih.expr hr)
    exact hright.trans (ih.operators hrest).of_counted

theorem operand_succ (hσ : σ.Selects) (ih : CrossesAt σ fuel)
    (h : Parser.operand σ (fuel + 1) c = .ok (e, c')) : Crosses c c' := by
  cases operand_eq_ok_iff.1 h with
  | unary hop ht he =>
    have hop := Crosses.of_takes ht (isInner_of_unary? hop)
    exact (hop.trans (ih.expr he)).counted
  | opening _ he =>
    -- whichever way the strategy takes, it crosses what it consumes
    rcases hσ (Parser.arrow σ fuel) (Parser.paren σ fuel) c with hway | hway
    · exact ih.arrow (hway.symm.trans he)
    · exact ih.paren (hway.symm.trans he)
  | array ht hes => exact ((ih.items hes).enclosed ht rfl).counted
  | function _ he => exact ih.function he
  | arrow _ _ he => exact ih.arrow he
  | leaf hleaf ht => exact (Crosses.of_takes ht (isInner_of_leaf? hleaf)).counted

theorem paren_succ (ih : CrossesAt σ fuel) (h : Parser.paren σ (fuel + 1) c = .ok (e, c')) :
    Crosses c c' := by
  obtain ⟨opening, c₁, inner, c₂, closing, hopen, he, hclose, -⟩ := paren_eq_ok_iff.1 h
  exact .enclosed hopen (ih.expr he) hclose rfl

theorem items_succ (ih : CrossesAt σ fuel) {es : List Expr}
    (h : Parser.items σ (fuel + 1) (.mark m) c = .ok (es, c')) : CrossesTo m c c' := by
  cases items_eq_ok_iff.1 h with
  | nil hclose => exact ⟨c, _, .refl c, hclose⟩
  | last _ _ he _ hclose => exact ⟨_, _, ih.expr he, hclose⟩
  | more _ _ he hcomma hes => exact (ih.items hes).after ((ih.expr he).takes hcomma rfl)

theorem access_succ (ih : CrossesAt σ fuel) {left : Expr}
    (h : Parser.access σ (fuel + 1) left c = .ok (e, c')) : Crosses c c' := by
  cases access_eq_ok_iff.1 h with
  | call ht hargs => exact ((ih.items hargs).enclosed ht rfl).counted
  | computed ht hp hclose => exact (Crosses.enclosed ht (ih.expr hp) hclose rfl).counted
  | named hdot hname ht =>
    have hname := (Crosses.of_takes hdot rfl).takes ht (isInner_of_propertyName? hname)
    exact hname.counted.counted

theorem arrowParams (ih : CrossesAt σ fuel) {ps : List Param} (h : ArrowParams σ fuel c ps c') :
    Crosses c c' := by
  cases h with
  | params _ hps => exact ih.params hps
  | name hname => exact .of_takes hname rfl

theorem arrowBody (ih : CrossesAt σ fuel) (h : ArrowBody σ fuel c e c') : Crosses c c' := by
  cases h with
  | block _ he => exact ih.block he
  | expr _ he => exact ih.expr he

theorem arrow_succ (ih : CrossesAt σ fuel) (h : Parser.arrow σ (fuel + 1) c = .ok (e, c')) :
    Crosses c c' := by
  obtain ⟨ps, c₁, span, c₂, body, c₃, hps, harrow, hbody, rfl, -⟩ := arrow_eq_ok_iff.1 h
  have hhead := (ih.arrowParams hps).takes harrow rfl
  exact (hhead.trans (ih.arrowBody hbody)).counted

theorem function_succ (ih : CrossesAt σ fuel) (h : Parser.function σ (fuel + 1) c = .ok (e, c')) :
    Crosses c c' := by
  obtain ⟨word, c₁, name, c₂, ps, c₃, body, c₄, hword, hname, hps, hbody, rfl, -⟩ :=
    function_eq_ok_iff.1 h
  have hname : Crosses c₁ c₂ := by
    cases hname with
    | some hname => exact .of_takes hname rfl
    | none => exact .refl c₁
  have hhead := ((Crosses.of_takes hword rfl).trans hname).trans (ih.params hps)
  exact (hhead.trans (ih.block hbody)).counted

theorem params_succ (ih : CrossesAt σ fuel) {ps : List Param}
    (h : Parser.params σ (fuel + 1) c = .ok (ps, c')) : Crosses c c' := by
  obtain ⟨span, c₁, hopen, hps⟩ := params_eq_ok_iff.1 h
  exact (ih.moreParams hps).enclosed hopen rfl

theorem param (ih : CrossesAt σ fuel) {p : Param} (h : ParamPath σ fuel c p c') :
    Crosses c c' := by
  cases h with
  | required hname => exact .of_takes hname rfl
  | optional hname hassign hd =>
    exact ((Crosses.of_takes hname rfl).takes hassign rfl).trans (ih.expr hd)

theorem moreParams_succ (ih : CrossesAt σ fuel) {ps : List Param}
    (h : Parser.moreParams σ (fuel + 1) c = .ok (ps, c')) : CrossesTo .rparen c c' := by
  cases moreParams_eq_ok_iff.1 h with
  | nil hclose => exact ⟨c, _, .refl c, hclose⟩
  | last hp hclose => exact ⟨_, _, ih.param hp, hclose⟩
  | more hp hcomma hps => exact (ih.moreParams hps).after ((ih.param hp).takes hcomma rfl)

theorem returned (ih : CrossesAt σ fuel) {word : Span} (h : ReturnedPath σ fuel word c e c') :
    Crosses c c' := by
  cases h with
  | nothing => exact .refl c
  | expr _ _ he => exact ih.expr he

theorem block_succ (ih : CrossesAt σ fuel) (h : Parser.block σ (fuel + 1) c = .ok (e, c')) :
    Crosses c c' := by
  cases block_eq_ok_iff.1 h with
  | empty hopen hclose => exact (Crosses.enclosed hopen (.refl _) hclose rfl).counted
  | @ret _ _ _ _ _ c₂ c₃ c₄ _ hopen hret he hsemi hclose =>
    have hsemi : Crosses c₃ c₄ := by
      cases hsemi with
      | semi h => exact .of_takes h rfl
      | none => exact .refl c₃
    have hinner := ((Crosses.of_takes hret rfl).trans (ih.returned he)).trans hsemi
    exact .enclosed hopen hinner hclose rfl

end CrossesAt

theorem crossesAt {σ : Strategy} (hσ : σ.Selects) (fuel : Nat) : CrossesAt σ fuel := by
  induction fuel with
  | zero => exact .zero
  | succ fuel ih =>
    exact ⟨ih.expr_succ, ih.operators_succ, ih.operand_succ hσ, ih.paren_succ, ih.items_succ,
      ih.access_succ, ih.arrow_succ, ih.function_succ, ih.params_succ, ih.moreParams_succ,
      ih.block_succ⟩

/-! ### Looking ahead -/

theorem arrowNext_tokens_iff : arrowNext c.tokens = true ↔ c.current.token = .mark .arrow := by
  obtain ⟨rest, before, next⟩ := c
  cases rest with
  | nil => simp [Cursor.tokens, Cursor.current, arrowNext]
  | cons l rest =>
    obtain ⟨t, span⟩ := l
    cases t with
    | mark m => cases m <;> simp [Cursor.tokens, Cursor.current, arrowNext]
    | _ => simp [Cursor.tokens, Cursor.current, arrowNext]

/-- The search that starts at a parenthesis passes over what is balanced up to the one that
closes. -/
theorem opensArrow_of_crossesTo (hopen : Takes (.mark .lparen) span c c₁)
    (h : CrossesTo .rparen c₁ c') : opensArrow c = arrowNext c'.tokens := by
  obtain ⟨c₂, span', ⟨ts, htokens, hts⟩, hclose⟩ := h
  rw [opensArrow_eq hopen.tokens, htokens, hts, hclose.tokens]
  rfl

variable {σ : Strategy} {fuel : Nat}

theorem opensArrow_of_paren (hσ : σ.Selects) (h : paren σ fuel c = .ok (e, c')) :
    opensArrow c = arrowNext c'.tokens := by
  cases fuel with
  | zero => cases h
  | succ fuel =>
    obtain ⟨opening, c₁, inner, c₂, closing, hopen, he, hclose, -⟩ := paren_eq_ok_iff.1 h
    exact opensArrow_of_crossesTo hopen ⟨c₂, closing, (crossesAt hσ fuel).expr he, hclose⟩

theorem opensArrow_of_arrow (hσ : σ.Selects) (hparen : c.current.token = .mark .lparen)
    (h : arrow σ fuel c = .ok (e, c')) : opensArrow c = true := by
  cases fuel with
  | zero => cases h
  | succ fuel =>
    obtain ⟨ps, c₁, span, c₂, body, c₃, hps, harrow, -, -, -⟩ := arrow_eq_ok_iff.1 h
    cases hps with
    | name hname =>
      -- the parameters start with a parenthesis, not with a name
      cases hparen.symm.trans hname.current_token
    | params _ hps =>
      cases fuel with
      | zero => cases hps
      | succ fuel =>
        obtain ⟨opening, c₀, hopen, hmore⟩ := params_eq_ok_iff.1 hps
        rw [opensArrow_of_crossesTo hopen ((crossesAt hσ fuel).moreParams hmore)]
        exact arrowNext_tokens_iff.2 harrow.current_token

end Parser

end DeltaForm
