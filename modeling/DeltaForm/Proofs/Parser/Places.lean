import DeltaForm.Proofs.Parser.Grammar

/-!
# Places for expressions

What surrounds an expression decides how it is read. A `Place` is the part of the surroundings that
matters: the binding power at which the expression is read, and how tightly what comes after it may
bind. `Fits p ts e` says that the tokens `ts` are read as `e` wherever they stand at a place that
asks no more than `p`, and that the search for an arrow passes over them. There is one rule for each
kind of node; an expression in parentheses fits everywhere.
-/

namespace DeltaForm

namespace Parser

/-- A place for an expression among the tokens. -/
structure Place where
  /-- The greatest binding power at which the expression is read. -/
  power : Nat
  /-- All that comes after the expression binds less tightly than this. -/
  after : Nat
  deriving DecidableEq

namespace Place

instance : LE Place := ⟨fun p q => p.power ≤ q.power ∧ p.after ≤ q.after⟩

instance (p q : Place) : Decidable (p ≤ q) :=
  inferInstanceAs (Decidable (p.power ≤ q.power ∧ p.after ≤ q.after))

theorem le_trans {p q r : Place} (h : p ≤ q) (h' : q ≤ r) : p ≤ r :=
  ⟨Nat.le_trans h.1 h'.1, Nat.le_trans h.2 h'.2⟩

/-- The place that no expression is refused at: the operand of a call or property access. -/
def operand : Place := ⟨accessPower, accessPower + 1⟩

/-- The place between brackets or commas, which asks nothing. -/
def bracketed : Place := ⟨0, 0⟩

end Place

variable {p q : Place} {t : Token} {ts us vs : List Token} {e f : Expr}

/-! ### Brackets -/

/-- The search for the bracket that closes, and an arrow after it, passes over the tokens. -/
def Balanced (ts : List Token) : Prop :=
  ∀ depth rest, closesArrow (depth + 1) (ts ++ rest) = closesArrow (depth + 1) rest

/-- Whether a token is neither a bracket nor the end of the input. -/
def isInner : Token → Bool
  | .mark .lparen | .mark .lbracket | .mark .lbrace => false
  | .mark .rparen | .mark .rbracket | .mark .rbrace => false
  | .eof => false
  | _ => true

theorem balanced_nil : Balanced [] := fun _ _ => rfl

theorem Balanced.append (h : Balanced ts) (h' : Balanced us) : Balanced (ts ++ us) := by
  intro depth rest
  rw [List.append_assoc, h, h']

theorem balanced_singleton (ht : isInner t = true) : Balanced [t] := by
  intro depth rest
  cases t with
  | mark m => cases m <;> first | rfl | cases ht
  | eof => cases ht
  | _ => rfl

theorem Balanced.cons (ht : isInner t = true) (h : Balanced ts) : Balanced (t :: ts) :=
  (balanced_singleton ht).append h

/-- Whether two marks are brackets of the same kind. -/
def isPair (left right : Mark) : Bool :=
  (left, right) ∈ [(.lparen, .rparen), (.lbracket, .rbracket), (.lbrace, .rbrace)]

theorem Balanced.enclosed {left right : Mark} (hpair : isPair left right = true)
    (h : Balanced ts) : Balanced (.mark left :: ts ++ [.mark right]) := by
  simp only [isPair, List.mem_cons, Prod.mk.injEq, List.not_mem_nil, or_false,
    decide_eq_true_eq] at hpair
  intro depth rest
  -- the depth is one more between the brackets, so the closing one is not the one looked for
  have hinner := h (depth + 1) (.mark right :: rest)
  rw [List.append_assoc]
  rcases hpair with ⟨rfl, rfl⟩ | ⟨rfl, rfl⟩ | ⟨rfl, rfl⟩
  · exact hinner
  · exact hinner
  · exact hinner

/-! ### Fitting tokens -/

/-- The tokens are read as the tree at every place that asks no more than `p`. -/
structure Fits (p : Place) (ts : List Token) (e : Expr) : Prop where
  balanced : Balanced ts
  reads : ∀ {least : Nat} {t : Token} {rest ts' : List Token} {r : Expr}, least ≤ p.power →
    stopsBefore p.after t = true → arrowNext (t :: rest) = false →
    ReadsOperators least e r (t :: rest) ts' → ReadsExpr least r (ts ++ t :: rest) ts'

theorem stopsBefore_mono {m n : Nat} (h : stopsBefore m t = true) (hmn : m ≤ n) :
    stopsBefore n t = true := by
  unfold stopsBefore at h ⊢
  split at h
  · exact decide_eq_true (Nat.lt_of_lt_of_le (of_decide_eq_true h) hmn)
  · exact decide_eq_true (Nat.lt_of_lt_of_le (of_decide_eq_true h) hmn)
  · exact decide_eq_true (Nat.lt_of_lt_of_le (of_decide_eq_true h) hmn)
  · exact decide_eq_true (Nat.lt_of_lt_of_le (of_decide_eq_true h) hmn)
  · cases hop : t.connective? with
    | none => rfl
    | some op =>
      rw [hop] at h
      exact decide_eq_true (Nat.lt_of_lt_of_le (of_decide_eq_true h) hmn)

theorem Fits.mono (h : Fits q ts e) (hpq : p ≤ q) : Fits p ts e where
  balanced := h.balanced
  reads hleast hstop harrow hnext :=
    h.reads (Nat.le_trans hleast hpq.1) (stopsBefore_mono hstop hpq.2) harrow hnext

theorem Fits.readsExpr (h : Fits p ts e) {least : Nat} {rest : List Token}
    (hleast : least ≤ p.power) (hafter : stopsBefore p.after t = true)
    (hstop : stopsBefore least t = true) (harrow : arrowNext (t :: rest) = false) :
    ReadsExpr least e (ts ++ t :: rest) (t :: rest) :=
  h.reads hleast hafter harrow (readsOperators_stop hstop)

/-- Before a token that ends every expression. -/
theorem Fits.readsExpr_end (h : Fits p ts e) {rest : List Token} (hstop : stopsBefore 0 t = true)
    (harrow : arrowNext (t :: rest) = false) : ReadsExpr 0 e (ts ++ t :: rest) (t :: rest) :=
  h.readsExpr (Nat.zero_le _) (stopsBefore_mono hstop (Nat.zero_le _)) hstop harrow

/-! ### Operands -/

theorem fits_leaf (node : Site → Expr) (ht : leaf? t = some node) :
    Fits .operand [t] (node default) where
  balanced := balanced_singleton (by cases t <;> first | rfl | cases ht)
  reads _ _ harrow hnext := readsExpr_of (readsOperand_leaf ht harrow) hnext

theorem Fits.parens (h : Fits p ts e) :
    Fits .operand (.mark .lparen :: ts ++ [.mark .rparen]) e where
  balanced := h.balanced.enclosed rfl
  reads {least t rest ts' r} _ _ harrow hnext := by
    have hclose : closesArrow 1 (ts ++ .mark .rparen :: t :: rest) = false := by
      rw [h.balanced]
      exact harrow
    have hparen := readsExpr_of (readsOperand_paren hclose (h.readsExpr_end rfl rfl)) hnext
    simpa using hparen

theorem Fits.unary {op : UnaryOp} (hop : t.unary? = some op)
    (h : Fits ⟨unaryPower, unaryPower⟩ ts e) :
    Fits ⟨accessPower, unaryPower⟩ (t :: ts) (.unary default op e) where
  balanced := by
    refine h.balanced.cons ?_
    cases t with
    | mark m => cases m <;> first | rfl | cases hop
    | word k => rfl
    | _ => cases hop
  reads _ hafter harrow hnext :=
    readsExpr_of (readsOperand_unary hop (h.readsExpr (Nat.le_refl _) hafter hafter harrow)) hnext

/-! ### Operators between operands -/

theorem isInner_of_connective? {op : Connective} (h : t.connective? = some op) :
    isInner t = true := by
  cases t with
  | mark m => cases m <;> first | rfl | cases h
  | word k => rfl
  | _ => cases h

theorem stopsBefore_connective {op : Connective} (h : t.connective? = some op) :
    stopsBefore (op.power.1 + 1) t = true := by
  unfold stopsBefore
  split
  · cases h
  · cases h
  · cases h
  · cases h
  · rw [h]
    exact decide_eq_true (Nat.lt_succ_self _)

theorem Fits.connective {op : Connective} (hop : t.connective? = some op)
    (hl : Fits ⟨op.power.1, op.power.1 + 1⟩ ts e) (hr : Fits ⟨op.power.2, op.power.2⟩ us f) :
    Fits ⟨op.power.1, op.power.2⟩ (ts ++ t :: us) (op.node default e f) where
  balanced := hl.balanced.append (hr.balanced.cons (isInner_of_connective? hop))
  reads {least t' rest ts' r} hleast hafter harrow hnext := by
    have hright : ReadsExpr op.power.2 f (us ++ t' :: rest) (t' :: rest) :=
      hr.readsExpr (Nat.le_refl _) hafter hafter harrow
    have hnotArrow (ts : List Token) : arrowNext (t :: ts) = false := by
      cases t with
      | mark m => cases m <;> first | rfl | cases hop
      | _ => rfl
    rw [List.append_assoc]
    exact hl.reads hleast (stopsBefore_connective hop) (hnotArrow _)
      (readsOperators_connective hop hleast hright hnext)

theorem Fits.conditional {a b : Expr} (ht : Fits ⟨conditionalPower, conditionalPower + 1⟩ ts e)
    (hc : Fits p us a) (ha : Fits ⟨conditionalPower, 0⟩ vs b) :
    Fits ⟨conditionalPower, 0⟩ (ts ++ .mark .question :: us ++ .mark .colon :: vs)
      (.conditional default e a b) where
  balanced := (ht.balanced.append (hc.balanced.cons rfl)).append (ha.balanced.cons rfl)
  reads {least t' rest ts' r} hleast hafter harrow hnext := by
    have hcons : ReadsExpr 0 a (us ++ .mark .colon :: (vs ++ t' :: rest))
        (.mark .colon :: (vs ++ t' :: rest)) := hc.readsExpr_end rfl rfl
    have halt : ReadsExpr conditionalPower b (vs ++ t' :: rest) (t' :: rest) :=
      ha.readsExpr (Nat.le_refl _) hafter (stopsBefore_mono hafter (Nat.zero_le _)) harrow
    have htest := ht.reads hleast rfl rfl (readsOperators_conditional hleast hcons halt hnext)
    simpa using htest

/-! ### Lists -/

/-- The tokens are read as the trees before a closing bracket. -/
structure FitsItems (ts : List Token) (es : List Expr) : Prop where
  balanced : Balanced ts
  reads : ∀ {closing : Token} {rest : List Token},
    closing = .mark .rparen ∨ closing = .mark .rbracket →
    ReadsItems closing es (ts ++ closing :: rest) rest

theorem fitsItems_nil : FitsItems [] [] where
  balanced := balanced_nil
  reads h := readsItems_nil (by rcases h with rfl | rfl <;> simp)

theorem Fits.items_singleton (h : Fits p ts e) : FitsItems ts [e] where
  balanced := h.balanced
  reads {closing rest} hclosing := by
    rcases hclosing with rfl | rfl
    · exact readsItems_singleton (by simp) rfl rfl (h.readsExpr_end rfl rfl)
    · exact readsItems_singleton (by simp) rfl rfl (h.readsExpr_end rfl rfl)

theorem Fits.items_cons {es : List Expr} (h : Fits p ts e) (hes : FitsItems us es) :
    FitsItems (ts ++ .mark .comma :: us) (e :: es) where
  balanced := h.balanced.append (hes.balanced.cons rfl)
  reads {closing rest} hclosing := by
    have hitem : ReadsExpr 0 e (ts ++ .mark .comma :: (us ++ closing :: rest))
        (.mark .comma :: (us ++ closing :: rest)) := h.readsExpr_end rfl rfl
    have hstart : opensExpr closing = false := by
      rcases hclosing with rfl | rfl <;> rfl
    rw [List.append_assoc]
    exact readsItems_cons hstart hitem (hes.reads hclosing)

/-! ### Brackets after and around -/

theorem Fits.call {es : List Expr} (h : Fits .operand ts e) (hes : FitsItems us es) :
    Fits .operand (ts ++ (.mark .lparen :: us ++ [.mark .rparen])) (.call default e es) where
  balanced := h.balanced.append (hes.balanced.enclosed rfl)
  reads {least t rest ts' r} hleast hafter harrow hnext := by
    have hargs : ReadsAccess e (.call default e es)
        (.mark .lparen :: (us ++ .mark .rparen :: t :: rest)) (t :: rest) :=
      readsAccess_call (hes.reads (.inl rfl))
    have hcall := h.reads hleast rfl rfl (readsOperators_access hleast (.inl rfl) hargs hnext)
    simpa using hcall

theorem Fits.index (h : Fits .operand ts e) (hf : Fits p us f) :
    Fits .operand (ts ++ (.mark .lbracket :: us ++ [.mark .rbracket]))
      (.member default e f true) where
  balanced := h.balanced.append (hf.balanced.enclosed rfl)
  reads {least t rest ts' r} hleast hafter harrow hnext := by
    have hproperty : ReadsAccess e (.member default e f true)
        (.mark .lbracket :: (us ++ .mark .rbracket :: t :: rest)) (t :: rest) :=
      readsAccess_computed (hf.readsExpr_end rfl rfl)
    have hmember :=
      h.reads hleast rfl rfl (readsOperators_access hleast (.inr (.inl rfl)) hproperty hnext)
    simpa using hmember

theorem Fits.property {name : String} (h : Fits .operand ts e) (ht : t.propertyName? = some name) :
    Fits .operand (ts ++ [.mark .dot, t]) (.member default e (.ident default name) false) where
  balanced := by
    have hinner : isInner t = true := by
      cases t with
      | mark m => cases ht
      | eof => cases ht
      | _ => rfl
    exact h.balanced.append ((balanced_singleton hinner).cons rfl)
  reads {least t' rest ts' r} hleast hafter harrow hnext := by
    have hproperty : ReadsAccess e (.member default e (.ident default name) false)
        (.mark .dot :: t :: t' :: rest) (t' :: rest) := readsAccess_named ht
    have hmember :=
      h.reads hleast rfl rfl (readsOperators_access hleast (.inr (.inr rfl)) hproperty hnext)
    simpa using hmember

theorem FitsItems.array {es : List Expr} (h : FitsItems ts es) :
    Fits .operand (.mark .lbracket :: ts ++ [.mark .rbracket]) (.array default es) where
  balanced := h.balanced.enclosed rfl
  reads {least t rest ts' r} _ _ _ hnext := by
    have harray : ReadsOperand (.array default es)
        (.mark .lbracket :: (ts ++ .mark .rbracket :: t :: rest)) (t :: rest) :=
      readsOperand_array (h.reads (.inr rfl))
    simpa using readsExpr_of harray hnext

/-! ### Functions -/

/-- The tokens are read as the parameter before a comma or the closing parenthesis. -/
structure FitsParam (ts : List Token) (p : Param) : Prop where
  balanced : Balanced ts
  reads : ∀ {t : Token} {rest : List Token}, t = .mark .comma ∨ t = .mark .rparen →
    ReadsParam p (ts ++ t :: rest) (t :: rest)

/-- The tokens are read as the parameters before the closing parenthesis. -/
structure FitsParams (ts : List Token) (ps : List Param) : Prop where
  balanced : Balanced ts
  reads : ∀ {rest : List Token}, ReadsParams ps (ts ++ .mark .rparen :: rest) rest

theorem fitsParam_required (name : String) :
    FitsParam [.name name] (.required name default) where
  balanced := balanced_singleton rfl
  reads h := .required (by rcases h with rfl | rfl <;> rfl)

theorem Fits.param_optional (h : Fits p ts e) (name : String) :
    FitsParam (.name name :: .mark .assign :: ts) (.optional name default e) where
  balanced := (h.balanced.cons rfl).cons rfl
  reads {t rest} ht := by
    have hdefault : ReadsExpr 0 e (ts ++ t :: rest) (t :: rest) := by
      rcases ht with rfl | rfl
      · exact h.readsExpr_end rfl rfl
      · exact h.readsExpr_end rfl rfl
    exact .optional hdefault

theorem fitsParams_nil : FitsParams [] [] where
  balanced := balanced_nil
  reads := readsParams_nil

theorem FitsParam.singleton {a : Param} (h : FitsParam ts a) : FitsParams ts [a] where
  balanced := h.balanced
  reads := readsParams_singleton (h.reads (.inr rfl))

theorem FitsParam.cons {a : Param} {ps : List Param} (h : FitsParam ts a) (hps : FitsParams us ps) :
    FitsParams (ts ++ .mark .comma :: us) (a :: ps) where
  balanced := h.balanced.append (hps.balanced.cons rfl)
  reads := by
    intro rest
    rw [List.append_assoc]
    exact readsParams_cons (h.reads (.inl rfl)) hps.reads

theorem FitsParams.arrow {ps : List Param} (hps : FitsParams ts ps) (h : Fits ⟨0, 0⟩ us e) :
    Fits ⟨accessPower, 0⟩ (.mark .lparen :: ts ++ [.mark .rparen] ++ .mark .arrow :: us)
      (.function default none ps e true) where
  balanced := (hps.balanced.enclosed rfl).append (h.balanced.cons rfl)
  reads {least t rest ts' r} _ hafter harrow hnext := by
    have hclose :
        closesArrow 1 (ts ++ .mark .rparen :: .mark .arrow :: (us ++ t :: rest)) = true := by
      rw [hps.balanced]
      rfl
    have hbody : ReadsExpr 0 e (us ++ t :: rest) (t :: rest) := h.readsExpr_end hafter harrow
    have hfunction := readsExpr_of (readsOperand_arrow hclose hps.reads hbody) hnext
    simpa using hfunction

theorem FitsParams.function {ps : List Param} (hps : FitsParams ts ps) (h : Fits p us e)
    (name : Option String) :
    Fits .operand (.word .func :: (name.toList.map .name ++
        (.mark .lparen :: ts ++ [.mark .rparen]) ++
        (.mark .lbrace :: .word .ret :: (us ++ [.mark .semi]) ++ [.mark .rbrace])))
      (.function default name ps e false) where
  balanced := by
    have hname : Balanced (name.toList.map .name) := by
      cases name with
      | none => exact balanced_nil
      | some name => exact balanced_singleton rfl
    have hbody : Balanced (.word .ret :: (us ++ [.mark .semi])) :=
      (h.balanced.append (balanced_singleton rfl)).cons rfl
    exact ((hname.append (hps.balanced.enclosed rfl)).append (hbody.enclosed rfl)).cons rfl
  reads {least t rest ts' r} _ _ _ hnext := by
    have hbody : ReadsBlock e
        (.mark .lbrace :: .word .ret :: (us ++ .mark .semi :: .mark .rbrace :: t :: rest))
        (t :: rest) := readsBlock_return (h.readsExpr_end rfl rfl)
    have hfunction := readsExpr_of (readsOperand_function hps.reads hbody) hnext
    simpa using hfunction

end Parser

end DeltaForm
