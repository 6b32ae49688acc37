import DeltaForm.Proofs.Parser.Places
import DeltaForm.Proofs.Printer.Spelling
import DeltaForm.Proofs.Tree

/-!
# Operators and precedence

The parser groups operators by its own table of binding powers (`Connective.power`), and the
operators have a table of precedences besides. The two agree: a row of operands with operators
between them is parsed into the one tree that has the row as its tokens in order and is **grouped**
by precedence (`Parser.parseTokens_row`). In a grouped tree the operand of an operator that stands
before it is no operation between two operands. The left operand of an operation between two binds
at least as tightly as the operation, and the right one more tightly; it is the other way round for
`**`.

That a row has a grouped tree is shown by adding its operators one after another: a new one goes
down the right side of the tree as far as the operators there let it (`Expr.attach`). That there is
only one follows from the parser: the tokens of a grouped tree fit wherever its outermost operator
may stand, so the parser makes that tree of them.
-/

namespace DeltaForm

/-! ### Grouped trees -/

namespace Connective

/-- How tightly it binds. -/
def precedence : Connective → Nat
  | binary op => op.precedence
  | logical op => op.precedence

/-- Whether a node of the connective `c` may be the left operand of `op`. -/
def TakesLeft (op c : Connective) : Prop :=
  if op = .binary .pow then op.precedence < c.precedence else op.precedence ≤ c.precedence

/-- Whether a node of the connective `c` may be the right operand of `op`. -/
def TakesRight (op c : Connective) : Prop :=
  if op = .binary .pow then op.precedence ≤ c.precedence else op.precedence < c.precedence

instance (op c : Connective) : Decidable (op.TakesLeft c) :=
  inferInstanceAs (Decidable (ite _ _ _))

instance (op c : Connective) : Decidable (op.TakesRight c) :=
  inferInstanceAs (Decidable (ite _ _ _))

end Connective

namespace Expr

/-- The connective of a node. -/
def connective? : Expr → Option Connective
  | binary _ op _ _ => some (.binary op)
  | logical _ op _ _ => some (.logical op)
  | _ => none

/-- The token of a literal or a name. -/
def leafToken? : Expr → Option Token
  | number _ v => some (.number v)
  | string _ s => some (.string s)
  | bool _ b => some (.bool b)
  | null _ => some .null
  | undefined _ => some .undefined
  | ident _ name => some (.name name)
  | _ => none

/-- The tree is made of operators, literals and names, and these are its tokens in order. -/
inductive InOrder : Expr → List Token → Prop
  | leaf {e : Expr} {t : Token} (h : e.leafToken? = some t) : InOrder e [t]
  | unary {site : Site} {op : UnaryOp} {e : Expr} {ts : List Token} (h : InOrder e ts) :
    InOrder (.unary site op e) (op.token :: ts)
  | node {site : Site} {op : Connective} {l r : Expr} {ts us : List Token} (hl : InOrder l ts)
    (hr : InOrder r us) : InOrder (op.node site l r) (ts ++ op.token :: us)

theorem InOrder.binary {site : Site} {op : BinaryOp} {l r : Expr} {ts us : List Token}
    (hl : InOrder l ts) (hr : InOrder r us) :
    InOrder (.binary site op l r) (ts ++ (Connective.binary op).token :: us) :=
  show InOrder ((Connective.binary op).node site l r) _ from .node hl hr

theorem InOrder.logical {site : Site} {op : LogicalOp} {l r : Expr} {ts us : List Token}
    (hl : InOrder l ts) (hr : InOrder r us) :
    InOrder (.logical site op l r) (ts ++ (Connective.logical op).token :: us) :=
  show InOrder ((Connective.logical op).node site l r) _ from .node hl hr

/-- The operands of a node are grouped as the precedence of its operator says. -/
def OperandsGrouped : Expr → Prop
  | unary _ _ e => e.connective? = none
  | binary _ op l r =>
    (∀ c ∈ l.connective?, (Connective.binary op).TakesLeft c) ∧
      ∀ c ∈ r.connective?, (Connective.binary op).TakesRight c
  | logical _ op l r =>
    (∀ c ∈ l.connective?, (Connective.logical op).TakesLeft c) ∧
      ∀ c ∈ r.connective?, (Connective.logical op).TakesRight c
  | _ => True

instance : DecidablePred OperandsGrouped
  | unary _ _ e => inferInstanceAs (Decidable (e.connective? = none))
  | binary .. | logical .. => inferInstanceAs (Decidable (_ ∧ _))
  | number .. | string .. | bool .. | null _ | undefined _ | ident .. | call .. | conditional ..
  | array .. | member .. | function .. | success .. | wrap .. | depend .. | operator ..
  | choice _ => .isTrue trivial

/-- The operands of all nodes are grouped. -/
def Grouped (e : Expr) : Prop := e.Everywhere OperandsGrouped

instance (e : Expr) : Decidable e.Grouped :=
  inferInstanceAs (Decidable (e.Everywhere OperandsGrouped))

end Expr

/-! ### The two tables -/

namespace Connective

variable {op c : Connective}

theorem precedence_lt_pow (h : op ≠ .binary .pow) :
    op.precedence < (Connective.binary .pow).precedence := by
  rcases op with op | op
  · cases op <;> first | decide | exact absurd rfl h
  · cases op <;> decide

/-- The binding powers of a connective other than `**` are two in a row, in the order of the
precedences. -/
theorem power_of_ne_pow (h : op ≠ .binary .pow) :
    op.power.1 + 4 = 2 * op.precedence ∧ op.power.2 = op.power.1 + 1 := by
  rcases op with op | op
  · cases op <;> first | decide | exact absurd rfl h
  · cases op <;> decide

/-- The place at which a node of a connective fits. -/
def place (op : Connective) : Parser.Place := ⟨op.power.1, op.power.2⟩

theorem TakesLeft.le_place (h : op.TakesLeft c) : ⟨op.power.1, op.power.1 + 1⟩ ≤ c.place := by
  by_cases hop : op = .binary .pow
  · -- Nothing binds more tightly than `**`, so no connective may stand on its left.
    rw [TakesLeft, if_pos hop, hop] at h
    have hc : c ≠ .binary .pow := by rintro rfl; exact Nat.lt_irrefl _ h
    exact absurd h (Nat.lt_asymm (precedence_lt_pow hc))
  · rw [TakesLeft, if_neg hop] at h
    obtain ⟨hleft, -⟩ := power_of_ne_pow hop
    have hlt : op.precedence < 14 := precedence_lt_pow hop
    by_cases hc : c = .binary .pow
    · subst hc
      exact ⟨show op.power.1 ≤ 25 by omega, show op.power.1 + 1 ≤ 24 by omega⟩
    · obtain ⟨hleft', hright'⟩ := power_of_ne_pow hc
      exact ⟨show op.power.1 ≤ c.power.1 by omega, show op.power.1 + 1 ≤ c.power.2 by omega⟩

theorem TakesRight.le_place (h : op.TakesRight c) : ⟨op.power.2, op.power.2⟩ ≤ c.place := by
  by_cases hop : op = .binary .pow
  · rw [TakesRight, if_pos hop, hop] at h
    have hc : c = .binary .pow := by
      by_contra hc
      exact absurd (precedence_lt_pow hc) (Nat.not_lt.2 h)
    subst hop hc
    decide
  · rw [TakesRight, if_neg hop] at h
    obtain ⟨hleft, hright⟩ := power_of_ne_pow hop
    by_cases hc : c = .binary .pow
    · subst hc
      have hlt : op.precedence < 14 := h
      exact ⟨show op.power.2 ≤ 25 by omega, show op.power.2 ≤ 24 by omega⟩
    · obtain ⟨hleft', hright'⟩ := power_of_ne_pow hc
      exact ⟨show op.power.2 ≤ c.power.1 by omega, show op.power.2 ≤ c.power.2 by omega⟩

/-- What a connective does not take as its right operand takes it as its left one. -/
theorem takesLeft_of_not_takesRight (h : ¬ op.TakesRight c) : c.TakesLeft op := by
  by_cases hop : op = .binary .pow
  · rw [TakesRight, if_pos hop] at h
    have hc : c ≠ .binary .pow := by rintro rfl; exact h (hop ▸ Nat.le_refl _)
    rw [TakesLeft, if_neg hc]
    omega
  · rw [TakesRight, if_neg hop] at h
    have hc : c ≠ .binary .pow := by rintro rfl; exact h (precedence_lt_pow hop)
    rw [TakesLeft, if_neg hc]
    omega

theorem place_le_operand (op : Connective) :
    ⟨op.power.1, op.power.1 + 1⟩ ≤ (⟨Parser.accessPower, Parser.unaryPower⟩ : Parser.Place) ∧
      ⟨op.power.2, op.power.2⟩ ≤ (⟨Parser.accessPower, Parser.unaryPower⟩ : Parser.Place) := by
  rcases op with op | op <;> cases op <;> decide

end Connective

/-! ### Nodes -/

namespace Expr

variable {site : Site} {op c : Connective} {e e' l r o : Expr} {ts us : List Token}

theorem connective?_node : (op.node site l r).connective? = some op := by cases op <;> rfl

theorem exists_node_of_connective? (h : e.connective? = some op) :
    ∃ site l r, e = op.node site l r := by
  cases e <;> cases h <;> exact ⟨_, _, _, rfl⟩

theorem erase_node : (op.node site l r).erase = op.node default l.erase r.erase := by
  cases op <;> rfl

theorem connective?_erase : e.erase.connective? = e.connective? := by cases e <;> rfl

theorem leafToken?_erase : e.erase.leafToken? = e.leafToken? := by cases e <;> rfl

theorem connective?_of_leafToken? {t : Token} (h : e.leafToken? = some t) :
    e.connective? = none := by
  cases e <;> first | rfl | cases h

theorem grouped_node :
    (op.node site l r).Grouped ↔
      ((∀ c ∈ l.connective?, op.TakesLeft c) ∧ ∀ c ∈ r.connective?, op.TakesRight c) ∧
        l.Grouped ∧ r.Grouped := by
  unfold Grouped
  rw [everywhere_iff]
  cases op <;> simp [Connective.node, OperandsGrouped, children]

theorem grouped_unary {op : UnaryOp} :
    (Expr.unary site op e).Grouped ↔ e.connective? = none ∧ e.Grouped := by
  unfold Grouped
  rw [everywhere_iff]
  simp [OperandsGrouped, children]

theorem grouped_of_leafToken? {t : Token} (h : e.leafToken? = some t) : e.Grouped := by
  cases e with
  | number | string | bool | null | undefined | ident => exact ⟨trivial, by simp [children]⟩
  | _ => cases h

theorem exists_of_erase_eq_node (h : e.erase = (op.node site l r).erase) :
    ∃ site' l' r', e = op.node site' l' r' ∧ l'.erase = l.erase ∧ r'.erase = r.erase := by
  cases op with
  | binary op =>
    cases e with
    | binary site' op' l' r' =>
      obtain ⟨-, rfl, hl, hr⟩ := Expr.binary.inj h
      exact ⟨site', l', r', rfl, hl, hr⟩
    | _ => cases h
  | logical op =>
    cases e with
    | logical site' op' l' r' =>
      obtain ⟨-, rfl, hl, hr⟩ := Expr.logical.inj h
      exact ⟨site', l', r', rfl, hl, hr⟩
    | _ => cases h

/-- Sites decide neither the order of the tokens nor the grouping. -/
theorem InOrder.of_erase_eq (h : e.InOrder ts) (hg : e.Grouped) (heq : e'.erase = e.erase) :
    e'.InOrder ts ∧ e'.Grouped := by
  induction h generalizing e' with
  | leaf h =>
    rw [← leafToken?_erase, ← heq, leafToken?_erase] at h
    exact ⟨.leaf h, grouped_of_leafToken? h⟩
  | unary _ ih =>
    cases e' with
    | unary site' op' e' =>
      obtain ⟨-, rfl, hoperand⟩ := Expr.unary.inj heq
      rw [grouped_unary] at hg ⊢
      rw [← connective?_erase, hoperand, connective?_erase]
      exact ⟨.unary (ih hg.2 hoperand).1, hg.1, (ih hg.2 hoperand).2⟩
    | _ => cases heq
  | node _ _ ihl ihr =>
    obtain ⟨site', l', r', rfl, hl, hr⟩ := exists_of_erase_eq_node heq
    rw [grouped_node] at hg ⊢
    rw [← connective?_erase (e := l'), ← connective?_erase (e := r'), hl, hr, connective?_erase,
      connective?_erase]
    obtain ⟨hops, hgl, hgr⟩ := hg
    exact ⟨.node (ihl hgl hl).1 (ihr hgr hr).1, hops, (ihl hgl hl).2, (ihr hgr hr).2⟩

/-! ### Every row has a grouped tree -/

/-- Adds a connective and its right operand after a tree: below the operators on the right side of
the tree, as long as these take the connective as their right operand. -/
def attach (e : Expr) (op : Connective) (o : Expr) : Expr :=
  match e with
  | binary site c l r =>
    if (Connective.binary c).TakesRight op then .binary site c l (r.attach op o)
    else op.node default (.binary site c l r) o
  | logical site c l r =>
    if (Connective.logical c).TakesRight op then .logical site c l (r.attach op o)
    else op.node default (.logical site c l r) o
  | e => op.node default e o

theorem attach_node :
    (c.node site l r).attach op o =
      if c.TakesRight op then c.node site l (r.attach op o)
      else op.node default (c.node site l r) o := by
  cases c <;> rfl

theorem attach_of_connective?_eq_none (h : e.connective? = none) :
    e.attach op o = op.node default e o := by
  cases e <;> first | rfl | cases h

/-- The outermost operator of a tree stays, or the new one takes its place. -/
theorem connective?_attach (e : Expr) (op : Connective) (o : Expr) :
    (e.attach op o).connective? = some op ∨ (e.attach op o).connective? = e.connective? := by
  cases he : e.connective? with
  | none =>
    rw [attach_of_connective?_eq_none he, connective?_node]
    exact .inl rfl
  | some c =>
    obtain ⟨site, l, r, rfl⟩ := exists_node_of_connective? he
    rw [attach_node]
    split
    · exact .inr connective?_node
    · exact .inl connective?_node

theorem InOrder.attach (h : e.InOrder ts) (op : Connective) (ho : o.InOrder us) :
    (e.attach op o).InOrder (ts ++ op.token :: us) := by
  induction h with
  | leaf h =>
    rw [attach_of_connective?_eq_none (connective?_of_leafToken? h)]
    exact .node (.leaf h) ho
  | unary h => exact .node (.unary h) ho
  | node hl hr _ ihr =>
    rw [attach_node]
    split
    · rw [List.append_assoc]
      exact .node hl ihr
    · exact .node (.node hl hr) ho

theorem InOrder.grouped_attach (h : e.InOrder ts) (op : Connective) (hg : e.Grouped)
    (ho : o.Grouped) (hatom : o.connective? = none) : (e.attach op o).Grouped := by
  -- An operand may stand on the right of every connective.
  have hright : ∀ c ∈ o.connective?, op.TakesRight c := by simp [hatom]
  induction h with
  | leaf h =>
    have hnone := connective?_of_leafToken? h
    rw [attach_of_connective?_eq_none hnone, grouped_node]
    exact ⟨⟨by simp [hnone], hright⟩, hg, ho⟩
  | unary h => exact grouped_node.2 ⟨⟨by simp [connective?], hright⟩, hg, ho⟩
  | @node _ c l r _ _ _ _ _ ihr =>
    obtain ⟨⟨hleft, hcr⟩, hgl, hgr⟩ := grouped_node.1 hg
    rw [attach_node]
    split
    · rename_i htakes
      refine grouped_node.2 ⟨⟨hleft, fun d hd => ?_⟩, hgl, ihr hgr⟩
      rcases connective?_attach r op o with heq | heq
      · rw [heq, Option.mem_some_iff] at hd
        exact hd ▸ htakes
      · exact hcr d (heq ▸ hd)
    · rename_i htakes
      refine grouped_node.2 ⟨⟨fun d hd => ?_, hright⟩, hg, ho⟩
      rw [connective?_node, Option.mem_some_iff] at hd
      exact hd ▸ Connective.takesLeft_of_not_takesRight htakes

end Expr

/-- Whether the token is a literal or a name. -/
def Token.isAtom : Token → Bool
  | number _ | string _ | bool _ | null | undefined | name _ => true
  | word _ | mark _ | eof => false

theorem Expr.exists_of_isAtom {t : Token} (h : t.isAtom = true) :
    ∃ e : Expr, e.leafToken? = some t := by
  cases t with
  | number v => exact ⟨.number default v, rfl⟩
  | string s => exact ⟨.string default s, rfl⟩
  | bool b => exact ⟨.bool default b, rfl⟩
  | null => exact ⟨.null default, rfl⟩
  | undefined => exact ⟨.undefined default, rfl⟩
  | name s => exact ⟨.ident default s, rfl⟩
  | word | mark | eof => cases h

namespace Parser

/-- An operand of a row: operators before a literal or a name. -/
structure Operand where
  /-- The operators, the outermost first. -/
  before : List UnaryOp
  /-- The literal or the name. -/
  atom : Token
  isAtom : atom.isAtom = true := by rfl

/-- Operands with operators between them. -/
structure OperatorRow where
  /-- The first operand. -/
  first : Operand
  /-- The other ones, each with the operator before it. -/
  rest : List (Connective × Operand)

/-- The tokens of an operand. -/
def Operand.tokens (o : Operand) : List Token := o.before.map UnaryOp.token ++ [o.atom]

/-- The tokens of operators and the operands after them. -/
def restTokens (rest : List (Connective × Operand)) : List Token :=
  rest.flatMap fun p => p.1.token :: p.2.tokens

/-- The tokens of a row. -/
def OperatorRow.tokens (row : OperatorRow) : List Token := row.first.tokens ++ restTokens row.rest

theorem Operand.exists_grouped (o : Operand) :
    ∃ e : Expr, e.InOrder o.tokens ∧ e.Grouped ∧ e.connective? = none := by
  obtain ⟨ops, t, ht⟩ := o
  induction ops with
  | nil =>
    obtain ⟨e, he⟩ := Expr.exists_of_isAtom ht
    exact ⟨e, .leaf he, Expr.grouped_of_leafToken? he, Expr.connective?_of_leafToken? he⟩
  | cons op ops ih =>
    obtain ⟨e, horder, hgrouped, hnone⟩ := ih
    exact ⟨.unary default op e, .unary horder, Expr.grouped_unary.2 ⟨hnone, hgrouped⟩, rfl⟩

theorem exists_grouped_append {e : Expr} {ts : List Token} (h : e.InOrder ts) (hg : e.Grouped)
    (rest : List (Connective × Operand)) :
    ∃ e' : Expr, e'.InOrder (ts ++ restTokens rest) ∧ e'.Grouped := by
  -- The tree made so far and its tokens change with every operator that is added.
  induction rest generalizing e ts with
  | nil => exact ⟨e, by simpa [restTokens] using h, hg⟩
  | cons p rest ih =>
    obtain ⟨op, operand⟩ := p
    obtain ⟨o, horder, hgrouped, hnone⟩ := operand.exists_grouped
    obtain ⟨e', he', hg'⟩ :=
      ih (h.attach op horder) (h.grouped_attach op hg hgrouped hnone)
    exact ⟨e', by simpa [restTokens] using he', hg'⟩

/-- **Every row has a grouped tree.** -/
theorem OperatorRow.exists_grouped (row : OperatorRow) :
    ∃ e : Expr, e.InOrder row.tokens ∧ e.Grouped := by
  obtain ⟨e, horder, hgrouped, -⟩ := row.first.exists_grouped
  exact exists_grouped_append horder hgrouped row.rest

/-! ### The parser makes the grouped tree -/

/-- The place at which a tree of operators fits. -/
def placeOf (e : Expr) : Place :=
  e.connective?.elim ⟨accessPower, unaryPower⟩ Connective.place

theorem le_placeOf {p : Place} {e : Expr} (hnone : p ≤ ⟨accessPower, unaryPower⟩)
    (hsome : ∀ c ∈ e.connective?, p ≤ c.place) : p ≤ placeOf e := by
  unfold placeOf
  cases he : e.connective? with
  | none => exact hnone
  | some c => exact hsome c he

theorem fits_of_inOrder {e : Expr} {ts : List Token} (h : e.InOrder ts) (hg : e.Grouped) :
    Fits (placeOf e) ts e.erase := by
  induction h with
  | @leaf e t h =>
    obtain ⟨node, hnode, heq⟩ : ∃ node, leaf? t = some node ∧ e.erase = node default := by
      cases e <;> cases h <;> exact ⟨_, rfl, rfl⟩
    rw [heq, placeOf, Expr.connective?_of_leafToken? h]
    exact (fits_leaf node hnode).mono (by decide)
  | @unary _ op e _ _ ih =>
    obtain ⟨hnone, hg⟩ := Expr.grouped_unary.1 hg
    have hoperand := ih hg
    rw [placeOf, hnone] at hoperand
    exact (hoperand.mono (by decide)).unary (unary?_token op)
  | @node _ op l r _ _ _ _ ihl ihr =>
    obtain ⟨⟨hleft, hright⟩, hgl, hgr⟩ := Expr.grouped_node.1 hg
    have hl := (ihl hgl).mono (le_placeOf op.place_le_operand.1 fun c hc => (hleft c hc).le_place)
    have hr := (ihr hgr).mono (le_placeOf op.place_le_operand.2 fun c hc => (hright c hc).le_place)
    rw [placeOf, Expr.connective?_node, Expr.erase_node]
    exact hl.connective (connective?_token op) hr

theorem parseTokens_of_inOrder {e : Expr} {ts : List Token} {ls : List Lexeme} (h : e.InOrder ts)
    (hg : e.Grouped) (hls : ls.map Lexeme.token = ts ++ [.eof]) :
    ∃ e', parseTokens ls = ⟨some e', []⟩ ∧ e'.erase = e.erase := by
  refine parseTokens_eq ?_
  rw [hls]
  exact (fits_of_inOrder h hg).readsExpr_end rfl rfl

/-- **A row of operators is parsed by precedence.** The tokens of a row are parsed without a fault,
into the tree that has them in order and is grouped; there is no other such tree, sites apart. -/
theorem parseTokens_row (row : OperatorRow) (ls : List Lexeme)
    (hls : ls.map Lexeme.token = row.tokens ++ [.eof]) :
    ∃ e, parseTokens ls = ⟨some e, []⟩ ∧ e.InOrder row.tokens ∧ e.Grouped ∧
      ∀ e' : Expr, e'.InOrder row.tokens → e'.Grouped → e'.erase = e.erase := by
  obtain ⟨tree, horder, hgrouped⟩ := row.exists_grouped
  obtain ⟨e, hparse, herase⟩ := parseTokens_of_inOrder horder hgrouped hls
  obtain ⟨heorder, hegrouped⟩ := horder.of_erase_eq hgrouped herase
  refine ⟨e, hparse, heorder, hegrouped, fun e' horder' hgrouped' => ?_⟩
  -- The parser makes every grouped tree of the row from the same lexemes.
  obtain ⟨e'', hparse', herase'⟩ := parseTokens_of_inOrder horder' hgrouped' hls
  rw [hparse] at hparse'
  cases hparse'
  exact herase'.symm

/-- `p ?? -a ** b ** 2 - c - d`. -/
def mixedRow : OperatorRow where
  first := { before := [], atom := .name "p" }
  rest :=
    [(.logical .coalesce, { before := [.neg], atom := .name "a" }),
      (.binary .pow, { before := [], atom := .name "b" }),
      (.binary .pow, { before := [], atom := .number 2 }),
      (.binary .sub, { before := [], atom := .name "c" }),
      (.binary .sub, { before := [], atom := .name "d" })]

/-- `p ?? (((-a) ** (b ** 2)) - c) - d`. -/
def mixedTree : Expr :=
  .logical default .coalesce (.ident default "p")
    (.binary default .sub
      (.binary default .sub
        (.binary default .pow (.unary default .neg (.ident default "a"))
          (.binary default .pow (.ident default "b") (.number default 2)))
        (.ident default "c"))
      (.ident default "d"))

theorem inOrder_mixedTree : mixedTree.InOrder mixedRow.tokens :=
  .logical (.leaf rfl)
    (.binary
      (.binary
        (.binary (.unary (.leaf rfl)) (.binary (.leaf rfl) (.leaf rfl)))
        (.leaf rfl))
      (.leaf rfl))

/-- The example's tokens, as if all stood at one place. -/
def mixedLexemes : List Lexeme := (mixedRow.tokens ++ [Token.eof]).map (⟨·, default⟩)

/-- The row of the example is parsed into the tree of the example. -/
theorem parseTokens_mixedRow :
    mixedLexemes.map Lexeme.token = mixedRow.tokens ++ [.eof] ∧
      ∃ e, parseTokens mixedLexemes = ⟨some e, []⟩ ∧ e.InOrder mixedRow.tokens ∧ e.Grouped ∧
        e.erase = mixedTree := by
  obtain ⟨e, hparse, horder, hgrouped, hunique⟩ := parseTokens_row mixedRow mixedLexemes rfl
  exact ⟨rfl, e, hparse, horder, hgrouped,
    (hunique mixedTree inOrder_mixedTree (by decide)).symm⟩

end Parser

end DeltaForm
