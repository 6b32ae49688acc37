import DeltaForm.Program
import DeltaForm.Proofs.Printer.Spelling
import DeltaForm.Proofs.Tree

/-!
# Printed expressions are read back

The text of an expression is read as the expression, up to the numbers and places of its nodes. A
runtime form is printed as a call or property access on the namespace, so that is what it is read
as: `Expr.expand` writes it out.

The printer puts parentheses where the precedence of a part is less than its place asks for, and
the parser goes by binding powers. `Place.ofPrecedence` joins the two: an expression of a precedence
stands without parentheses at every place up to that one.
-/

namespace DeltaForm

open DeltaForm.Lexer DeltaForm.Parser

namespace Parser.Place

/-- The place that asks the most of what an expression of a precedence is. -/
def ofPrecedence (n : Nat) : Place :=
  if n ≤ 2 then ⟨accessPower, 0⟩
  else if n = 3 then ⟨conditionalPower, 0⟩
  else if n ≤ 13 then ⟨2 * (n - 2), 2 * (n - 2) + 1⟩
  else if n = 14 then ⟨25, 24⟩
  else if n = 15 then ⟨accessPower, unaryPower⟩
  else operand

theorem ofPrecedence_mono {m n : Nat} (hm : 4 ≤ m) (hmn : m ≤ n) :
    ofPrecedence m ≤ ofPrecedence n := by
  simp only [ofPrecedence, operand, accessPower, unaryPower, conditionalPower]
  split_ifs <;> constructor <;> simp only <;> omega

theorem ofPrecedence_le_operand (n : Nat) : ofPrecedence n ≤ operand := by
  simp only [ofPrecedence, operand, accessPower, unaryPower, conditionalPower]
  split_ifs <;> constructor <;> simp only <;> omega

/-- The last branch of a conditional takes every expression. -/
theorem conditional_le_ofPrecedence (n : Nat) : ⟨conditionalPower, 0⟩ ≤ ofPrecedence n := by
  simp only [ofPrecedence, operand, accessPower, unaryPower, conditionalPower]
  split_ifs <;> constructor <;> simp only <;> omega

end Parser.Place

namespace Expr

/-! ### Runtime forms written out -/

mutual

/-- The tree with its runtime forms written out as calls and property access on the namespace. -/
def expand (ns : String) : Expr → Expr
  | number s v => number s v
  | string s v => string s v
  | bool s b => bool s b
  | null s => null s
  | undefined s => undefined s
  | ident s name => ident s name
  | unary s op e => unary s op (e.expand ns)
  | binary s op l r => binary s op (l.expand ns) (r.expand ns)
  | logical s op l r => logical s op (l.expand ns) (r.expand ns)
  | call s f args => call s (f.expand ns) (expandList ns args)
  | conditional s t c a => conditional s (t.expand ns) (c.expand ns) (a.expand ns)
  | array s es => array s (expandList ns es)
  | member s o p computed =>
    member s (o.expand ns) (if computed then p.expand ns else p) computed
  | function s name ps body arrow => function s name (expandParams ns ps) (body.expand ns) arrow
  | success s v => call s (member s (ident s ns) (ident s "success") false) [v.expand ns]
  | wrap s f args => call s (ident s ns) [call s (f.expand ns) (expandList ns args)]
  | depend s lifted f args =>
    call s (member s (ident s ns) (ident s "depend") false)
      (bool s lifted :: f.expand ns :: expandList ns args)
  | operator s name =>
    member s (member s (ident s ns) (ident s "operators") false) (string s name) true
  | choice s => member s (ident s ns) (string s choiceName) true

/-- The trees with their runtime forms written out. -/
def expandList (ns : String) : List Expr → List Expr
  | [] => []
  | e :: es => e.expand ns :: expandList ns es

/-- The parameters with the runtime forms in their defaults written out. -/
def expandParams (ns : String) : List Param → List Param
  | [] => []
  | .required name span :: ps => .required name span :: expandParams ns ps
  | .optional name span e :: ps => .optional name span (e.expand ns) :: expandParams ns ps

end

/-! ### Trees that can be printed -/

/-- The node can be written so that it is read back: numbers have no sign, names are names, the
property after a point is a name or a reserved word, and an arrow function has no name. -/
def IsWritable : Expr → Prop
  | number _ v => Number.IsLiteral v
  | ident _ name => IsName name
  | member _ _ p computed => computed = false → ∃ name, p.ident? = some name ∧ IsPropertyName name
  | function _ name ps _ arrow =>
    (∀ s ∈ name, IsName s) ∧ (∀ p ∈ ps, IsName p.name) ∧ (arrow = true → name = none)
  | _ => True

/-- All nodes of the tree can be written. -/
def Writable (e : Expr) : Prop := Everywhere IsWritable e

/-- Whether a point can follow the text of an expression. -/
def takesPoint : Expr → Bool
  | string .. | bool .. | null _ | undefined _ | ident .. | array .. => true
  | call .. | member .. | success .. | wrap .. | depend .. | operator .. | choice _ => true
  | number .. | unary .. | binary .. | logical .. | conditional .. | function .. => false

/-- The text of the expression stands for it at every place up to the one of its precedence. -/
def Prints (ns : String) (e : Expr) : Prop :=
  Stands (.ofPrecedence e.precedence) e.takesPoint (bare ns.toList e) (e.expand ns).erase

variable {ns : String} {e : Expr} {es : List Expr} {ps : List Param}

/-- A part that stands in its place, in parentheses if it has to. -/
theorem Prints.operand {p : Place} {needed : Bool} {n : Nat} (h : Prints ns e)
    (hneeded : needed = false → n ≤ e.precedence) (hn : 4 ≤ n) (hp : p ≤ .ofPrecedence n) :
    Stands p false (parenthesize needed (bare ns.toList e)) (e.expand ns).erase := by
  refine h.parenthesize (Place.le_trans hp (Place.ofPrecedence_le_operand n)) fun hbare => ?_
  exact ⟨Place.le_trans hp (Place.ofPrecedence_mono hn (hneeded hbare)), by simp⟩

theorem Prints.part {p : Place} {n : Nat} (h : Prints ns e) (hn : 4 ≤ n)
    (hp : p ≤ .ofPrecedence n) :
    Stands p false (parenthesize (e.precedence < n) (bare ns.toList e)) (e.expand ns).erase :=
  h.operand (fun hbare => by simpa using hbare) hn hp

theorem Prints.item (h : Prints ns e) :
    Stands .bracketed false (parenthesize (e.precedence < functionPrecedence) (bare ns.toList e))
      (e.expand ns).erase :=
  h.parenthesize (by decide) fun _ => ⟨⟨Nat.zero_le _, Nat.zero_le _⟩, by simp⟩

theorem standItems_more (he : Prints ns e) (hes : ∀ e ∈ es, Prints ns e) :
    StandItems (parenthesize (e.precedence < functionPrecedence) (bare ns.toList e) ++
      more ns.toList es) ((e.expand ns).erase :: eraseList (expandList ns es)) := by
  induction es generalizing e with
  | nil => simpa [more, expandList, eraseList] using he.item.items_singleton
  | cons e' es ih =>
    rw [List.forall_mem_cons] at hes
    have h := he.item.items_cons (ih hes.1 hes.2)
    simpa [more, expandList, eraseList] using h

theorem standItems_list (hes : ∀ e ∈ es, Prints ns e) :
    StandItems (list ns.toList es) (eraseList (expandList ns es)) := by
  cases es with
  | nil => exact standItems_nil
  | cons e es =>
    rw [List.forall_mem_cons] at hes
    exact standItems_more hes.1 hes.2

/-- The parameter without its place, and with the runtime forms in its default written out. -/
def expandParam (ns : String) : Param → Param
  | .required name _ => .required name default
  | .optional name _ e => .optional name default (e.expand ns).erase

theorem eraseParams_expandParams : eraseParams (expandParams ns ps) = ps.map (expandParam ns) := by
  induction ps with
  | nil => rfl
  | cons p ps ih => cases p <;> simp [expandParams, eraseParams, expandParam, ih]

theorem standParam {p : Param} (hname : IsName p.name) (hdefault : ∀ e ∈ p.default?, Prints ns e) :
    StandParam (param ns.toList p) (expandParam ns p) := by
  cases p with
  | required name span =>
    rw [param]
    exact standParam_required hname
  | optional name span e =>
    rw [param]
    exact (hdefault e rfl).item.param_optional hname

theorem standParams_more {p : Param} (hp : StandParam (param ns.toList p) (expandParam ns p))
    (hps : ∀ p ∈ ps, StandParam (param ns.toList p) (expandParam ns p)) :
    StandParams (param ns.toList p ++ moreParams ns.toList ps)
      ((p :: ps).map (expandParam ns)) := by
  induction ps generalizing p with
  | nil => simpa [moreParams] using hp.singleton
  | cons p' ps ih =>
    rw [List.forall_mem_cons] at hps
    simpa [moreParams] using hp.cons (ih hps.1 hps.2)

theorem standParams_params (hps : ∀ p ∈ ps, StandParam (param ns.toList p) (expandParam ns p)) :
    StandParams (params ns.toList ps) (ps.map (expandParam ns)) := by
  cases ps with
  | nil => exact standParams_nil
  | cons p ps =>
    rw [List.forall_mem_cons] at hps
    exact standParams_more hps.1 hps.2

/-! ### One kind of node after the other -/

variable {s : Site}

theorem prints_number {v : Float} (h : Number.IsLiteral v) : Prints ns (.number s v) := by
  have hprec : (number s v).precedence = primaryPrecedence := by
    obtain ⟨mant, exp, hparts⟩ := h
    simp [precedence, Number.isNegative, hparts]
  rw [Prints, hprec]
  exact stands_number h

theorem prints_bool (b : Bool) : Prints ns (.bool s b) := by
  cases b with
  | false => exact stands_word "false" rfl (.bool · false) rfl
  | true => exact stands_word "true" rfl (.bool · true) rfl

theorem prints_unary {op : UnaryOp} (h : Prints ns e) : Prints ns (.unary s op e) := by
  -- a sign before a sign is in parentheses, so the place asks no more of an operand than others
  have hneeded (hbare : decide (e.precedence < if isSigned e then bracketed else unaryPrecedence) =
      false) : unaryPrecedence ≤ e.precedence := by
    simp only [decide_eq_false_iff_not, Nat.not_lt] at hbare
    refine Nat.le_trans ?_ hbare
    split_ifs <;> decide
  exact (h.operand hneeded (by decide) (by decide)).unary

theorem operand_places (op : BinaryOp) :
    (4 ≤ (operandPrecedences op).1 ∧ 4 ≤ (operandPrecedences op).2) ∧
      ⟨(Connective.binary op).power.1, (Connective.binary op).power.1 + 1⟩ ≤
        Place.ofPrecedence (operandPrecedences op).1 ∧
      ⟨(Connective.binary op).power.2, (Connective.binary op).power.2⟩ ≤
        Place.ofPrecedence (operandPrecedences op).2 ∧
      Place.ofPrecedence op.precedence =
        ⟨(Connective.binary op).power.1, (Connective.binary op).power.2⟩ := by
  cases op <;> decide

theorem prints_binary {op : BinaryOp} {l r : Expr} (hl : Prints ns l) (hr : Prints ns r) :
    Prints ns (.binary s op l r) := by
  obtain ⟨⟨hleft, hright⟩, hleft', hright', hplace⟩ := operand_places op
  have hnode := (hl.part hleft hleft').connective (hr.part hright hright')
  rw [← hplace] at hnode
  exact hnode

theorem prints_logical {op : LogicalOp} {l r : Expr} (hl : Prints ns l) (hr : Prints ns r) :
    Prints ns (.logical s op l r) := by
  have hplaces : 4 ≤ op.precedence ∧
      ⟨(Connective.logical op).power.1, (Connective.logical op).power.1 + 1⟩ ≤
        Place.ofPrecedence op.precedence ∧
      ⟨(Connective.logical op).power.2, (Connective.logical op).power.2⟩ ≤
        Place.ofPrecedence (op.precedence + 1) ∧
      Place.ofPrecedence op.precedence =
        ⟨(Connective.logical op).power.1, (Connective.logical op).power.2⟩ := by
    cases op <;> decide
  obtain ⟨hprec, hleft, hright, hplace⟩ := hplaces
  have hmixed (e : Expr) (n : Nat)
      (hbare : (mixesCoalesce op e || decide (e.precedence < n)) = false) : n ≤ e.precedence := by
    simp only [Bool.or_eq_false_iff, decide_eq_false_iff_not, Nat.not_lt] at hbare
    exact hbare.2
  have hnode := (hl.operand (hmixed l _) hprec hleft).connective
    (hr.operand (hmixed r _) (Nat.le_succ_of_le hprec) hright)
  rw [← hplace] at hnode
  exact hnode

theorem prints_call {f : Expr} (hf : Prints ns f) (hes : ∀ e ∈ es, Prints ns e) :
    Prints ns (.call s f es) :=
  (hf.part (by decide) (by decide)).call (standItems_list hes)

theorem prints_conditional {t c a : Expr} (ht : Prints ns t) (hc : Prints ns c)
    (ha : Prints ns a) : Prints ns (.conditional s t c a) := by
  have halternate : Stands ⟨conditionalPower, 0⟩ false
      (parenthesize (a.precedence < functionPrecedence) (bare ns.toList a))
      (a.expand ns).erase :=
    Stands.parenthesize ha (by decide) fun _ => ⟨Place.conditional_le_ofPrecedence _, by simp⟩
  exact (ht.part (n := 4) (by decide) (by decide)).conditional hc.item halternate

theorem prints_array (hes : ∀ e ∈ es, Prints ns e) : Prints ns (.array s es) :=
  (standItems_list hes).array

/-- The least precedence of the object of a property access; a number takes parentheses, or the
point would belong to it. -/
def objectPrecedence : Expr → Nat
  | number .. => bracketed
  | _ => accessPrecedence

theorem takesPoint_of_precedence {o : Expr} (h : o.objectPrecedence ≤ o.precedence) :
    o.takesPoint = true := by
  cases o with
  | number s v =>
    have hprec : (number s v).precedence < bracketed := by
      rw [precedence]
      split_ifs <;> decide
    exact absurd h (Nat.not_le.2 hprec)
  | unary s op e => exact absurd h (show ¬ accessPrecedence ≤ unaryPrecedence by decide)
  | binary s op l r =>
    have hprec : op.precedence < accessPrecedence := by cases op <;> decide
    exact absurd h (Nat.not_le.2 hprec)
  | logical s op l r =>
    have hprec : op.precedence < accessPrecedence := by cases op <;> decide
    exact absurd h (Nat.not_le.2 hprec)
  | conditional s t c a =>
    exact absurd h (show ¬ accessPrecedence ≤ conditionalPrecedence by decide)
  | function s name ps body arrow =>
    exact absurd h (show ¬ accessPrecedence ≤ functionPrecedence by decide)
  | _ => rfl

theorem Prints.object {o : Expr} (h : Prints ns o) : Stands .operand true
    (parenthesize (o.precedence < o.objectPrecedence) (bare ns.toList o)) (o.expand ns).erase := by
  refine h.parenthesize (by decide) fun hbare => ?_
  simp only [decide_eq_false_iff_not, Nat.not_lt] at hbare
  have haccess : accessPrecedence ≤ o.objectPrecedence := by
    unfold objectPrecedence
    split <;> decide
  refine ⟨?_, fun _ => takesPoint_of_precedence hbare⟩
  exact Place.ofPrecedence_mono (m := accessPrecedence) (by decide) (Nat.le_trans haccess hbare)

theorem prints_index {o p : Expr} (ho : Prints ns o) (hp : Prints ns p) :
    Prints ns (.member s o p true) :=
  ho.object.index hp

theorem prints_property {o : Expr} {s' : Site} {name : String} (ho : Prints ns o)
    (hname : IsPropertyName name) : Prints ns (.member s o (.ident s' name) false) :=
  ho.object.property hname

theorem prints_function {name : Option String} {body : Expr} {arrow : Bool}
    (hname : ∀ s ∈ name, IsName s) (harrow : arrow = true → name = none)
    (hps : ∀ p ∈ ps, StandParam (param ns.toList p) (expandParam ns p)) (hbody : Prints ns body) :
    Prints ns (.function s name ps body arrow) := by
  have hparams := standParams_params hps
  rw [← eraseParams_expandParams] at hparams
  cases arrow with
  | true =>
    cases harrow rfl
    exact hparams.arrow hbody.item
  | false =>
    exact (hparams.function hbody hname).mono (Place.ofPrecedence_le_operand _) (by simp)

/-! ### Runtime forms -/

theorem stands_runtime (hns : IsName ns) (name : String) (hname : isWord name.toList = true) :
    Stands .operand true (ns.toList ++ '.' :: name.toList)
      (.member default (.ident default ns) (.ident default name) false) :=
  (stands_ident hns).property (isPropertyName_iff.2 hname)

theorem prints_success (hns : IsName ns) {v : Expr} (hv : Prints ns v) :
    Prints ns (.success s v) := by
  have h := (stands_runtime hns "success" rfl).call hv.item.items_singleton
  change Stands .operand true (ns.toList ++ ".success(".toList ++
    parenthesize (v.precedence < functionPrecedence) (bare ns.toList v) ++ [')']) _
  simpa [expand, erase, eraseList] using h

theorem prints_wrap (hns : IsName ns) {f : Expr} (hf : Prints ns f)
    (hes : ∀ e ∈ es, Prints ns e) : Prints ns (.wrap s f es) := by
  have hcall := (hf.part (n := accessPrecedence) (by decide) (by decide)).call (standItems_list hes)
  have h := (stands_ident hns).call hcall.items_singleton
  change Stands .operand true (ns.toList ++
    '(' :: parenthesize (f.precedence < accessPrecedence) (bare ns.toList f) ++
    '(' :: list ns.toList es ++ [')', ')']) _
  simpa [expand, erase, eraseList] using h

theorem prints_depend (hns : IsName ns) {lifted : Bool} {f : Expr} (hf : Prints ns f)
    (hes : ∀ e ∈ es, Prints ns e) : Prints ns (.depend s lifted f es) := by
  have hflag : Stands .operand true (if lifted then "true" else "false").toList
      (.bool default lifted) := @prints_bool ns s lifted
  have h := (stands_runtime hns "depend" rfl).call (hflag.items_cons (standItems_more hf hes))
  change Stands .operand true (ns.toList ++ ".depend(".toList ++
    (if lifted then "true" else "false").toList ++ comma ++
    parenthesize (f.precedence < functionPrecedence) (bare ns.toList f) ++
    more ns.toList es ++ [')']) _
  simpa [expand, erase, eraseList] using h

theorem prints_operator (hns : IsName ns) {name : String} : Prints ns (.operator s name) := by
  have h := (stands_runtime hns "operators" rfl).index (stands_string name)
  change Stands .operand true (ns.toList ++ ".operators[".toList ++ Quoted.literal name ++ [']']) _
  simpa [expand, erase, eraseList] using h

theorem prints_choice (hns : IsName ns) : Prints ns (.choice s) :=
  (stands_ident hns).index (stands_string choiceName)

/-- **The printer's text of an expression stands for it**, in every surrounding up to the place of
its precedence. -/
theorem prints (hns : IsName ns) (h : e.Writable) : Prints ns e := by
  induction h with
  | @intro e here below ih =>
    cases e with
    | number s v => exact prints_number here
    | string s v => exact stands_string v
    | bool s b => exact prints_bool b
    | null s => exact stands_word "null" rfl .null rfl
    | undefined s => exact stands_word "undefined" rfl .undefined rfl
    | ident s name => exact stands_ident here
    | unary s op e => exact prints_unary (ih e (by simp [children]))
    | binary s op l r =>
      exact prints_binary (ih l (by simp [children])) (ih r (by simp [children]))
    | logical s op l r =>
      exact prints_logical (ih l (by simp [children])) (ih r (by simp [children]))
    | call s f args =>
      exact prints_call (ih f (by simp [children])) fun e he => ih e (by simp [children, he])
    | conditional s t c a =>
      exact prints_conditional (ih t (by simp [children])) (ih c (by simp [children]))
        (ih a (by simp [children]))
    | array s es => exact prints_array ih
    | member s o p computed =>
      have ho : Prints ns o := ih o (by cases computed <;> simp [children])
      cases computed with
      | true => exact prints_index ho (ih p (by simp [children]))
      | false =>
        obtain ⟨name, hp, hname⟩ := here rfl
        cases p with
        | ident s' name' =>
          cases hp
          exact prints_property ho hname
        | _ => cases hp
    | function s name ps body arrow =>
      obtain ⟨hname, hparams, harrow⟩ := here
      refine prints_function hname harrow (fun p hp => standParam (hparams p hp) fun e he => ?_)
        (ih body (by simp [children]))
      refine ih e ?_
      rw [children, List.mem_append, List.mem_filterMap]
      exact .inl ⟨p, hp, he⟩
    | success s v => exact prints_success hns (ih v (by simp [children]))
    | wrap s f args =>
      exact prints_wrap hns (ih f (by simp [children])) fun e he => ih e (by simp [children, he])
    | depend s lifted f args =>
      exact prints_depend hns (ih f (by simp [children])) fun e he => ih e (by simp [children, he])
    | operator s name => exact prints_operator hns
    | choice s => exact prints_choice hns

/-! ### Reading a printed expression -/

theorem expandList_eq (h : ∀ e ∈ es, e.expand ns = e) : expandList ns es = es := by
  induction es with
  | nil => rfl
  | cons e es ih =>
    rw [List.forall_mem_cons] at h
    rw [expandList, h.1, ih h.2]

theorem expandParams_eq (h : ∀ p ∈ ps, ∀ e ∈ p.default?, e.expand ns = e) :
    expandParams ns ps = ps := by
  induction ps with
  | nil => rfl
  | cons p ps ih =>
    rw [List.forall_mem_cons] at h
    cases p with
    | required name span => rw [expandParams, ih h.2]
    | optional name span e => rw [expandParams, h.1 e rfl, ih h.2]

theorem expand_of_lambdaForm (h : e.LambdaForm) : e.expand ns = e := by
  induction h with
  | @intro e here below ih =>
    cases e with
    | number | string | bool | null | undefined | ident => rw [expand]
    | unary s op e => rw [expand, ih e (by simp [children])]
    | binary s op l r => rw [expand, ih l (by simp [children]), ih r (by simp [children])]
    | logical s op l r => rw [expand, ih l (by simp [children]), ih r (by simp [children])]
    | call s f args =>
      rw [expand, ih f (by simp [children]),
        expandList_eq fun e he => ih e (by simp [children, he])]
    | conditional s t c a =>
      rw [expand, ih t (by simp [children]), ih c (by simp [children]), ih a (by simp [children])]
    | array s es => rw [expand, expandList_eq fun e (he : e ∈ es) => ih e he]
    | member s o p computed =>
      cases computed with
      | true =>
        rw [expand, ih o (by simp [children]), ih p (by simp [children])]
        rfl
      | false =>
        rw [expand, ih o (by simp [children])]
        rfl
    | function s name ps body arrow =>
      have hps : expandParams ns ps = ps := by
        refine expandParams_eq fun p hp e he => ih e ?_
        rw [children, List.mem_append, List.mem_filterMap]
        exact .inl ⟨p, hp, he⟩
      rw [expand, ih body (by simp [children]), hps]
    | success | wrap | depend | operator | choice => cases here

/-- **Printing and reading again gives the tree back.** For a namespace that is a name and a tree
whose numbers and names can be written, the printed text is read without a fault, and the tree read
is the given one with its runtime forms written out as calls and property access on the namespace,
up to the numbers and places of nodes. Without runtime forms it is the given tree itself. -/
theorem parseSource_print (hns : IsName ns) (h : e.Writable) :
    ∃ e', parseSource (e.print ns) = ⟨some e', []⟩ ∧ e'.erase = (e.expand ns).erase ∧
      (e.LambdaForm → e'.erase = e.erase) := by
  obtain ⟨ts, -, hspells, hfits⟩ := prints hns h
  have hlexes : Lexes (e.print ns).toList ts [] := by
    rw [print, String.toList_ofList, ← List.append_nil (bare ns.toList e)]
    exact hspells [] rfl
  obtain ⟨hfaults, htokens⟩ := tokenize_of_lexes hlexes
  have hreads : ReadsExpr 0 (e.expand ns).erase
      ((tokenize (e.print ns)).lexemes.map Lexeme.token) [.eof] := by
    rw [htokens]
    exact hfits.readsExpr_end rfl rfl
  obtain ⟨e', hparse, heq⟩ := parseTokens_eq hreads
  refine ⟨e', ?_, heq, fun hform => ?_⟩
  · rw [parseSource, hfaults]
    exact hparse
  · rw [heq, expand_of_lambdaForm hform]

/-- A lifted tree: `δ.depend(false, (x = []) => x.in ?? (x || (-1.5) ** 2), δ(load("a\n")))`. -/
def sampleDepend : Expr :=
  let x := ident default "x"
  let power := binary default .pow (unary default .neg (number default 1.5)) (number default 2)
  let choose := logical default .coalesce (member default x (ident default "in") false)
    (logical default .or x power)
  let arrow := function default none [.optional "x" default (array default [])] choose true
  depend default false arrow [wrap default (ident default "load") [string default "a\n"]]

theorem parseSource_print_sample : IsName "δ" ∧ sampleDepend.Writable ∧
    ∃ e', parseSource (sampleDepend.print "δ") = ⟨some e', []⟩ ∧
      e'.erase = (sampleDepend.expand "δ").erase := by
  have hname (s : String) (hs : isWord s.toList = true) (hr : Token.reserved.lookup s = none) :
      IsName s := isName_iff.2 ⟨hs, hr⟩
  have hnumber : Number.IsLiteral 1.5 ∧ Number.IsLiteral 2 :=
    ⟨⟨_, _, rfl⟩, ⟨_, _, rfl⟩⟩
  have hwritable : sampleDepend.Writable := by
    simp [sampleDepend, Writable, everywhere_iff_forall, children, IsWritable, Param.default?,
      Param.name, ident?, hnumber, hname "x" rfl rfl, hname "load" rfl rfl,
      isPropertyName_iff.2 (show isWord "in".toList = true from rfl)]
  have hns := hname "δ" (by decide +kernel) rfl
  obtain ⟨e', hparse, heq, -⟩ := parseSource_print hns hwritable
  exact ⟨hns, hwritable, e', hparse, heq⟩

end Expr

end DeltaForm
