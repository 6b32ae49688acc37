import DeltaForm.Lifting
import DeltaForm.Proofs.Tree
import Mathlib.Data.List.Forall2

/-!
# The rules of lifting

`Expr.lift` is a recursive function with a case for every kind of node. `Lifts ns e l` says the same
about trees in lambda form as a relation with one rule for each kind, and `Lifts.of_lift` shows that
nothing else can come out of `lift`. What is proved about lifted trees is proved by
`Lifts.induction`, which gives for the operands of a node what is to be shown of the node itself.
-/

namespace DeltaForm

/-- What a computation that may fail yields, if it is made of two. -/
theorem Except.bind_eq_ok_iff {ε α β : Type} {x : Except ε α} {f : α → Except ε β} {b : β} :
    (x >>= f) = .ok b ↔ ∃ a, x = .ok a ∧ f a = .ok b := by
  cases x with
  | error e => simp [bind, Except.bind]
  | ok a => simp [bind, Except.bind]

/-! ### Nodes that wait -/

namespace Ty

theorem isState_iff {t : Ty} : t.isState = true ↔ t = .state := by
  cases t <;> simp [isState]

theorem isState_eq_false_iff {t : Ty} : t.isState = false ↔ t ≠ .state := by
  cases t <;> simp [isState]

theorem concat_isState (a b : Ty) : (a.concat b).isState = (a.isState || b.isState) := by
  unfold concat
  cases a.isState || b.isState <;> rfl

theorem foldl_concat_isState (a : Ty) (ts : List Ty) :
    (ts.foldl concat a).isState = (a.isState || ts.any isState) := by
  induction ts generalizing a with
  | nil => simp
  | cons t ts ih => rw [List.foldl_cons, ih, concat_isState, List.any_cons, Bool.or_assoc]

end Ty

namespace Lifted

theorem waits_iff {os : List Lifted} : waits os = true ↔ ∃ o ∈ os, o.ty = .state := by
  rw [waits, Ty.concatAll, Ty.foldl_concat_isState]
  simp [Ty.isState, ← Ty.isState_iff]

theorem waits_eq_false_iff {os : List Lifted} : waits os = false ↔ ∀ o ∈ os, o.ty ≠ .state := by
  rw [← Bool.not_eq_true, waits_iff]
  simp

theorem operation_of_waits {os : List Lifted} (h : waits os = true) (span : Span) (name : String)
    (plain : Expr) :
    operation span name os plain =
      depend span true (.operator (.synthetic span) name) (os.map asState) := by
  simp [operation, h]

theorem operation_of_not_waits {os : List Lifted} (h : waits os = false) (span : Span)
    (name : String) (plain : Expr) : operation span name os plain = ⟨.value, plain⟩ := by
  simp [operation, h]

theorem asState_of_eq {l : Lifted} (h : l.ty = .state) : l.asState = l.expr := by
  simp [asState, h, Ty.isState]

theorem asState_of_ne {l : Lifted} (h : l.ty ≠ .state) :
    l.asState = .success (.synthetic l.expr.span) l.expr := by
  rw [asState, if_neg (mt Ty.isState_iff.1 h)]

theorem application_of_waits {callee : Lifted} {args : List Lifted}
    (h : waits (callee :: args) = true) (site : Site) :
    application site callee args =
      depend site.span (callee.ty != .toState) callee.asState (args.map asState) := by
  simp [application, h]

theorem application_of_toState {callee : Lifted} {args : List Lifted}
    (h : waits (callee :: args) = false) (hc : callee.ty = .toState) (site : Site) :
    application site callee args = ⟨.state, .wrap site callee.expr (args.map expr)⟩ := by
  simp [application, h, hc]

theorem application_of_ne {callee : Lifted} {args : List Lifted}
    (h : waits (callee :: args) = false) (hc : callee.ty ≠ .toState) (site : Site) :
    application site callee args =
      ⟨callee.ty.returns, .call site callee.expr (args.map expr)⟩ := by
  simp [application, h, hc]

theorem namedMember_of_ne {site : Site} {o : Lifted} {p : Expr} (h : o.ty ≠ .state) :
    namedMember site o p = ⟨.value, .member site o.expr p false⟩ :=
  operation_of_not_waits (waits_eq_false_iff.2 (by simpa using h)) _ _ _

/-- A branch of a conditional of type `ty`. -/
def branch (ty : Ty) (l : Lifted) : Expr := if ty.isState then l.asState else l.expr

theorem branch_of_eq {ty : Ty} (h : ty = .state) (l : Lifted) : branch ty l = l.asState :=
  if_pos (Ty.isState_iff.2 h)

theorem branch_of_ne {ty : Ty} (h : ty ≠ .state) (l : Lifted) : branch ty l = l.expr :=
  if_neg (mt Ty.isState_iff.1 h)

theorem choose_of_eq {test : Lifted} (h : test.ty = .state) (site : Site) (ty : Ty)
    (c a : Lifted) :
    choose site ty test c a =
      depend site.span false (.choice (.synthetic site.span))
        [test.expr, delayed (branch ty c), delayed (branch ty a)] := by
  simp [choose, h, Ty.isState, branch]

theorem choose_of_ne {test : Lifted} (h : test.ty ≠ .state) (site : Site) (ty : Ty)
    (c a : Lifted) :
    choose site ty test c a = ⟨ty, .conditional site test.expr (branch ty c) (branch ty a)⟩ := by
  simp [choose, h, Ty.isState_iff, branch]

end Lifted

/-! ### The rules -/

/-- Whether an expression is a literal or a name. -/
def Expr.isLeaf : Expr → Bool
  | number .. | string .. | bool .. | null _ | undefined _ | ident .. => true
  | _ => false

/-- Two parameters that differ in their defaults only, which a relation joins. -/
inductive Param.Lifts (R : Expr → Lifted → Prop) : Param → Param → Prop
  | required {name : String} {span : Span} :
    Param.Lifts R (.required name span) (.required name span)
  | optional {name : String} {span : Span} {e : Expr} {l : Lifted} (he : R e l) :
      Param.Lifts R (.optional name span e) (.optional name span l.expr)

/-- The defaults of such parameters are joined by the relation too. -/
theorem Param.Lifts.defaults {R : Expr → Lifted → Prop} {ps qs : List Param}
    (h : List.Forall₂ (Param.Lifts R) ps qs) :
    ∃ ls, List.Forall₂ R (ps.filterMap Param.default?) ls ∧
      qs.filterMap Param.default? = ls.map Lifted.expr := by
  induction h with
  | nil => exact ⟨[], .nil, rfl⟩
  | cons hp _ ih =>
    obtain ⟨ls, hls, heq⟩ := ih
    cases hp with
    | required => exact ⟨ls, hls, heq⟩
    | @optional _ _ _ l he =>
      refine ⟨l :: ls, .cons he hls, ?_⟩
      rw [List.map_cons, ← heq]
      rfl

/-- What lifting makes of a tree in lambda form. -/
inductive Lifts (ns : String) : Expr → Lifted → Prop
  /-- Literals and names are plain values. -/
  | leaf {e : Expr} (h : e.isLeaf = true) : Lifts ns e ⟨.value, e⟩
  | unary {site : Site} {op : UnaryOp} {e : Expr} {l : Lifted} (he : Lifts ns e l) :
      Lifts ns (.unary site op e)
        (.operation site.span op.operatorName [l] (.unary site op l.expr))
  | binary {site : Site} {op : BinaryOp} {a b : Expr} {l r : Lifted} (ha : Lifts ns a l)
      (hb : Lifts ns b r) :
      Lifts ns (.binary site op a b)
        (.operation site.span op.symbol [l, r] (.binary site op l.expr r.expr))
  | logical {site : Site} {op : LogicalOp} {a b : Expr} {l r : Lifted} (ha : Lifts ns a l)
      (hb : Lifts ns b r) :
      Lifts ns (.logical site op a b)
        (.operation site.span op.symbol [l, r] (.logical site op l.expr r.expr))
  | call {site : Site} {f : Expr} {args : List Expr} {l : Lifted} {ls : List Lifted}
      (hf : Lifts ns f l) (hargs : List.Forall₂ (Lifts ns) args ls) :
      Lifts ns (.call site f args) (.application site l ls)
  | conditional {site : Site} {t c a : Expr} {lt lc la : Lifted} {ty : Ty} (ht : Lifts ns t lt)
      (hc : Lifts ns c lc) (ha : Lifts ns a la)
      (hty : Lifted.branchTy site.span lc la = .ok ty) :
      Lifts ns (.conditional site t c a) (.choose site ty lt lc la)
  | array {site : Site} {es : List Expr} {ls : List Lifted}
      (hes : List.Forall₂ (Lifts ns) es ls) :
      Lifts ns (.array site es)
        (.operation site.span arrayOperator ls (.array site (ls.map Lifted.expr)))
  | named {site : Site} {o p : Expr} {l : Lifted} (ho : Lifts ns o l) :
      Lifts ns (.member site o p false) (.namedMember site l p)
  /-- The variable of a delta expression. -/
  | var {site os ps : Site} {name : String} :
      Lifts ns (.member site (.ident os ns) (.ident ps name) true)
        ⟨.toState, .ident ⟨site.id, ps.span⟩ name⟩
  /-- The property of a delta expression. -/
  | hop {site os hs ps : Site} {inner : Expr} {name : String} {l : Lifted}
      (ho : Lifts ns inner l) :
      Lifts ns (.member site (.member os inner (.ident hs ns) false) (.ident ps name) true)
        ⟨.toState, (Lifted.namedMember site l (.ident ps name)).expr⟩
  | computed {site : Site} {o p : Expr} {l r : Lifted} (hd : Expr.deltaOf? ns o p = none)
      (ho : Lifts ns o l) (hp : Lifts ns p r) :
      Lifts ns (.member site o p true) (.computedMember site l r)
  | function {site : Site} {name : Option String} {ps qs : List Param} {body : Expr}
      {arrow : Bool} {l : Lifted} (hps : List.Forall₂ (Param.Lifts (Lifts ns)) ps qs)
      (hbody : Lifts ns body l) :
      Lifts ns (.function site name ps body arrow)
        ⟨if l.ty.isState then .toState else .valueToValue, .function site name qs l.expr arrow⟩

variable {ns : String}

/-- **Induction along the rules.** What holds of a node whenever it holds of its operands holds of
every lifted tree. -/
theorem Lifts.induction {P : ∀ (e : Expr) (l : Lifted), Lifts ns e l → Prop}
    (leaf : ∀ {e : Expr} (h : e.isLeaf = true), P e _ (.leaf h))
    (unary : ∀ {site : Site} {op : UnaryOp} {e : Expr} {l : Lifted} (he : Lifts ns e l), P e l he →
      P (.unary site op e) _ (.unary he))
    (binary : ∀ {site : Site} {op : BinaryOp} {a b : Expr} {l r : Lifted} (ha : Lifts ns a l)
      (hb : Lifts ns b r), P a l ha → P b r hb → P (.binary site op a b) _ (.binary ha hb))
    (logical : ∀ {site : Site} {op : LogicalOp} {a b : Expr} {l r : Lifted} (ha : Lifts ns a l)
      (hb : Lifts ns b r), P a l ha → P b r hb → P (.logical site op a b) _ (.logical ha hb))
    (call : ∀ {site : Site} {f : Expr} {args : List Expr} {l : Lifted} {ls : List Lifted}
      (hf : Lifts ns f l) (hargs : List.Forall₂ (Lifts ns) args ls), P f l hf →
      List.Forall₂ (fun e l => ∃ h, P e l h) args ls → P (.call site f args) _ (.call hf hargs))
    (conditional : ∀ {site : Site} {t c a : Expr} {lt lc la : Lifted} {ty : Ty}
      (ht : Lifts ns t lt) (hc : Lifts ns c lc) (ha : Lifts ns a la)
      (hty : Lifted.branchTy site.span lc la = .ok ty), P t lt ht → P c lc hc → P a la ha →
      P (.conditional site t c a) _ (.conditional ht hc ha hty))
    (array : ∀ {site : Site} {es : List Expr} {ls : List Lifted}
      (hes : List.Forall₂ (Lifts ns) es ls), List.Forall₂ (fun e l => ∃ h, P e l h) es ls →
      P (.array site es) _ (.array hes))
    (named : ∀ {site : Site} {o p : Expr} {l : Lifted} (ho : Lifts ns o l), P o l ho →
      P (.member site o p false) _ (.named ho))
    (var : ∀ {site os ps : Site} {name : String},
      P (.member site (.ident os ns) (.ident ps name) true) _ .var)
    (hop : ∀ {site os hs ps : Site} {inner : Expr} {name : String} {l : Lifted}
      (ho : Lifts ns inner l), P inner l ho →
      P (.member site (.member os inner (.ident hs ns) false) (.ident ps name) true) _ (.hop ho))
    (computed : ∀ {site : Site} {o p : Expr} {l r : Lifted} (hd : Expr.deltaOf? ns o p = none)
      (ho : Lifts ns o l) (hp : Lifts ns p r), P o l ho → P p r hp →
      P (.member site o p true) _ (.computed hd ho hp))
    (function : ∀ {site : Site} {name : Option String} {ps qs : List Param} {body : Expr}
      {arrow : Bool} {l : Lifted} (hps : List.Forall₂ (Param.Lifts (Lifts ns)) ps qs)
      (hbody : Lifts ns body l), List.Forall₂ (Param.Lifts fun e l => ∃ h, P e l h) ps qs →
      P body l hbody → P (.function site name ps body arrow) _ (.function hps hbody))
    {e : Expr} {l : Lifted} (h : Lifts ns e l) : P e l h :=
  @Lifts.rec ns P (fun es ls _ => List.Forall₂ (fun e l => ∃ h, P e l h) es ls)
    (fun ps qs _ => List.Forall₂ (Param.Lifts fun e l => ∃ h, P e l h) ps qs)
    (fun p q _ => Param.Lifts (fun e l => ∃ h, P e l h) p q)
    leaf unary binary logical call conditional array named var hop computed function
    .nil (fun h _ ih => .cons ⟨h, ih⟩) .nil (fun _ _ => .cons) .required
    (fun h ih => .optional ⟨h, ih⟩) e l h

theorem Lifts.liftList_eq {es : List Expr} {ls : List Lifted}
    (h : List.Forall₂ (fun e l => ∃ _ : Lifts ns e l, e.lift ns = .ok l) es ls) :
    Expr.liftList ns es = .ok ls := by
  induction h with
  | nil => rfl
  | cons he _ ih => rw [Expr.liftList, he.2, ih]; rfl

theorem Lifts.liftParams_eq {ps qs : List Param}
    (h : List.Forall₂ (Param.Lifts fun e l => ∃ _ : Lifts ns e l, e.lift ns = .ok l) ps qs) :
    Expr.liftParams ns ps = .ok qs := by
  induction h with
  | nil => rfl
  | cons hp _ ih =>
    cases hp with
    | required => rw [Expr.liftParams, ih]; rfl
    | optional he => rw [Expr.liftParams, he.2, ih]; rfl

theorem Lifts.lift_eq {e : Expr} {l : Lifted} (h : Lifts ns e l) : e.lift ns = .ok l := by
  induction h using Lifts.induction with
  | @leaf e h => cases e <;> first | rfl | cases h
  | unary _ ih => rw [Expr.lift, ih]; rfl
  | binary _ _ iha ihb => rw [Expr.lift, iha, ihb]; rfl
  | logical _ _ iha ihb => rw [Expr.lift, iha, ihb]; rfl
  | call _ _ ihf ihargs => rw [Expr.lift, ihf, liftList_eq ihargs]; rfl
  | conditional _ _ _ hty iht ihc iha =>
    rw [Expr.lift, ihc, iha, iht]
    simp [bind, Except.bind, hty]
  | array _ ih => rw [Expr.lift, liftList_eq ih]; rfl
  | named _ ih => rw [Expr.lift, ih]; rfl
  | var => simp [Expr.lift]
  | hop _ ih => simp [Expr.lift, ih, bind, Except.bind]
  | computed hd _ _ iho ihp =>
    unfold Expr.lift
    split
    · rename_i hop _ _
      have hns : hop ≠ ns := by rintro rfl; simp [Expr.deltaOf?] at hd
      cases iho
      cases ihp
      rw [if_neg hns]
    · rename_i hop _ _
      have hns : hop ≠ ns := by rintro rfl; simp [Expr.deltaOf?] at hd
      cases ihp
      rw [if_neg hns, iho]
      rfl
    · rw [iho, ihp]
      rfl
  | function _ _ ihps ihbody => rw [Expr.lift, liftParams_eq ihps, ihbody]; rfl

/-! ### Lifting follows the rules -/

theorem Lifts.of_liftList {es : List Expr} {ls : List Lifted}
    (hes : ∀ e ∈ es, ∀ l, e.lift ns = .ok l → Lifts ns e l) (h : Expr.liftList ns es = .ok ls) :
    List.Forall₂ (Lifts ns) es ls := by
  induction es generalizing ls with
  | nil => cases h; exact .nil
  | cons e es ih =>
    rw [Expr.liftList] at h
    obtain ⟨l, he, h⟩ := Except.bind_eq_ok_iff.1 h
    obtain ⟨ls, ht, h⟩ := Except.bind_eq_ok_iff.1 h
    cases h
    exact .cons (hes e List.mem_cons_self l he)
      (ih (fun d hd => hes d (List.mem_cons_of_mem _ hd)) ht)

theorem Lifts.of_liftParams {ps qs : List Param}
    (hps : ∀ n s e, Param.optional n s e ∈ ps → ∀ l, e.lift ns = .ok l → Lifts ns e l)
    (h : Expr.liftParams ns ps = .ok qs) : List.Forall₂ (Param.Lifts (Lifts ns)) ps qs := by
  induction ps generalizing qs with
  | nil => cases h; exact .nil
  | cons p ps ih =>
    have hrest := fun qs => @ih qs fun n s e he => hps n s e (List.mem_cons_of_mem _ he)
    cases p with
    | required name span =>
      rw [Expr.liftParams] at h
      obtain ⟨qs, ht, h⟩ := Except.bind_eq_ok_iff.1 h
      cases h
      exact .cons .required (hrest qs ht)
    | optional name span e =>
      rw [Expr.liftParams] at h
      obtain ⟨l, he, h⟩ := Except.bind_eq_ok_iff.1 h
      obtain ⟨qs, ht, h⟩ := Except.bind_eq_ok_iff.1 h
      cases h
      exact .cons (.optional (hps name span e List.mem_cons_self l he)) (hrest qs ht)

theorem Lifts.of_named {site : Site} {o p : Expr} {l m : Lifted}
    (h : Lifts ns (.member site o p false) m) (ho : o.lift ns = .ok l) : Lifts ns o l := by
  cases h with
  | leaf h => cases h
  | named h =>
    have := h.lift_eq.symm.trans ho
    cases this
    exact h

/-- The object of a delta expression is two steps below it, so the induction hypothesis is used on
the step in between, which is lifted as a property too. -/
theorem Lifts.of_lift_computed {site : Site} {o p : Expr} {l : Lifted}
    (ih : ∀ c ∈ (Expr.member site o p true).children, ∀ l, c.lift ns = .ok l → Lifts ns c l)
    (h : (Expr.member site o p true).lift ns = .ok l) : Lifts ns (.member site o p true) l := by
  have iho := ih o (by simp [Expr.children])
  have ihp := ih p (by simp [Expr.children])
  unfold Expr.lift at h
  split at h
  · split at h
    · rename_i hns
      cases h
      rw [hns]
      exact .var
    · rename_i hns
      cases h
      exact .computed (by simp [Expr.deltaOf?, hns]) (.leaf rfl) (.leaf rfl)
  · split at h
    · rename_i hns
      obtain ⟨l, hinner, h⟩ := Except.bind_eq_ok_iff.1 h
      cases h
      rw [hns]
      exact .hop (of_named (iho _ (by rw [Expr.lift, hinner]; rfl)) hinner)
    · rename_i hns
      obtain ⟨l, hobj, h⟩ := Except.bind_eq_ok_iff.1 h
      cases h
      exact .computed (by simp [Expr.deltaOf?, hns]) (iho l hobj) (.leaf rfl)
  · rename_i hvar hhop
    obtain ⟨l, ho, h⟩ := Except.bind_eq_ok_iff.1 h
    obtain ⟨r, hp, h⟩ := Except.bind_eq_ok_iff.1 h
    cases h
    refine .computed ?_ (iho l ho) (ihp r hp)
    unfold Expr.deltaOf?
    split
    · exact absurd rfl (hvar _ _ _ _ rfl)
    · exact absurd rfl (hhop _ _ _ _ _ _ rfl)
    · rfl

theorem Lifts.of_lift {e : Expr} {l : Lifted} (hform : e.LambdaForm) (h : e.lift ns = .ok l) :
    Lifts ns e l := by
  induction e using Expr.induction_on_children generalizing l with
  | h e ih =>
    have ih : ∀ c ∈ e.children, ∀ l, c.lift ns = .ok l → Lifts ns c l :=
      fun c hc l hl => ih c hc (hform.child hc) hl
    cases e with
    | number | string | bool | null | undefined | ident => cases h; exact .leaf rfl
    | success | wrap | depend | operator | choice => cases hform.here
    | unary _ _ e =>
      rw [Expr.lift] at h
      obtain ⟨l, he, h⟩ := Except.bind_eq_ok_iff.1 h
      cases h
      exact .unary (ih e (by simp [Expr.children]) l he)
    | binary _ _ a b =>
      rw [Expr.lift] at h
      obtain ⟨l, ha, h⟩ := Except.bind_eq_ok_iff.1 h
      obtain ⟨r, hb, h⟩ := Except.bind_eq_ok_iff.1 h
      cases h
      exact .binary (ih a (by simp [Expr.children]) l ha) (ih b (by simp [Expr.children]) r hb)
    | logical _ _ a b =>
      rw [Expr.lift] at h
      obtain ⟨l, ha, h⟩ := Except.bind_eq_ok_iff.1 h
      obtain ⟨r, hb, h⟩ := Except.bind_eq_ok_iff.1 h
      cases h
      exact .logical (ih a (by simp [Expr.children]) l ha) (ih b (by simp [Expr.children]) r hb)
    | call _ f args =>
      rw [Expr.lift] at h
      obtain ⟨l, hf, h⟩ := Except.bind_eq_ok_iff.1 h
      obtain ⟨ls, hargs, h⟩ := Except.bind_eq_ok_iff.1 h
      cases h
      exact .call (ih f (by simp [Expr.children]) l hf)
        (of_liftList (fun e he => ih e (by simp [Expr.children, he])) hargs)
    | conditional _ t c a =>
      rw [Expr.lift] at h
      obtain ⟨lc, hc, h⟩ := Except.bind_eq_ok_iff.1 h
      obtain ⟨la, ha, h⟩ := Except.bind_eq_ok_iff.1 h
      obtain ⟨ty, hty, h⟩ := Except.bind_eq_ok_iff.1 h
      obtain ⟨lt, ht, h⟩ := Except.bind_eq_ok_iff.1 h
      cases h
      exact .conditional (ih t (by simp [Expr.children]) lt ht)
        (ih c (by simp [Expr.children]) lc hc) (ih a (by simp [Expr.children]) la ha) hty
    | array _ es =>
      rw [Expr.lift] at h
      obtain ⟨ls, hes, h⟩ := Except.bind_eq_ok_iff.1 h
      cases h
      exact .array (of_liftList ih hes)
    | member site o p computed =>
      cases computed with
      | false =>
        rw [Expr.lift] at h
        obtain ⟨l, ho, h⟩ := Except.bind_eq_ok_iff.1 h
        cases h
        exact .named (ih o (by simp [Expr.children]) l ho)
      | true => exact of_lift_computed ih h
    | function _ _ ps body _ =>
      rw [Expr.lift] at h
      obtain ⟨qs, hps, h⟩ := Except.bind_eq_ok_iff.1 h
      obtain ⟨l, hbody, h⟩ := Except.bind_eq_ok_iff.1 h
      cases h
      exact .function
        (of_liftParams (fun n s e he => ih e (Expr.mem_children_of_mem_params he)) hps)
        (ih body (by simp [Expr.children]) l hbody)

theorem forall₂_of_mem {α β : Type} {H : α → Prop} {R Q : α → β → Prop} {as : List α} {bs : List β}
    (h : List.Forall₂ (fun a b => ∃ _ : R a b, H a → Q a b) as bs) (hH : ∀ a ∈ as, H a) :
    List.Forall₂ Q as bs := by
  induction h with
  | nil => exact .nil
  | cons hab _ ih =>
    exact .cons (hab.2 (hH _ List.mem_cons_self)) (ih fun a ha => hH a (List.mem_cons_of_mem _ ha))

/-! ### The types of lifted trees -/

/-- The types that lifting gives to trees. -/
def Ty.IsLifted (t : Ty) : Prop := t = .value ∨ t = .state ∨ t = .valueToValue ∨ t = .toState

namespace Lifted

theorem branchTy_isLifted {span : Span} {c a : Lifted} {ty : Ty} (h : branchTy span c a = .ok ty)
    (hc : c.ty.IsLifted) : ty.IsLifted := by
  unfold branchTy at h
  split at h
  · cases h
    exact hc
  · split at h
    · cases h
    · cases h
      unfold Ty.concat
      split <;> simp [Ty.IsLifted]

theorem operation_isLifted {span : Span} {name : String} {os : List Lifted} {plain : Expr} :
    (operation span name os plain).ty.IsLifted := by
  unfold operation
  split <;> simp [depend, Ty.IsLifted]

end Lifted

theorem Lifts.ty_isLifted {e : Expr} {l : Lifted} (h : Lifts ns e l) : l.ty.IsLifted := by
  induction h using Lifts.induction with
  | leaf _ => exact .inl rfl
  | unary | binary | logical | array | named | computed => exact Lifted.operation_isLifted
  | @call site _ _ l ls _ _ ih _ =>
    cases hw : Lifted.waits (l :: ls) with
    | true => rw [Lifted.application_of_waits hw]; exact .inr (.inl rfl)
    | false =>
      by_cases hc : l.ty = .toState
      · rw [Lifted.application_of_toState hw hc]
        exact .inr (.inl rfl)
      · rw [Lifted.application_of_ne hw hc]
        rcases ih with h | h | h | h <;> rw [h] <;>
          simp [Ty.IsLifted, Ty.valueToValue, Ty.toState, Ty.returns]
  | @conditional _ _ _ _ lt _ _ _ _ _ _ hty _ ihc _ =>
    by_cases ht : lt.ty = .state
    · rw [Lifted.choose_of_eq ht]
      exact .inr (.inl rfl)
    · rw [Lifted.choose_of_ne ht]
      exact Lifted.branchTy_isLifted hty ihc
  | var | hop => exact .inr (.inr (.inr rfl))
  | function _ _ _ _ =>
    simp only
    split <;> simp [Ty.IsLifted]

end DeltaForm
