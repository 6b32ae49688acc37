import DeltaForm.Expr.Free
import DeltaForm.Proofs.Lifting.Rules

/-!
# Names that are read

There are two notions of scope. Free names are collected under the lexical one: a function binds its
own name and all its parameters in its defaults and its body (`Expr.OccursFree`). Evaluation binds
the parameters one after another, so that a default sees the parameters before it only
(`Expr.Reads`). A name that is read without occurring free is read **early**: by the default of a
parameter, before the function has bound it (`Expr.ReadsEarly`).

Both notions go by the parts of a node (`Expr.OfParts`), so one set of lemmas says what lifting does
to them. It adds no names that are read (`Lifts.reads`).
-/

namespace DeltaForm

namespace Expr

/-- The names that a node binds in its parts. -/
def binds : Expr → List String
  | function _ name ps _ _ => boundNames name ps
  | _ => []

/-- Whether a node is a function literal. -/
def isFunction : Expr → Bool
  | function .. => true
  | _ => false

/-- `s` is the tree itself or stands below it. -/
inductive IsPartOf (s : Expr) : Expr → Prop
  | refl : IsPartOf s s
  | child {e c : Expr} (hc : c ∈ e.children) (h : IsPartOf s c) : IsPartOf s e

/-- The name has an occurrence as a variable that no function around it binds. -/
inductive OccursFree (x : String) : Expr → Prop
  | ident {site : Site} : OccursFree x (.ident site x)
  | child {e c : Expr} (hc : c ∈ e.children) (hx : x ∉ e.binds) (h : OccursFree x c) :
    OccursFree x e

/-- Evaluation of the tree may look the name up in the environment it starts with. -/
inductive Reads (x : String) : Expr → Prop
  | ident {site : Site} : Reads x (.ident site x)
  | child {e c : Expr} (hc : c ∈ e.children) (hf : e.isFunction = false) (h : Reads x c) : Reads x e
  | default {site : Site} {name : Option String} {before after : List Param} {n : String}
    {span : Span} {d body : Expr} {arrow : Bool} (hx : x ∉ boundNames name before)
    (h : Reads x d) :
    Reads x (.function site name (before ++ .optional n span d :: after) body arrow)
  | body {site : Site} {name : Option String} {ps : List Param} {body : Expr} {arrow : Bool}
    (hx : x ∉ boundNames name ps) (h : Reads x body) : Reads x (.function site name ps body arrow)

/-- The name is read, but only by defaults of parameters of functions that have not bound it yet. -/
def ReadsEarly (x : String) (e : Expr) : Prop := e.Reads x ∧ ¬ e.OccursFree x

theorem occursFree_iff {x : String} {e : Expr} (h : e.ident? = none) :
    e.OccursFree x ↔ (∃ c ∈ e.children, c.OccursFree x) ∧ x ∉ e.binds := by
  constructor
  · intro hx
    cases hx with
    | ident => cases h
    | child hc hb hx => exact ⟨⟨_, hc, hx⟩, hb⟩
  · rintro ⟨⟨c, hc, hx⟩, hb⟩
    exact .child hc hb hx

theorem occursFree_ident {x name : String} {site : Site} :
    (ident site name).OccursFree x ↔ x = name := by
  constructor
  · intro h
    cases h with
    | ident => rfl
    | child hc => cases hc
  · rintro rfl
    exact .ident

/-! ### What evaluation reads -/

/-- Evaluation of the body of a function may look the name up, once the parameters `ps` are bound
one after another. -/
def ReadsUnder (x : String) : List Param → Expr → Prop
  | [], body => body.Reads x
  | p :: ps, body => (∃ d, p.default? = some d ∧ d.Reads x) ∨ x ≠ p.name ∧ ReadsUnder x ps body

theorem readsUnder_iff {x : String} {ps : List Param} {body : Expr} :
    ReadsUnder x ps body ↔
      (∃ before n span d after, ps = before ++ .optional n span d :: after ∧
        x ∉ before.map Param.name ∧ d.Reads x) ∨ x ∉ ps.map Param.name ∧ body.Reads x := by
  induction ps with
  | nil => simp [ReadsUnder]
  | cons p ps ih =>
    rw [ReadsUnder, ih]
    constructor
    · rintro (⟨d, hp, hd⟩ | ⟨hx, ⟨before, n, span, d, after, rfl, hb, hd⟩ | ⟨hps, hbody⟩⟩)
      · cases p with
        | required => cases hp
        | optional n span d =>
          cases hp
          exact .inl ⟨[], n, span, _, ps, rfl, by simp, hd⟩
      · exact .inl ⟨p :: before, n, span, d, after, rfl, by simp_all, hd⟩
      · exact .inr ⟨by simp_all, hbody⟩
    · rintro (⟨before, n, span, d, after, heq, hb, hd⟩ | ⟨hps, hbody⟩)
      · cases before with
        | nil =>
          cases heq
          exact .inl ⟨d, rfl, hd⟩
        | cons q before =>
          cases heq
          rw [List.map_cons, List.mem_cons, not_or] at hb
          exact .inr ⟨hb.1, .inl ⟨before, n, span, d, after, rfl, hb.2, hd⟩⟩
      · rw [List.map_cons, List.mem_cons, not_or] at hps
        exact .inr ⟨hps.1, .inr ⟨hps.2, hbody⟩⟩

theorem mem_boundNames {x : String} {name : Option String} {ps : List Param} :
    x ∈ boundNames name ps ↔ name = some x ∨ x ∈ ps.map Param.name := by
  rw [boundNames, List.mem_append, Option.mem_toList]

theorem reads_function_iff {x : String} {site : Site} {name : Option String} {ps : List Param}
    {body : Expr} {arrow : Bool} :
    (function site name ps body arrow).Reads x ↔ name ≠ some x ∧ ReadsUnder x ps body := by
  rw [readsUnder_iff]
  constructor
  · intro h
    cases h with
    | child _ hf => cases hf
    | default hx h =>
      rw [mem_boundNames, not_or] at hx
      exact ⟨hx.1, .inl ⟨_, _, _, _, _, rfl, hx.2, h⟩⟩
    | body hx h =>
      rw [mem_boundNames, not_or] at hx
      exact ⟨hx.1, .inr ⟨hx.2, h⟩⟩
  · rintro ⟨hname, ⟨before, n, span, d, after, rfl, hb, hd⟩ | ⟨hps, hbody⟩⟩
    · exact .default (by rw [mem_boundNames]; simp_all) hd
    · exact .body (by rw [mem_boundNames]; simp_all) hbody

theorem reads_ident {x name : String} {site : Site} : (ident site name).Reads x ↔ x = name := by
  constructor
  · intro h
    cases h with
    | ident => rfl
    | child hc => cases hc
  · rintro rfl
    exact .ident

theorem reads_iff {x : String} {e : Expr} (hident : e.ident? = none) (hf : e.isFunction = false) :
    e.Reads x ↔ ∃ c ∈ e.children, c.Reads x := by
  constructor
  · intro h
    cases h with
    | ident => cases hident
    | child hc _ h => exact ⟨_, hc, h⟩
    | default | body => cases hf
  · rintro ⟨c, hc, h⟩
    exact .child hc hf h

/-- **Only a default reads a name early:** that of a parameter of this name or before it. -/
theorem ReadsEarly.exists_default {x : String} {e : Expr} (h : e.ReadsEarly x) :
    ∃ site name before n span d after body arrow,
      (function site name (before ++ .optional n span d :: after) body arrow).IsPartOf e ∧
        x ∈ n :: after.map Param.name ∧ x ∉ boundNames name before ∧ d.Reads x := by
  obtain ⟨hr, hfree⟩ := h
  induction hr with
  | ident => exact absurd .ident hfree
  | @child e c hc hf _ ih =>
    have hb : e.binds = [] := by cases e <;> first | rfl | cases hf
    have hx : x ∉ e.binds := by simp [hb]
    obtain ⟨_, _, _, _, _, _, _, _, _, hpart, hd⟩ := ih fun h => hfree (.child hc hx h)
    exact ⟨_, _, _, _, _, _, _, _, _, .child hc hpart, hd⟩
  | @default site name before after n span d body arrow hx hd ih =>
    by_cases hafter : x ∈ n :: after.map Param.name
    · exact ⟨_, _, _, _, _, _, _, _, _, .refl, hafter, hx, hd⟩
    · have hc :
          d ∈ (function site name (before ++ .optional n span d :: after) body arrow).children :=
        mem_children_of_mem_params (List.mem_append_right _ List.mem_cons_self)
      have hb : x ∉ boundNames name (before ++ .optional n span d :: after) := by
        rw [mem_boundNames] at hx ⊢
        simp_all [Param.name]
      obtain ⟨_, _, _, _, _, _, _, _, _, hpart, hd⟩ := ih fun h => hfree (.child hc hb h)
      exact ⟨_, _, _, _, _, _, _, _, _, .child hc hpart, hd⟩
  | @body site name ps body arrow hx h ih =>
    have hc : body ∈ (function site name ps body arrow).children := by simp [children]
    obtain ⟨_, _, _, _, _, _, _, _, _, hpart, hd⟩ := ih fun h => hfree (.child hc hx h)
    exact ⟨_, _, _, _, _, _, _, _, _, .child hc hpart, hd⟩

end Expr

/-! ### Lifting -/

namespace Expr

/-- `Q` goes by the parts of a node: it holds of a node, names and functions apart, if it holds of
one of its parts, and of a function that binds nothing if it holds of its body. -/
structure OfParts (Q : Expr → Prop) : Prop where
  node : ∀ {e : Expr}, e.ident? = none → e.isFunction = false → (Q e ↔ ∃ c ∈ e.children, Q c)
  thunk : ∀ {site : Site} {body : Expr} {arrow : Bool},
    Q (.function site none [] body arrow) ↔ Q body

theorem ofParts_reads (x : String) : OfParts (Reads x) where
  node := reads_iff
  thunk := by simp [reads_function_iff, ReadsUnder]

theorem ofParts_occursFree (x : String) : OfParts (OccursFree x) where
  node {e} hident hf := by
    have hb : e.binds = [] := by cases e <;> first | rfl | cases hf
    rw [occursFree_iff hident, hb]
    exact and_iff_left List.not_mem_nil
  thunk {site body arrow} := by
    rw [occursFree_iff rfl]
    simp [children, binds, boundNames]

namespace OfParts

variable {Q : Expr → Prop} (hQ : OfParts Q)

include hQ

theorem asState {l : Lifted} : Q l.asState ↔ Q l.expr := by
  by_cases hs : l.ty = .state
  · rw [Lifted.asState_of_eq hs]
  · rw [Lifted.asState_of_ne hs, hQ.node rfl rfl]
    simp [children]

theorem depend {span : Span} {lifted : Bool} {callee : Expr} {args : List Expr} :
    Q (Lifted.depend span lifted callee args).expr ↔ Q callee ∨ ∃ a ∈ args, Q a := by
  rw [Lifted.depend, hQ.node rfl rfl]
  simp [children]

theorem not_leaf {e : Expr} (hident : e.ident? = none) (hf : e.isFunction = false)
    (hc : e.children = []) : ¬ Q e := by
  rw [hQ.node hident hf, hc]
  simp

theorem map_asState {os : List Lifted} :
    (∃ e ∈ os.map Lifted.asState, Q e) ↔ ∃ o ∈ os, Q o.expr := by
  simp [hQ.asState]

theorem operation {span : Span} {name : String} {os : List Lifted} {plain : Expr}
    (hplain : Q plain ↔ ∃ o ∈ os, Q o.expr) :
    Q (Lifted.operation span name os plain).expr ↔ ∃ o ∈ os, Q o.expr := by
  cases hw : Lifted.waits os with
  | true =>
    rw [Lifted.operation_of_waits hw, hQ.depend, or_iff_right (hQ.not_leaf rfl rfl rfl),
      hQ.map_asState]
  | false => rw [Lifted.operation_of_not_waits hw, hplain]

/-- An operation whose plain form has the operands as its parts. -/
theorem operation_of_children {span : Span} {name : String} {os : List Lifted} {plain : Expr}
    (hident : plain.ident? = none) (hf : plain.isFunction = false)
    (hc : plain.children = os.map Lifted.expr) :
    Q (Lifted.operation span name os plain).expr ↔ ∃ o ∈ os, Q o.expr := by
  refine hQ.operation ?_
  rw [hQ.node hident hf, hc]
  simp

theorem application {site : Site} {callee : Lifted} {args : List Lifted} :
    Q (Lifted.application site callee args).expr ↔ ∃ o ∈ callee :: args, Q o.expr := by
  cases hw : Lifted.waits (callee :: args) with
  | true =>
    rw [Lifted.application_of_waits hw, hQ.depend, hQ.asState, hQ.map_asState,
      List.exists_mem_cons_iff]
  | false =>
    by_cases hc : callee.ty = .toState
    · rw [Lifted.application_of_toState hw hc, hQ.node rfl rfl]
      simp [children]
    · rw [Lifted.application_of_ne hw hc, hQ.node rfl rfl]
      simp [children]

theorem delayed {body : Expr} : Q (Lifted.delayed body) ↔ Q body := by
  rw [Lifted.delayed, hQ.node rfl rfl]
  simp [children, hQ.thunk]

theorem branch {ty : Ty} {l : Lifted} : Q (Lifted.branch ty l) ↔ Q l.expr := by
  by_cases hs : ty = .state
  · rw [Lifted.branch_of_eq hs, hQ.asState]
  · rw [Lifted.branch_of_ne hs]

theorem choose {site : Site} {ty : Ty} {t c a : Lifted} :
    Q (Lifted.choose site ty t c a).expr ↔ ∃ o ∈ [t, c, a], Q o.expr := by
  by_cases ht : t.ty = .state
  · rw [Lifted.choose_of_eq ht, hQ.depend, or_iff_right (hQ.not_leaf rfl rfl rfl)]
    simp [hQ.delayed, hQ.branch]
  · rw [Lifted.choose_of_ne ht, hQ.node rfl rfl]
    simp [children, hQ.branch]

theorem namedMember {site : Site} {object : Lifted} {p : Expr} :
    Q (Lifted.namedMember site object p).expr ↔ Q object.expr := by
  have hkey : ¬ Q (.string (.synthetic p.span) (p.ident?.getD "")) := hQ.not_leaf rfl rfl rfl
  rw [Lifted.namedMember, hQ.operation]
  · simp [hkey]
  · rw [hQ.node rfl rfl]
    simp [children, hkey]

end OfParts

end Expr

variable {ns x : String}

theorem exists_reads_of_forall₂ {es : List Expr} {ls : List Lifted}
    (h : List.Forall₂ (fun e l => ∃ _ : Lifts ns e l, l.expr.Reads x → e.Reads x) es ls)
    (hx : ∃ l ∈ ls, l.expr.Reads x) : ∃ e ∈ es, e.Reads x := by
  induction h with
  | nil => simp at hx
  | cons he _ ih =>
    rw [List.exists_mem_cons_iff] at hx ⊢
    exact hx.imp he.2 ih

theorem readsUnder_of_forall₂ {ps qs : List Param} {body body' : Expr}
    (h : List.Forall₂ (Param.Lifts fun e l => ∃ _ : Lifts ns e l, l.expr.Reads x → e.Reads x) ps qs)
    (hbody : body'.Reads x → body.Reads x) (hx : Expr.ReadsUnder x qs body') :
    Expr.ReadsUnder x ps body := by
  induction h with
  | nil => exact hbody hx
  | cons hp _ ih =>
    rcases hx with ⟨d, hd, hx⟩ | ⟨hne, hx⟩
    · cases hp with
      | required => cases hd
      | optional he =>
        cases hd
        exact .inl ⟨_, rfl, he.2 hx⟩
    · cases hp with
      | required => exact .inr ⟨hne, ih hx⟩
      | optional => exact .inr ⟨hne, ih hx⟩

/-- **Lifting adds no names that are read.** -/
theorem Lifts.reads {e : Expr} {l : Lifted} (h : Lifts ns e l) (hx : l.expr.Reads x) :
    e.Reads x := by
  have hQ := Expr.ofParts_reads x
  induction h using Lifts.induction with
  | leaf => exact hx
  | unary he ih =>
    obtain ⟨c, hc, hx⟩ := exists_reads_of_forall₂ (.cons ⟨he, ih⟩ .nil)
      ((hQ.operation_of_children rfl rfl rfl).1 hx)
    exact .child hc rfl hx
  | binary ha hb iha ihb | logical ha hb iha ihb =>
    obtain ⟨c, hc, hx⟩ := exists_reads_of_forall₂ (.cons ⟨ha, iha⟩ (.cons ⟨hb, ihb⟩ .nil))
      ((hQ.operation_of_children rfl rfl rfl).1 hx)
    exact .child hc rfl hx
  | call hf _ ihf ihargs =>
    obtain ⟨c, hc, hx⟩ :=
      exists_reads_of_forall₂ (.cons ⟨hf, ihf⟩ ihargs) (hQ.application.1 hx)
    exact .child hc rfl hx
  | array _ ih =>
    obtain ⟨c, hc, hx⟩ := exists_reads_of_forall₂ ih
      ((hQ.operation_of_children rfl rfl rfl).1 hx)
    exact .child hc rfl hx
  | named ho ih =>
    exact .child (by simp [Expr.children]) rfl (ih (hQ.namedMember.1 hx))
  | computed _ ho hp iho ihp =>
    obtain ⟨c, hc, hx⟩ := exists_reads_of_forall₂ (.cons ⟨ho, iho⟩ (.cons ⟨hp, ihp⟩ .nil))
      ((hQ.operation_of_children rfl rfl rfl).1 hx)
    exact .child hc rfl hx
  | @var _ os ps name =>
    cases hx with
    | ident => exact .child (.tail _ (.head _)) rfl .ident
    | child hc => cases hc
  | hop ho ih =>
    have hx := ih (hQ.namedMember.1 hx)
    exact .child (.head _) rfl (.child (by simp [Expr.children]) rfl hx)
  | conditional ht hc ha hty iht ihc iha =>
    obtain ⟨c, hc, hx⟩ := exists_reads_of_forall₂
      (.cons ⟨ht, iht⟩ (.cons ⟨hc, ihc⟩ (.cons ⟨ha, iha⟩ .nil))) (hQ.choose.1 hx)
    exact .child hc rfl hx
  | function _ _ ihps ihbody =>
    rw [Expr.reads_function_iff] at hx ⊢
    exact ⟨hx.1, readsUnder_of_forall₂ ihps ihbody hx.2⟩

end DeltaForm
