import DeltaForm.Proofs.Lifting.Rules

/-!
# Trees without delta expressions

A tree without delta expressions has no states in it, and lifting leaves it as it is
(`Lifts.eq_untouched`). It can only fail at a conditional of which one branch is a function and the
other is none, so it succeeds if and only if the tree has **even branches** (`Expr.EvenBranches`).
The main statement is `lift_of_deltaFree`.
-/

namespace DeltaForm

/-- A type of trees without states: a plain value or a function from values to values. -/
def Ty.IsPlain (t : Ty) : Prop := t = .value ∨ t = .valueToValue

theorem Ty.IsPlain.ne_state {t : Ty} (h : t.IsPlain) : t ≠ .state := by
  rcases h with rfl | rfl <;> simp [valueToValue]

theorem Ty.IsPlain.ne_toState {t : Ty} (h : t.IsPlain) : t ≠ .toState := by
  rcases h with rfl | rfl <;> simp [valueToValue, toState]

namespace Expr

/-- Whether a tree is a function literal, or a conditional between two such trees. -/
def isFunctionShaped : Expr → Bool
  | function .. => true
  | conditional _ _ c a => c.isFunctionShaped && a.isFunctionShaped
  | _ => false

/-- The type of a tree without delta expressions. -/
def plainTy (e : Expr) : Ty := if e.isFunctionShaped then .valueToValue else .value

/-- Whether both branches of a conditional are functions or none is. -/
def isEven : Expr → Bool
  | conditional _ _ c a => c.isFunctionShaped == a.isFunctionShaped
  | _ => true

/-- Both branches of every conditional of the tree are functions or none is. -/
def EvenBranches (e : Expr) : Prop := e.Everywhere fun s => s.isEven = true

instance (e : Expr) : Decidable e.EvenBranches :=
  inferInstanceAs (Decidable (Everywhere (fun s => s.isEven = true) e))

theorem plainTy_isPlain (e : Expr) : e.plainTy.IsPlain := by
  unfold plainTy
  split
  · exact .inr rfl
  · exact .inl rfl

theorem plainTy_isFunction (e : Expr) : e.plainTy.isFunction = e.isFunctionShaped := by
  unfold plainTy
  cases e.isFunctionShaped <;> rfl

theorem children_of_isLeaf {e : Expr} (h : e.isLeaf = true) : e.children = [] := by
  cases e with
  | number | string | bool | null | undefined | ident => rfl
  | _ => cases h

end Expr

namespace Lifted

/-- A tree without delta expressions, as lifting leaves it. -/
def untouched (e : Expr) : Lifted := ⟨e.plainTy, e⟩

theorem map_untouched (es : List Expr) : (es.map untouched).map expr = es := by
  rw [List.map_map]
  exact List.map_id es

theorem waits_untouched (es : List Expr) : waits (es.map untouched) = false := by
  refine waits_eq_false_iff.2 fun l hl => ?_
  obtain ⟨e, -, rfl⟩ := List.mem_map.1 hl
  exact e.plainTy_isPlain.ne_state

theorem operation_untouched (es : List Expr) (span : Span) (name : String) (plain : Expr) :
    operation span name (es.map untouched) plain = ⟨.value, plain⟩ :=
  operation_of_not_waits (waits_untouched es) span name plain

theorem application_untouched (site : Site) (f : Expr) (args : List Expr) :
    application site (untouched f) (args.map untouched) = ⟨.value, .call site f args⟩ := by
  have hw : waits (untouched f :: args.map untouched) = false := waits_untouched (f :: args)
  have hreturns : (untouched f).ty.returns = .value := by
    rcases f.plainTy_isPlain with h | h <;> rw [untouched, h] <;> rfl
  rw [application_of_ne hw f.plainTy_isPlain.ne_toState, map_untouched, hreturns]
  rfl

theorem branchTy_untouched_of_eq {span : Span} {c a : Expr}
    (h : c.isFunctionShaped = a.isFunctionShaped) :
    branchTy span (untouched c) (untouched a) = .ok c.plainTy := by
  have hty : c.plainTy = a.plainTy := by rw [Expr.plainTy, h, Expr.plainTy]
  rw [branchTy, if_pos (show (untouched c).ty = (untouched a).ty from hty)]
  rfl

theorem eq_of_branchTy_untouched {span : Span} {c a : Expr} {ty : Ty}
    (h : branchTy span (untouched c) (untouched a) = .ok ty) :
    c.isFunctionShaped = a.isFunctionShaped := by
  rw [← c.plainTy_isFunction, ← a.plainTy_isFunction]
  by_cases heq : c.plainTy = a.plainTy
  · rw [heq]
  · -- Types that differ are accepted only if neither is that of a function.
    rw [branchTy, if_neg (show (untouched c).ty ≠ (untouched a).ty from heq)] at h
    split at h
    · cases h
    · rename_i hf
      simp only [untouched, Bool.or_eq_true, not_or, Bool.not_eq_true] at hf
      rw [hf.1, hf.2]

theorem choose_untouched (site : Site) {t c a : Expr}
    (h : c.isFunctionShaped = a.isFunctionShaped) :
    choose site c.plainTy (untouched t) (untouched c) (untouched a) =
      untouched (.conditional site t c a) := by
  have hty : (Expr.conditional site t c a).plainTy = c.plainTy := by
    simp [Expr.plainTy, Expr.isFunctionShaped, ← h]
  rw [choose_of_ne t.plainTy_isPlain.ne_state, branch_of_ne c.plainTy_isPlain.ne_state,
    branch_of_ne c.plainTy_isPlain.ne_state, ← hty]
  rfl

end Lifted

namespace Lifts

variable {ns : String}

/-- Every part of a tree that can be lifted can be lifted. -/
theorem exists_of_mem_children {e c : Expr} {l : Lifted} (h : Lifts ns e l)
    (hc : c ∈ e.children) : ∃ m, Lifts ns c m := by
  have hlist : ∀ {es : List Expr} {ls : List Lifted}, List.Forall₂ (Lifts ns) es ls → c ∈ es →
      ∃ m, Lifts ns c m := by
    intro es ls hes hmem
    induction hes with
    | nil => cases hmem
    | cons he _ ih =>
      rcases List.mem_cons.1 hmem with rfl | hmem
      · exact ⟨_, he⟩
      · exact ih hmem
  cases h with
  | leaf h =>
    rw [Expr.children_of_isLeaf h] at hc
    cases hc
  | unary he => exact hlist (.cons he .nil) hc
  | binary ha hb => exact hlist (.cons ha (.cons hb .nil)) hc
  | logical ha hb => exact hlist (.cons ha (.cons hb .nil)) hc
  | call hf hargs => exact hlist (.cons hf hargs) hc
  | conditional ht hcons halt _ => exact hlist (.cons ht (.cons hcons (.cons halt .nil))) hc
  | array hes => exact hlist hes hc
  | named ho => exact hlist (.cons ho .nil) hc
  | var => exact hlist (.cons (.leaf rfl) (.cons (.leaf rfl) .nil)) hc
  | hop ho => exact hlist (.cons (.named ho) (.cons (.leaf rfl) .nil)) hc
  | computed _ ho hp => exact hlist (.cons ho (.cons hp .nil)) hc
  | function hps hbody =>
    simp only [Expr.children, List.mem_append, List.mem_singleton] at hc
    rcases hc with hc | rfl
    · induction hps with
      | nil => cases hc
      | cons hp _ ih =>
        cases hp with
        | required => exact ih hc
        | optional he =>
          rcases List.mem_cons.1 hc with rfl | hc
          · exact ⟨_, he⟩
          · exact ih hc
    · exact ⟨_, hbody⟩

/-- Only trees in lambda form follow the rules. -/
theorem lambdaForm {e : Expr} {l : Lifted} (h : Lifts ns e l) : e.LambdaForm := by
  induction e using Expr.induction_on_children generalizing l with
  | h e ih =>
    refine ⟨?_, fun c hc => ?_⟩
    · cases h with
      | leaf h =>
        cases e with
        | number | string | bool | null | undefined | ident => rfl
        | _ => cases h
      | _ => rfl
    · obtain ⟨m, hm⟩ := h.exists_of_mem_children hc
      exact ih c hc hm

theorem forall₂_untouched {es : List Expr} (h : ∀ e ∈ es, Lifts ns e (.untouched e)) :
    List.Forall₂ (Lifts ns) es (es.map Lifted.untouched) := by
  induction es with
  | nil => exact .nil
  | cons e es ih =>
    rw [List.forall_mem_cons] at h
    exact .cons h.1 (ih h.2)

theorem params_untouched {ps : List Param}
    (h : ∀ n s e, Param.optional n s e ∈ ps → Lifts ns e (.untouched e)) :
    List.Forall₂ (Param.Lifts (Lifts ns)) ps ps := by
  induction ps with
  | nil => exact .nil
  | cons p ps ih =>
    refine .cons ?_ (ih fun n s e he => h n s e (List.mem_cons_of_mem _ he))
    cases p with
    | required => exact .required
    | optional n s e => exact .optional (h n s e List.mem_cons_self)

/-- **Lifting succeeds on a tree without delta expressions if its branches are even.** -/
theorem of_evenBranches {e : Expr} (hform : e.LambdaForm) (hd : e.DeltaFree ns)
    (hb : e.EvenBranches) : Lifts ns e (.untouched e) := by
  induction e using Expr.induction_on_children with
  | h e ih =>
    have ih : ∀ c ∈ e.children, Lifts ns c (.untouched c) :=
      fun c hc => ih c hc (hform.child hc) (hd.child hc) (hb.child hc)
    cases e with
    | number | string | bool | null | undefined | ident => exact .leaf rfl
    | success | wrap | depend | operator | choice => cases hform.here
    | unary site op e =>
      have h : Lifts ns (.unary site op e) _ := .unary (ih e (by simp [Expr.children]))
      rwa [show [Lifted.untouched e] = [e].map Lifted.untouched from rfl,
        Lifted.operation_untouched] at h
    | binary site op a b =>
      have h : Lifts ns (.binary site op a b) _ :=
        .binary (ih a (by simp [Expr.children])) (ih b (by simp [Expr.children]))
      rwa [show [Lifted.untouched a, Lifted.untouched b] = [a, b].map Lifted.untouched from rfl,
        Lifted.operation_untouched] at h
    | logical site op a b =>
      have h : Lifts ns (.logical site op a b) _ :=
        .logical (ih a (by simp [Expr.children])) (ih b (by simp [Expr.children]))
      rwa [show [Lifted.untouched a, Lifted.untouched b] = [a, b].map Lifted.untouched from rfl,
        Lifted.operation_untouched] at h
    | call site f args =>
      have hargs : ∀ e ∈ args, Lifts ns e (.untouched e) :=
        fun e he => ih e (by simp [Expr.children, he])
      have h : Lifts ns (.call site f args) _ :=
        .call (ih f (by simp [Expr.children])) (forall₂_untouched hargs)
      rwa [Lifted.application_untouched] at h
    | conditional site t c a =>
      have heq : c.isFunctionShaped = a.isFunctionShaped := by simpa [Expr.isEven] using hb.here
      have h : Lifts ns (.conditional site t c a) _ :=
        .conditional (ih t (by simp [Expr.children])) (ih c (by simp [Expr.children]))
          (ih a (by simp [Expr.children])) (Lifted.branchTy_untouched_of_eq heq)
      rwa [Lifted.choose_untouched site heq] at h
    | array site es =>
      have h : Lifts ns (.array site es) _ := .array (forall₂_untouched ih)
      rwa [Lifted.operation_untouched, Lifted.map_untouched] at h
    | member site o p computed =>
      cases computed with
      | false =>
        have h : Lifts ns (.member site o p false) _ := .named (ih o (by simp [Expr.children]))
        rwa [Lifted.namedMember_of_ne o.plainTy_isPlain.ne_state] at h
      | true =>
        have hnone : Expr.deltaOf? ns o p = none := by simpa [Expr.stripDelta?] using hd.here
        have h : Lifts ns (.member site o p true) _ :=
          .computed hnone (ih o (by simp [Expr.children])) (ih p (by simp [Expr.children]))
        rwa [Lifted.computedMember, show [Lifted.untouched o, Lifted.untouched p] =
          [o, p].map Lifted.untouched from rfl, Lifted.operation_untouched] at h
    | function site name ps body arrow =>
      have h : Lifts ns (.function site name ps body arrow) _ :=
        .function (params_untouched fun n s e he => ih e (Expr.mem_children_of_mem_params he))
          (ih body (by simp [Expr.children]))
      have hs : ¬ (Lifted.untouched body).ty.isState = true :=
        fun hs => body.plainTy_isPlain.ne_state (Ty.isState_iff.1 hs)
      rwa [if_neg hs] at h

/-- **Lifting succeeds on a tree without delta expressions only if its branches are even.** -/
theorem evenBranches {e : Expr} {l : Lifted} (h : Lifts ns e l) (hd : e.DeltaFree ns) :
    e.EvenBranches := by
  induction e using Expr.induction_on_children generalizing l with
  | h e ih =>
    have ih : ∀ c ∈ e.children, c.EvenBranches := by
      intro c hc
      obtain ⟨m, hm⟩ := h.exists_of_mem_children hc
      exact ih c hc hm (hd.child hc)
    have hform := h.lambdaForm
    refine ⟨?_, ih⟩
    cases e with
    | conditional site t c a =>
      cases h with
      | leaf h => cases h
      | conditional _ hc ha hty =>
        -- Even branches below fix what lifting makes of the two branches.
        have hmem : c ∈ (Expr.conditional site t c a).children ∧
            a ∈ (Expr.conditional site t c a).children := by simp [Expr.children]
        have hc' := of_evenBranches (hform.child hmem.1) (hd.child hmem.1) (ih c hmem.1)
        have ha' := of_evenBranches (hform.child hmem.2) (hd.child hmem.2) (ih a hmem.2)
        cases hc.lift_eq.symm.trans hc'.lift_eq
        cases ha.lift_eq.symm.trans ha'.lift_eq
        exact beq_iff_eq.2 (Lifted.eq_of_branchTy_untouched hty)
    | _ => rfl

/-- **Lifting leaves a tree without delta expressions as it is.** -/
theorem eq_untouched {e : Expr} {l : Lifted} (h : Lifts ns e l) (hd : e.DeltaFree ns) :
    l = .untouched e := by
  have hu := of_evenBranches h.lambdaForm hd (h.evenBranches hd)
  cases h.lift_eq.symm.trans hu.lift_eq
  rfl

end Lifts

/-- **A tree without delta expressions is left as it is,** with the type of a plain value or of a
function from values to values, if its branches are even; else it cannot be lifted. -/
theorem lift_of_deltaFree {ns : String} {e : Expr} (hform : e.LambdaForm) (hd : e.DeltaFree ns) :
    (e.EvenBranches → e.plainTy.IsPlain ∧ e.lift ns = .ok ⟨e.plainTy, e⟩) ∧
      (¬ e.EvenBranches → ∃ u, e.lift ns = .error u) := by
  constructor
  · intro hb
    exact ⟨e.plainTy_isPlain, (Lifts.of_evenBranches hform hd hb).lift_eq⟩
  · intro hb
    cases h : e.lift ns with
    | error u => exact ⟨u, rfl⟩
    | ok l => exact absurd ((Lifts.of_lift hform h).evenBranches hd) hb

namespace Sample

/-- A numbered place for the nodes of sample trees. -/
def siteAt (n : Nat) : Site := ⟨some n, ⟨n, n + 1⟩⟩

/-- `(x ? a => a : (b = x.y) => b)(x)`. -/
def chosenCall : Expr :=
  .call (siteAt 9)
    (.conditional (siteAt 7) (.ident (siteAt 0) "x")
      (.function (siteAt 2) none [.required "a" ⟨1, 2⟩] (.ident (siteAt 1) "a") true)
      (.function (siteAt 6) none [.optional "b" ⟨3, 4⟩
          (.member (siteAt 4) (.ident (siteAt 3) "x") (.ident (siteAt 4) "y") false)]
        (.ident (siteAt 5) "b") true))
    [.ident (siteAt 8) "x"]

end Sample

/-- A call of one of two functions keeps all its nodes. -/
theorem lift_chosenCall :
    Sample.chosenCall.LambdaForm ∧ Sample.chosenCall.DeltaFree "δ" ∧
      Sample.chosenCall.EvenBranches ∧
      Sample.chosenCall.lift "δ" = .ok ⟨.value, Sample.chosenCall⟩ := by
  have hform : Sample.chosenCall.LambdaForm := by decide
  have hd : Sample.chosenCall.DeltaFree "δ" := by decide
  have hb : Sample.chosenCall.EvenBranches := by decide
  exact ⟨hform, hd, hb, ((lift_of_deltaFree hform hd).1 hb).2⟩

end DeltaForm
