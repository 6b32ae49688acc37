import DeltaForm.Proofs.Lifting.Shape
import DeltaForm.Proofs.Operators

/-!
# What waiting calls wait for

A waiting call has its callee and its operands resolved before it is made, so all of them should be
states; only an operator of the runtime and its conditional combinator are called as they are. In a
lifted tree every waiting call **awaits states** in this sense (`Lifts.awaitsStates`), and a tree
with the state type builds a state whenever it yields a value (`ends_eval_isState`). The main
statement, `states_of_lift`, joins the two.
-/

namespace DeltaForm

namespace Expr

/-- Whether a waiting call may have the tree as its callee: an operator that the runtime knows, its
conditional combinator, or a tree that builds a state. -/
def isAwaitable : Expr → Bool
  | operator _ name => (Native.ofOperator? name).isSome
  | choice _ => true
  | e => e.isStateShaped

/-- Whether a node, if it is a waiting call, has states as its operands and a callee that it may
have. -/
def awaitsStates : Expr → Bool
  | depend _ _ f args => f.isAwaitable && args.all isStateShaped
  | _ => true

/-- Every waiting call in the tree waits for states. -/
def AwaitsStates (e : Expr) : Prop := e.Everywhere fun s => s.awaitsStates = true

instance (e : Expr) : Decidable e.AwaitsStates :=
  inferInstanceAs (Decidable (Everywhere (fun s => s.awaitsStates = true) e))

theorem isAwaitable_of_isStateShaped {e : Expr} (h : e.isStateShaped = true) :
    e.isAwaitable = true := by
  cases e with
  | operator => cases h
  | choice => rfl
  | _ => exact h

theorem AwaitsStates.depend {site : Site} {lifted : Bool} {f : Expr} {args : List Expr}
    (hcallee : f.isAwaitable = true) (hf : f.AwaitsStates)
    (hargs : ∀ a ∈ args, a.isStateShaped = true ∧ a.AwaitsStates) :
    (Expr.depend site lifted f args).AwaitsStates := by
  refine ⟨?_, List.forall_mem_cons.2 ⟨hf, fun a ha => (hargs a ha).2⟩⟩
  simp only [awaitsStates, Bool.and_eq_true, List.all_eq_true]
  exact ⟨hcallee, fun a ha => (hargs a ha).1⟩

end Expr

/-! ### Evaluation of state-shaped trees -/

/-- **A state-shaped tree yields a state.** -/
theorem ends_eval_isState {e : Expr} (h : e.isStateShaped = true) (depth : Nat) (env : Env) :
    Run.Yields (·.isState = true) (eval depth env e) := by
  -- A branch is evaluated one step deeper than its conditional.
  induction depth generalizing e with
  | zero => exact Run.ends_giveUp trivial
  | succ depth ih =>
    cases e with
    | success _ v =>
      refine (Run.yields_true _).bind fun v _ => ?_
      exact Run.ends_fresh fun _ => rfl
    | wrap _ f args | depend _ _ f args =>
      refine (Run.yields_true _).bind fun f _ => (Run.yields_true _).bind fun args _ => ?_
      exact Run.ends_fresh fun _ => rfl
    | conditional _ t c a =>
      simp only [Expr.isStateShaped, Bool.and_eq_true] at h
      refine (Run.yields_true _).bind fun v _ => ?_
      split
      · exact ih h.1
      · exact ih h.2
    | _ => cases h

/-! ### Lifted trees -/

namespace Lifted

/-- A lifted tree in which waiting calls wait for states, and which builds a state if it has the
state type. -/
structure Sound (l : Lifted) : Prop where
  awaits : l.expr.AwaitsStates
  shaped : l.ty = .state → l.expr.isStateShaped = true

variable {l : Lifted} {os : List Lifted}

theorem Sound.asState (h : l.Sound) :
    l.asState.isStateShaped = true ∧ l.asState.AwaitsStates := by
  refine ⟨asState_isStateShaped h.shaped, ?_⟩
  by_cases hs : l.ty = .state
  · rw [asState_of_eq hs]
    exact h.awaits
  · rw [asState_of_ne hs]
    exact ⟨rfl, List.forall_mem_singleton.2 h.awaits⟩

theorem Sound.map_asState (h : ∀ o ∈ os, o.Sound) :
    ∀ a ∈ os.map Lifted.asState, a.isStateShaped = true ∧ a.AwaitsStates :=
  List.forall_mem_map.2 fun o ho => (h o ho).asState

theorem awaitsStates_operation {span : Span} {name : String} {plain : Expr}
    (hname : (Native.ofOperator? name).isSome = true) (hos : ∀ o ∈ os, o.Sound)
    (hnode : plain.awaitsStates = true) (hparts : ∀ c ∈ plain.children, c ∈ os.map expr) :
    (operation span name os plain).expr.AwaitsStates := by
  cases hw : waits os with
  | true =>
    rw [operation_of_waits hw]
    have hoperator : (Expr.operator (.synthetic span) name).AwaitsStates :=
      ⟨rfl, by simp [Expr.children]⟩
    exact .depend hname hoperator (Sound.map_asState hos)
  | false =>
    rw [operation_of_not_waits hw]
    refine ⟨hnode, fun c hc => ?_⟩
    obtain ⟨o, ho, rfl⟩ := List.mem_map.1 (hparts c hc)
    exact (hos o ho).awaits

theorem awaitsStates_namedMember {site : Site} {object : Lifted} {p : Expr} (h : object.Sound) :
    (namedMember site object p).expr.AwaitsStates := by
  have hkey (name : String) : Sound ⟨.value, .string (.synthetic p.span) name⟩ :=
    ⟨⟨rfl, by simp [Expr.children]⟩, by simp⟩
  refine awaitsStates_operation rfl ?_ rfl (by simp [Expr.children])
  exact List.forall_mem_cons.2 ⟨h, List.forall_mem_singleton.2 (hkey _)⟩

theorem awaitsStates_application {site : Site} {args : List Lifted} (hl : l.Sound)
    (hargs : ∀ a ∈ args, a.Sound) : (application site l args).expr.AwaitsStates := by
  have hparts : ∀ c ∈ l.expr :: args.map expr, c.AwaitsStates :=
    List.forall_mem_cons.2 ⟨hl.awaits, List.forall_mem_map.2 fun a ha => (hargs a ha).awaits⟩
  cases hw : waits (l :: args) with
  | true =>
    rw [application_of_waits hw]
    exact .depend (Expr.isAwaitable_of_isStateShaped hl.asState.1) hl.asState.2
      (Sound.map_asState hargs)
  | false =>
    by_cases hc : l.ty = .toState
    · rw [application_of_toState hw hc]
      exact ⟨rfl, hparts⟩
    · rw [application_of_ne hw hc]
      exact ⟨rfl, hparts⟩

theorem Sound.branch (h : l.Sound) (ty : Ty) : (Lifted.branch ty l).AwaitsStates := by
  by_cases hs : ty = .state
  · rw [branch_of_eq hs]
    exact h.asState.2
  · rw [branch_of_ne hs]
    exact h.awaits

theorem awaitsStates_delayed {body : Expr} (h : body.AwaitsStates) :
    (delayed body).AwaitsStates :=
  ⟨rfl, List.forall_mem_singleton.2 ⟨rfl, List.forall_mem_singleton.2 h⟩⟩

theorem awaitsStates_choose {site : Site} {ty : Ty} {t c a : Lifted} (ht : t.Sound) (hc : c.Sound)
    (ha : a.Sound) : (choose site ty t c a).expr.AwaitsStates := by
  by_cases hs : t.ty = .state
  · rw [choose_of_eq hs]
    have hchoice : (Expr.choice (.synthetic site.span)).AwaitsStates :=
      ⟨rfl, by simp [Expr.children]⟩
    refine .depend rfl hchoice ?_
    rw [List.forall_mem_cons, List.forall_mem_cons, List.forall_mem_singleton]
    exact ⟨⟨ht.shaped hs, ht.awaits⟩, ⟨rfl, awaitsStates_delayed (hc.branch ty)⟩,
      rfl, awaitsStates_delayed (ha.branch ty)⟩
  · rw [choose_of_ne hs]
    refine ⟨rfl, ?_⟩
    simp only [Expr.children, List.forall_mem_cons]
    exact ⟨ht.awaits, hc.branch ty, ha.branch ty, by simp⟩

end Lifted

namespace Lifts

variable {ns : String}

theorem sound_of {e : Expr} {l : Lifted} (h : Lifts ns e l) (ha : l.expr.AwaitsStates) : l.Sound :=
  ⟨ha, fun hs => by rw [h.isStateShaped_eq, hs]; rfl⟩

theorem sound_operands {es : List Expr} {ls : List Lifted}
    (h : List.Forall₂ (fun e l => ∃ _ : Lifts ns e l, l.expr.AwaitsStates) es ls) :
    ∀ l ∈ ls, l.Sound := by
  induction h with
  | nil => simp
  | cons he _ ih => exact List.forall_mem_cons.2 ⟨he.1.sound_of he.2, ih⟩

theorem awaitsStates_params {ps qs : List Param}
    (h : List.Forall₂ (Param.Lifts fun e l => ∃ _ : Lifts ns e l, l.expr.AwaitsStates) ps qs) :
    ∀ d ∈ qs.filterMap Param.default?, d.AwaitsStates := by
  induction h with
  | nil => simp
  | cons hp _ ih =>
    cases hp with
    | required => exact ih
    | optional he => exact List.forall_mem_cons.2 ⟨he.2, ih⟩

/-- **Every waiting call of a lifted tree waits for states.** -/
theorem awaitsStates {e : Expr} {l : Lifted} (h : Lifts ns e l) : l.expr.AwaitsStates := by
  induction h using Lifts.induction with
  | @leaf e h =>
    cases e with
    | number | string | bool | null | undefined | ident => exact ⟨rfl, by simp [Expr.children]⟩
    | _ => cases h
  | @unary _ op _ _ he ih =>
    refine Lifted.awaitsStates_operation ?_ (sound_operands (.cons ⟨he, ih⟩ .nil)) rfl
      fun c hc => hc
    rw [Native.ofOperator?_unary]
    rfl
  | @binary _ op _ _ _ _ ha hb iha ihb =>
    refine Lifted.awaitsStates_operation ?_
      (sound_operands (.cons ⟨ha, iha⟩ (.cons ⟨hb, ihb⟩ .nil))) rfl fun c hc => hc
    rw [Native.ofOperator?_binary]
    rfl
  | @logical _ op _ _ _ _ ha hb iha ihb =>
    refine Lifted.awaitsStates_operation ?_
      (sound_operands (.cons ⟨ha, iha⟩ (.cons ⟨hb, ihb⟩ .nil))) rfl fun c hc => hc
    rw [Native.ofOperator?_logical]
    rfl
  | call hf _ ihf ihargs =>
    exact Lifted.awaitsStates_application (hf.sound_of ihf) (sound_operands ihargs)
  | conditional ht hc ha _ iht ihc iha =>
    exact Lifted.awaitsStates_choose (ht.sound_of iht) (hc.sound_of ihc) (ha.sound_of iha)
  | array _ ih => exact Lifted.awaitsStates_operation rfl (sound_operands ih) rfl fun c hc => hc
  | named ho ih => exact Lifted.awaitsStates_namedMember (ho.sound_of ih)
  | var => exact ⟨rfl, by simp [Expr.children]⟩
  | hop ho ih => exact Lifted.awaitsStates_namedMember (ho.sound_of ih)
  | computed _ ho hp iho ihp =>
    exact Lifted.awaitsStates_operation rfl
      (sound_operands (.cons ⟨ho, iho⟩ (.cons ⟨hp, ihp⟩ .nil))) rfl fun c hc => hc
  | function _ _ ihps ihbody =>
    refine ⟨rfl, List.forall_mem_append.2 ⟨awaitsStates_params ihps, ?_⟩⟩
    exact List.forall_mem_singleton.2 ihbody

end Lifts

/-- **The state type is sound.** Waiting calls wait for states, and a tree of the state type is
state-shaped and yields nothing but states. -/
theorem states_of_lift {ns : String} {e : Expr} {l : Lifted} (hform : e.LambdaForm)
    (h : e.lift ns = .ok l) :
    l.expr.AwaitsStates ∧
      (l.ty = .state → l.expr.isStateShaped = true ∧
        ∀ depth env a v b, eval depth env l.expr a = .ok (v, b) → v.isState = true) := by
  have hl := Lifts.of_lift hform h
  refine ⟨hl.awaitsStates, fun hs => ?_⟩
  have hshape : l.expr.isStateShaped = true := (hl.sound_of hl.awaitsStates).shaped hs
  exact ⟨hshape, fun depth env _ _ _ hv => (ends_eval_isState hshape depth env).of_eq_ok hv⟩

/-- A sum with a conditional state among its operands, evaluated where its test fails. -/
theorem states_of_lift_sum :
    ∃ l v b, Sample.stateSum.LambdaForm ∧ Sample.stateSum.lift "δ" = .ok l ∧ l.ty = .state ∧
      l.expr.AwaitsStates ∧ l.expr.isStateShaped = true ∧
      eval 8 [("x", .null)] l.expr 0 = .ok (v, b) ∧ v.isState = true := by
  have hform : Sample.stateSum.LambdaForm := by decide
  have hlift : Sample.stateSum.lift "δ" = .ok _ := rfl
  have h := states_of_lift hform hlift
  refine ⟨_, _, _, hform, hlift, rfl, h.1, (h.2 rfl).1, rfl, ?_⟩
  exact (h.2 rfl).2 8 [("x", .null)] 0 _ _ rfl

end DeltaForm
